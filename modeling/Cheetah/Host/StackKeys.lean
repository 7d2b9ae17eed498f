import Mathlib.Data.List.TakeWhile
import Mathlib.Data.Nat.ModEq
import Cheetah.Host.StoreCapacity
import Cheetah.Lib.Bytes

/-! The keys of the distinct store's hash table, which are on its caller's stack.

`hsearch_r` is given the address of a local buffer of eight bytes without a NUL of its own.
It records the hash of the string it sees there, keeps the address, and compares a later
string with whatever the address then holds. What a lookup finds thus depends on where the
buffers were and on the bytes behind them. `lookups` says which entry each call finds, from
the calls alone; the store is right exactly when equal values are looked up in one entry. -/
namespace Cheetah.Host.AggregateProcessing
open Lib Lib.Bytes

/-! ### Calls -/

/-- A call of `cheetah_aggregate_processing_distinct_update`: the value, the stack before
`memcpy`, and the address of `key` in it. -/
structure StackCall where
  value : Value
  stack : List Byte
  key : Nat
  fits : key + 8 < stack.length
  terminated : stack.getLast? = some 0

namespace StackCall
variable (c : StackCall)

/-- The stack once the value has been copied to `key`. -/
def memory : List Byte := splice c.stack c.key (image c.value)

/-- The string at an address during the call. -/
def string (address : Nat) : List Byte := (c.memory.drop address).takeWhile (· ≠ 0)

/-- The string `hsearch_r` is given. -/
def keyString : List Byte := c.string c.key

end StackCall

/-! ### `hsearch_r` -/

/-- What the table keeps of a key: its hash and its address. -/
structure KeptKey where
  hash : Word
  key : Nat
  deriving DecidableEq

/-- The entries made so far, which `FIND` goes through in this order when their hashes are
the same, and how many the table can hold. -/
structure StackTable where
  entries : List (KeptKey × Nat)
  capacity : Option Nat

section Code
variable (hash : List Byte → Word)

/-- The comparison of an entry with the key of a call: the recorded hash, and then the
string that is at the kept address now. -/
def KeptKey.found (k : KeptKey) (c : StackCall) : Bool :=
  k.hash = hash c.keyString && c.string k.key = c.keyString

namespace StackTable

def find (t : StackTable) (c : StackCall) : Option Nat :=
  (t.entries.find? fun e => e.1.found hash c).map Prod.snd

def full (t : StackTable) : Bool :=
  match t.capacity with
  | none => false
  | some n => decide (n ≤ t.entries.length)

def enter (t : StackTable) (c : StackCall) (data : Nat) : Option StackTable :=
  match t.find hash c with
  | some _ => some t
  | none =>
    if t.full then none else some {t with entries := t.entries ++ [(⟨hash c.keyString, c.key⟩, data)]}

def hsearch : Hsearch StackTable StackCall := ⟨find hash, enter hash⟩

end StackTable

/-- The table `hcreate_r` makes. -/
def stackCreate (hc : Hcreate) (nel : Nat) : StackTable := ⟨[], hc.capacity nel⟩

/-- A sequence of updates. -/
def stackRun (state : DistinctState StackTable) : List StackCall → Option (DistinctState StackTable)
  | [] => some state
  | c :: rest => do
    let state ← distinctUpdate (StackTable.hsearch hash) c state c.value
    stackRun state rest

end Code

/-! ### Lookups -/

section Lookups
variable (hash : List Byte → Word)

/-- The entry a call finds among the kept keys, or the one it makes behind them. -/
def entryOf (kept : List KeptKey) (c : StackCall) : Nat := kept.findIdx fun k => k.found hash c

/-- The kept keys after a call. -/
def keepKey (kept : List KeptKey) (c : StackCall) : List KeptKey :=
  if entryOf hash kept c < kept.length then kept else kept ++ [⟨hash c.keyString, c.key⟩]

/-- Each call's value and the entry it is looked up in. -/
def lookups (kept : List KeptKey) : List StackCall → List (Value × Nat)
  | [] => []
  | c :: rest => (c.value, entryOf hash kept c) :: lookups (keepKey hash kept c) rest

/-- Equal values have one entry. -/
def Consistent (pairs : List (Value × Nat)) : Prop :=
  ∀ p ∈ pairs, ∀ q ∈ pairs, p.1 = q.1 → p.2 = q.2

/-- Equal values are looked up in one entry. -/
def SameEntries (calls : List StackCall) : Prop := Consistent (lookups hash [] calls)

end Lookups

/-! ### The store as one of numbered entries -/

section Binned
variable {hash : List Byte → Word} {t : StackTable} {c : StackCall}

/-- The keys kept so far. -/
def keptKeys (t : StackTable) : List KeptKey := t.entries.map Prod.fst

/-- The table as a map from the numbers of its entries. -/
def binnedTable (t : StackTable) : Htab Nat := ⟨t.entries.mapIdx fun i e => (i, e.2), t.capacity⟩

/-- The store with such a map. -/
def binned (s : DistinctState StackTable) : DistinctState (Htab Nat) where
  currentEntries := s.currentEntries
  currentHashBins := s.currentHashBins
  size := s.size
  htab := binnedTable s.htab
  resultArray := s.resultArray
  ptrArray := s.ptrArray
  heap := s.heap

@[simp] theorem binned_htab (s : DistinctState StackTable) : (binned s).htab = binnedTable s.htab := rfl
@[simp] theorem binned_heap (s : DistinctState StackTable) : (binned s).heap = s.heap := rfl
@[simp] theorem binned_resultArray (s : DistinctState StackTable) :
    (binned s).resultArray = s.resultArray := rfl
@[simp] theorem binned_ptrArray (s : DistinctState StackTable) : (binned s).ptrArray = s.ptrArray := rfl
@[simp] theorem binned_currentEntries (s : DistinctState StackTable) :
    (binned s).currentEntries = s.currentEntries := rfl
@[simp] theorem binned_currentHashBins (s : DistinctState StackTable) :
    (binned s).currentHashBins = s.currentHashBins := rfl

theorem lookup_mapIdx (entries : List (KeptKey × Nat)) (n b : Nat) :
    (entries.mapIdx fun i e => (n + i, e.2)).lookup (n + b) = entries[b]?.map Prod.snd := by
  induction entries generalizing n b with
  | nil => rfl
  | cons e rest ih =>
    have hshift : (fun i (e : KeptKey × Nat) => (n + (i + 1), e.2)) = fun i e => (n + 1 + i, e.2) := by
      funext i e
      rw [Nat.add_assoc, Nat.add_comm 1 i]
    rw [List.mapIdx_cons, hshift]
    cases b with
    | zero => rw [Nat.add_zero, List.lookup_cons_self, List.getElem?_cons_zero, Option.map_some]
    | succ b =>
      have hne : (n + (b + 1) == n + 0) = false := beq_eq_false_iff_ne.mpr (by omega)
      rw [List.lookup_cons, hne, List.getElem?_cons_succ, ← ih (n + 1) b, Nat.add_assoc, Nat.add_comm 1 b]

theorem entryOf_keptKeys (t : StackTable) (c : StackCall) :
    entryOf hash (keptKeys t) c = t.entries.findIdx fun e => e.1.found hash c := by
  rw [entryOf, keptKeys, List.findIdx_map]
  rfl

/-- `FIND` is a lookup of the entry's number. -/
theorem find_binned (t : StackTable) (c : StackCall) :
    Htab.hsearch.find (binnedTable t) (entryOf hash (keptKeys t) c) = (StackTable.hsearch hash).find t c := by
  have hlookup := lookup_mapIdx t.entries 0 (entryOf hash (keptKeys t) c)
  simp only [Nat.zero_add] at hlookup
  refine Eq.trans hlookup ?_
  rw [entryOf_keptKeys, ← List.find?_eq_getElem?_findIdx]
  rfl

/-- The number of an entry that is not found is the next one. -/
theorem entryOf_of_find_none (h : t.find hash c = none) : entryOf hash (keptKeys t) c = t.entries.length := by
  rw [StackTable.find, Option.map_eq_none_iff, List.find?_eq_none] at h
  rw [entryOf_keptKeys, List.findIdx_eq_length]
  intro e he
  exact Bool.eq_false_iff.mpr (h e he)

theorem entryOf_lt_of_find_some {head : Nat} (h : t.find hash c = some head) :
    entryOf hash (keptKeys t) c < t.entries.length := by
  by_contra hge
  rw [StackTable.find, List.find?_eq_getElem?_findIdx, ← entryOf_keptKeys,
    List.getElem?_eq_none (Nat.not_lt.mp hge)] at h
  cases h

theorem enter_of_find_none (h : t.find hash c = none) (data : Nat) :
    (StackTable.hsearch hash).enter t c data =
      if t.full then none
      else some {t with entries := t.entries ++ [(⟨hash c.keyString, c.key⟩, data)]} := by
  show StackTable.enter hash t c data = _
  rw [StackTable.enter, h]

/-- `ENTER` gives it to the entry it makes. -/
theorem enter_binned (h : t.find hash c = none) (data : Nat) :
    Htab.hsearch.enter (binnedTable t) (entryOf hash (keptKeys t) c) data =
      ((StackTable.hsearch hash).enter t c data).map binnedTable := by
  have hfind : (binnedTable t).find (entryOf hash (keptKeys t) c) = none := (find_binned t c).trans h
  have hfull : (binnedTable t).full = t.full := by
    unfold Htab.full StackTable.full
    show (match t.capacity with | none => _ | some n => _) = _
    rw [binnedTable, List.length_mapIdx]
  rw [enter_of_find_none h]
  show Htab.enter _ _ _ = _
  rw [Htab.enter, hfind, hfull, entryOf_of_find_none h]
  cases t.full with
  | true => rfl
  | false =>
    simp only [Bool.false_eq_true, if_false, Option.map_some, binnedTable, List.mapIdx_append,
      List.mapIdx_singleton, Nat.zero_add]

/-- **One update** is one of the store of numbered entries. -/
theorem update_binned (s : DistinctState StackTable) (c : StackCall) :
    distinctUpdate Htab.hsearch (entryOf hash (keptKeys s.htab) c) (binned s) c.value =
      (distinctUpdate (StackTable.hsearch hash) c s c.value).map binned := by
  unfold distinctUpdate
  rw [binned_htab, find_binned]
  simp only [binned_heap, binned_currentEntries, binned_currentHashBins, binned_resultArray, binned_ptrArray]
  cases hs : (StackTable.hsearch hash).find s.htab c with
  | some head =>
    dsimp only
    cases walk c.value s.heap (s.heap.length + 1) (some head) none with
    | none => rfl
    | some found =>
      obtain ⟨bin, binPrev⟩ := found
      cases bin with
      | some bin => rfl
      | none =>
        cases binPrev with
        | none => rfl
        | some prev =>
          cases hlast : s.heap[prev]? with
          | none => simp [hlast]
          | some last =>
            cases s.resultArray.write s.currentEntries.toNat c.value with
            | none => simp
            | some results =>
              simp only [hlast, malloc, Option.bind_eq_bind, Option.bind_some, Option.map_some]
              rfl
  | none =>
    dsimp only
    cases s.resultArray.write s.currentEntries.toNat c.value with
    | none => rfl
    | some results =>
      simp only [malloc, enter_binned hs]
      cases s.ptrArray.write s.currentHashBins.toNat s.heap.length with
      | none => rfl
      | some ptrs =>
        cases (StackTable.hsearch hash).enter s.htab c s.heap.length with
        | none => rfl
        | some table => rfl

end Binned

/-! ### What an update writes -/

section Written
variable {τ κ : Type} {H : Hsearch τ κ} {key : κ} {s s' : DistinctState τ} {v : Value}

/-- `result_array` holds `xs`. -/
structure Written (xs : List Value) (s : DistinctState τ) : Prop where
  results : s.resultArray.Holds xs
  entries : s.currentEntries.toNat = xs.length
  room : s.resultArray.length = s.size.toNat

theorem Written.push {xs : List Value} (hs : Written xs s)
    (hwrite : s.resultArray.write s.currentEntries.toNat v = some s'.resultArray)
    (hentries : s'.currentEntries = s.currentEntries + 1) (hsize : s'.size = s.size) :
    Written (xs ++ [v]) s' := by
  have hlt : xs.length < s.resultArray.length := by
    by_contra hge
    rw [hs.entries, Buffer.write, if_neg hge] at hwrite
    cases hwrite
  obtain ⟨results, hwrite', hholds, hlen⟩ := hs.results.write_end hlt v
  rw [hs.entries, hwrite'] at hwrite
  obtain rfl := Option.some.inj hwrite
  refine ⟨hholds, ?_, by rw [hlen, hs.room, hsize]⟩
  have hcount : s.currentEntries.toNat < s.size.toNat := by rwa [hs.entries, ← hs.room]
  rw [hentries, toNat_succ hcount, hs.entries, List.length_append, List.length_singleton]

theorem Written.update {xs : List Value} (hs : Written xs s) (h : distinctUpdate H key s v = some s') :
    ∃ more, Written (xs ++ more) s' := by
  rcases distinctUpdate_cases h with ⟨rfl, _⟩ | ⟨hwrite, hentries, hsize, _⟩
  · exact ⟨[], by rwa [List.append_nil]⟩
  · exact ⟨[v], hs.push hwrite hentries hsize⟩

theorem Written.view {xs : List Value} (hs : Written xs s) : distinctView s = xs.map some := by
  rw [distinctView, hs.entries]
  exact hs.results.map_read

/-- Nothing in `result_array` is ever removed. -/
theorem Written.run {hash : List Byte → Word} {s s' : DistinctState StackTable} {xs : List Value}
    (hs : Written xs s) {calls : List StackCall} (h : stackRun hash s calls = some s') :
    ∃ more, Written (xs ++ more) s' := by
  induction calls generalizing xs s with
  | nil =>
    obtain rfl := Option.some.inj h
    exact ⟨[], by rwa [List.append_nil]⟩
  | cons c rest ih =>
    obtain ⟨s₁, hupdate, hrest⟩ := Option.bind_eq_some_iff.mp h
    obtain ⟨more, h₁⟩ := hs.update hupdate
    obtain ⟨more', h'⟩ := ih h₁ hrest
    exact ⟨more ++ more', by rwa [← List.append_assoc]⟩

end Written

/-! ### Runs -/

section Runs
variable {hash : List Byte → Word} {s s' : DistinctState StackTable} {c : StackCall}
  {seen : List (Value × Nat)}

/-- The store after calls with these values and entries. -/
structure Tracks (seen : List (Value × Nat)) (s : DistinctState StackTable) : Prop where
  stored : ∀ format : Value → Nat, (∀ p ∈ seen, format p.1 = p.2) →
    DistinctStored format (seen.map Prod.fst) (binned s)
  consistent : Consistent seen

/-- An entry for every value, as the lookups have it. -/
def entryFor (seen : List (Value × Nat)) (v : Value) : Nat := (seen.lookup v).getD 0

theorem entryFor_eq (h : Consistent seen) : ∀ p ∈ seen, entryFor seen p.1 = p.2 := by
  intro p hp
  cases hlookup : seen.lookup p.1 with
  | none =>
    rw [List.lookup_eq_none_iff] at hlookup
    have hne := hlookup p hp
    simp at hne
  | some b =>
    obtain ⟨l₁, l₂, hl, _⟩ := List.lookup_eq_some_iff.mp hlookup
    have hmem : (p.1, b) ∈ seen := by
      rw [hl]
      exact List.mem_append_right _ (List.mem_cons_self ..)
    rw [entryFor, hlookup, Option.getD_some]
    exact h _ hmem p hp rfl

theorem Consistent.left {a b : List (Value × Nat)} (h : Consistent (a ++ b)) : Consistent a :=
  fun p hp q hq => h p (List.mem_append_left b hp) q (List.mem_append_left b hq)

/-- What makes a consistent list inconsistent. -/
theorem Consistent.other_of_concat {pairs : List (Value × Nat)} {v : Value} {e : Nat}
    (h : Consistent pairs) (hcons : ¬ Consistent (pairs ++ [(v, e)])) :
    ∃ p ∈ pairs, p.1 = v ∧ p.2 ≠ e := by
  by_contra hnone
  push Not at hnone
  refine hcons fun p hp q hq heq => ?_
  rcases List.mem_append.mp hp with hp | hp
  · rcases List.mem_append.mp hq with hq | hq
    · exact h p hp q hq heq
    · rw [List.mem_singleton.mp hq] at heq ⊢
      exact hnone p hp heq
  · rw [List.mem_singleton.mp hp] at heq ⊢
    rcases List.mem_append.mp hq with hq | hq
    · exact (hnone q hq heq.symm).symm
    · rw [List.mem_singleton.mp hq]

/-- The table after an update is the one after the lookup. -/
theorem keptKeys_update {format : Value → Nat} {values : List Value}
    (h : DistinctStored format values (binned s)) {values' : List Value}
    (h' : DistinctStored format values' (binned s'))
    (hupdate : distinctUpdate (StackTable.hsearch hash) c s c.value = some s') :
    keptKeys s'.htab = keepKey hash (keptKeys s.htab) c := by
  have hfound : (∃ head, s.htab.find hash c = some head) →
      keepKey hash (keptKeys s.htab) c = keptKeys s.htab := by
    intro hsome
    obtain ⟨head, hfind⟩ := hsome
    refine if_pos ?_
    rw [keptKeys, List.length_map]
    exact entryOf_lt_of_find_some hfind
  rcases distinctUpdate_cases hupdate with
    ⟨rfl, head, _, _, hfind, _⟩ | ⟨_, _, _, ⟨hfind, htab, _⟩ | ⟨hfind, htab, hbins, _⟩⟩
  · rw [hfound ⟨head, hfind⟩]
  · rw [htab, hfound hfind]
  · have hnone : s.htab.find hash c = none := hfind
    rw [enter_of_find_none hnone] at htab
    cases hfull : s.htab.full with
    | true =>
      -- the bins are counted, so the entry has been made
      rw [hfull, if_pos rfl, Option.getD_none] at htab
      have hcount := h'.bins
      rw [binned_htab, htab, ← binned_htab, ← h.bins, binned_currentHashBins, binned_currentHashBins,
        hbins] at hcount
      have heq := BitVec.eq_of_toNat_eq hcount
      simp at heq
    | false =>
      rw [hfull, if_neg Bool.false_ne_true, Option.getD_some] at htab
      rw [htab, keepKey, entryOf_of_find_none hnone, keptKeys, keptKeys, List.length_map,
        if_neg (Nat.lt_irrefl _), List.map_append, List.map_singleton]

/-- **One update** whose value has the entry it had before, or none, and fits. -/
theorem Tracks.update (h : Tracks seen s)
    (hcons : Consistent (seen ++ [(c.value, entryOf hash (keptKeys s.htab) c)]))
    (hroom : (seen.map Prod.fst ++ [c.value]).eraseDups.length ≤ s.size.toNat) :
    ∃ s', distinctUpdate (StackTable.hsearch hash) c s c.value = some s' ∧
      Tracks (seen ++ [(c.value, entryOf hash (keptKeys s.htab) c)]) s' ∧ s'.size = s.size ∧
      keptKeys s'.htab = keepKey hash (keptKeys s.htab) c := by
  have hstep : ∀ format : Value → Nat,
      (∀ p ∈ seen ++ [(c.value, entryOf hash (keptKeys s.htab) c)], format p.1 = p.2) →
      ∃ s', distinctUpdate (StackTable.hsearch hash) c s c.value = some s' ∧
        DistinctStored format (seen.map Prod.fst) (binned s) ∧
        DistinctStored format (seen.map Prod.fst ++ [c.value]) (binned s') ∧ s'.size = s.size := by
    intro format hformat
    have hs := h.stored format fun p hp => hformat p (List.mem_append_left _ hp)
    have hentry : format c.value = entryOf hash (keptKeys s.htab) c :=
      hformat (c.value, _) (List.mem_append_right _ (List.mem_singleton.mpr rfl))
    obtain ⟨t, hupdate, ht, hsize⟩ := distinctStored_update hs c.value hroom
    rw [hentry, update_binned, Option.map_eq_some_iff] at hupdate
    obtain ⟨s', hupdate, rfl⟩ := hupdate
    exact ⟨s', hupdate, hs, ht, hsize⟩
  obtain ⟨s', hupdate, hs, hs', hsize⟩ := hstep _ (entryFor_eq hcons)
  refine ⟨s', hupdate, ⟨fun format hformat => ?_, hcons⟩, hsize, keptKeys_update hs hs' hupdate⟩
  obtain ⟨s₁, hupdate', _, hs₁, _⟩ := hstep format hformat
  rw [hupdate] at hupdate'
  obtain rfl := Option.some.inj hupdate'
  rw [List.map_append, List.map_singleton]
  exact hs₁

/-- Without room for its value an update has no result. -/
theorem Tracks.overrun (h : Tracks seen s)
    (hcons : Consistent (seen ++ [(c.value, entryOf hash (keptKeys s.htab) c)]))
    (hroom : ¬ (seen.map Prod.fst ++ [c.value]).eraseDups.length ≤ s.size.toNat) :
    distinctUpdate (StackTable.hsearch hash) c s c.value = none := by
  have hformat := entryFor_eq hcons
  have hs := h.stored _ fun p hp => hformat p (List.mem_append_left _ hp)
  have hentry := hformat (c.value, _) (List.mem_append_right _ (List.mem_singleton.mpr rfl))
  have hnone := hs.overrun hroom
  rw [hentry, update_binned] at hnone
  exact Option.map_eq_none_iff.mp hnone

theorem Tracks.written (h : Tracks seen s) : Written (seen.map Prod.fst).eraseDups s := by
  have hs := h.stored _ (entryFor_eq h.consistent)
  exact ⟨hs.results, hs.entries, hs.resultRoom⟩

/-- **A value looked up in another entry** is written again. -/
theorem Tracks.split (h : Tracks seen s)
    (hcons : ¬ Consistent (seen ++ [(c.value, entryOf hash (keptKeys s.htab) c)]))
    (hupdate : distinctUpdate (StackTable.hsearch hash) c s c.value = some s') :
    c.value ∈ seen.map Prod.fst ∧ Written ((seen.map Prod.fst).eraseDups ++ [c.value]) s' := by
  -- an earlier call has the value and another entry
  obtain ⟨p, hp, hvalue, hne⟩ := h.consistent.other_of_concat hcons
  refine ⟨List.mem_map.mpr ⟨p, hp, hvalue⟩, ?_⟩
  rcases distinctUpdate_cases hupdate with ⟨_, head, bin, prev, hfind, hwalk⟩ | ⟨hwrite, hentries, hsize, _⟩
  · -- the chain that was searched is that of other values
    exfalso
    have hs := h.stored _ (entryFor_eq h.consistent)
    have hchain := hs.table.chains (entryOf hash (keptKeys s.htab) c)
    rw [show (binned s).htab.entries.lookup (entryOf hash (keptKeys s.htab) c) = some head from
      (find_binned s.htab c).trans hfind] at hchain
    have hlen := positions_binsOf_lt (entryFor seen) s.heap (entryOf hash (keptKeys s.htab) c)
    rcases @walk_chain _ _ _ _ c.value s.heap (s.heap.length + 1) (some head) none _ hchain hlen with
      ⟨a, x, _, _, ha, hx, hk⟩ | ⟨hmiss, _⟩
    · rw [mem_positions, binned_heap, getElem?_binsOf (entryFor seen) hx, Option.some.injEq] at ha
      have hk : x.value = c.value := hk
      rw [show ChainNode.key x = x.value from rfl, hk] at ha
      rw [← ha, ← hvalue, entryFor_eq h.consistent p hp] at hne
      exact hne rfl
    · rw [hmiss] at hwalk
      cases hwalk
  · exact h.written.push hwrite hentries hsize

theorem Tracks.view (h : Tracks seen s) : distinctView s = (seen.map Prod.fst).eraseDups.map some :=
  h.written.view

/-- A tracked store lists the values given to it, each once. -/
theorem Tracks.lists (h : Tracks seen s) :
    (distinctView s).Nodup ∧ ∀ v ∈ seen.map Prod.fst, some v ∈ distinctView s := by
  rw [h.view]
  exact ⟨(nodup_eraseDups _).map (Option.some_injective _),
    fun v hv => List.mem_map_of_mem (List.mem_eraseDups.mpr hv)⟩

theorem Tracks.le_size (h : Tracks seen s) : (seen.map Prod.fst).eraseDups.length ≤ s.size.toNat :=
  (h.stored _ (entryFor_eq h.consistent)).le_size

/-- The value looked up in another entry stays in `result_array` twice. -/
theorem Tracks.listed_twice (h : Tracks seen s) {rest : List StackCall}
    (hcons : ¬ Consistent (seen ++ [(c.value, entryOf hash (keptKeys s.htab) c)]))
    (hrun : stackRun hash s (c :: rest) = some s') : ¬ (distinctView s').Nodup := by
  intro hnodup
  obtain ⟨s₁, hupdate, hrest⟩ := Option.bind_eq_some_iff.mp hrun
  obtain ⟨hold, h₁⟩ := h.split hcons hupdate
  obtain ⟨more, h'⟩ := h₁.run hrest
  rw [h'.view] at hnodup
  have htwice := hnodup.of_map.of_append_left
  rw [List.nodup_append] at htwice
  exact absurd rfl
    (htwice.2.2 c.value (List.mem_eraseDups.mpr hold) c.value (List.mem_singleton.mpr rfl))

/-- A run from a store that is tracked. -/
theorem Tracks.run_iff (h : Tracks seen s) (hash : List Byte → Word) (calls : List StackCall) :
    (∃ s', stackRun hash s calls = some s' ∧ (distinctView s').Nodup ∧
      ∀ v ∈ seen.map Prod.fst ++ calls.map StackCall.value, some v ∈ distinctView s') ↔
      Consistent (seen ++ lookups hash (keptKeys s.htab) calls) ∧
        (seen.map Prod.fst ++ calls.map StackCall.value).eraseDups.length ≤ s.size.toNat := by
  induction calls generalizing seen s with
  | nil =>
    rw [lookups, List.map_nil, List.append_nil, List.append_nil]
    exact iff_of_true ⟨s, rfl, h.lists⟩ ⟨h.consistent, h.le_size⟩
  | cons c rest ih =>
    have hvalues : seen.map Prod.fst ++ (c :: rest).map StackCall.value =
        (seen.map Prod.fst ++ [c.value]) ++ rest.map StackCall.value := by
      rw [List.map_cons, List.append_assoc, List.singleton_append]
    have hpairs : seen ++ lookups hash (keptKeys s.htab) (c :: rest) =
        (seen ++ [(c.value, entryOf hash (keptKeys s.htab) c)]) ++
          lookups hash (keepKey hash (keptKeys s.htab) c) rest := by
      rw [lookups, List.append_assoc, List.singleton_append]
    rw [hvalues, hpairs]
    by_cases hcons : Consistent (seen ++ [(c.value, entryOf hash (keptKeys s.htab) c)])
    · by_cases hroom : (seen.map Prod.fst ++ [c.value]).eraseDups.length ≤ s.size.toNat
      · obtain ⟨s₁, hupdate, h₁, hsize, hkept⟩ := h.update hcons hroom
        have hiff := ih h₁
        rw [hsize, hkept, List.map_append, List.map_singleton] at hiff
        rw [← hiff]
        simp only [stackRun, hupdate, Option.bind_eq_bind, Option.bind_some]
      · -- the first value without room ends the run
        refine iff_of_false (fun hrun => ?_) fun hall => ?_
        · obtain ⟨s', hrun, _⟩ := hrun
          rw [stackRun, h.overrun hcons hroom] at hrun
          cases hrun
        · refine absurd (Nat.le_trans ?_ hall.2) hroom
          exact length_eraseDups_le_of_subset (List.subset_append_left _ _)
    · refine iff_of_false (fun hrun => ?_) fun hall => hcons hall.1.left
      obtain ⟨s', hrun, hnodup, _⟩ := hrun
      exact h.listed_twice hcons hrun hnodup

end Runs

/-! ### One buffer -/

section OneBuffer
variable {hash : List Byte → Word} {address : Nat} {kept : List KeptKey} {calls : List StackCall}
  {c : StackCall}

/-- The stack from the buffer on. -/
theorem drop_memory (c : StackCall) :
    c.memory.drop c.key = image c.value ++ c.stack.drop (c.key + (image c.value).length) := by
  have hkey : c.key ≤ c.stack.length := by
    have := c.fits
    omega
  rw [StackCall.memory, splice, List.append_assoc, List.drop_left' (List.length_take_of_le hkey)]

/-- A value with a zero byte is its own string. -/
theorem keyString_of_zero (h : (0 : Byte) ∈ image c.value) :
    c.keyString = (image c.value).takeWhile (· ≠ 0) := by
  have hshort : ((image c.value).takeWhile (· ≠ 0)).length ≠ (image c.value).length := by
    intro hlen
    have hall := (List.takeWhile_prefix (p := fun b : Byte => b ≠ 0)).eq_of_length hlen
    exact absurd (List.takeWhile_eq_self_iff.mp hall 0 h) (by decide)
  rw [StackCall.keyString, StackCall.string, drop_memory, List.takeWhile_append, if_neg hshort]

/-- The string of any other goes on behind it. -/
theorem keyString_of_not_zero (h : (0 : Byte) ∉ image c.value) :
    ∃ more, c.keyString = image c.value ++ more := by
  have hall : (image c.value).takeWhile (· ≠ 0) = image c.value := by
    refine List.takeWhile_eq_self_iff.mpr fun b hb => decide_eq_true ?_
    intro hzero
    exact h (hzero ▸ hb)
  rw [StackCall.keyString, StackCall.string, drop_memory, List.takeWhile_append, if_pos (by rw [hall])]
  exact ⟨_, rfl⟩

theorem findIdx_congr {α : Type} {l : List α} {p q : α → Bool} (h : ∀ a ∈ l, p a = q a) :
    l.findIdx p = l.findIdx q := by
  induction l with
  | nil => rfl
  | cons a rest ih =>
    rw [List.findIdx_cons, List.findIdx_cons, h a (List.mem_cons_self ..),
      ih fun b hb => h b (List.mem_cons_of_mem a hb)]

/-- The first kept key with a hash. -/
def firstWith (kept : List KeptKey) (h : Word) : Nat := kept.findIdx fun k => k.hash = h

/-- With every key in one place a lookup compares hashes only. -/
theorem entryOf_eq_firstWith (hkept : ∀ k ∈ kept, k.key = c.key) :
    entryOf hash kept c = firstWith kept (hash c.keyString) := by
  refine findIdx_congr fun k hk => ?_
  rw [KeptKey.found, hkept k hk, StackCall.keyString, decide_eq_true (rfl : c.string c.key = _), Bool.and_true]

/-- The key of a call is kept where it is looked up. -/
theorem firstWith_keepKey (hkept : ∀ k ∈ kept, k.key = c.key) {final : List KeptKey}
    (hfinal : keepKey hash kept c <+: final) :
    entryOf hash kept c = firstWith final (hash c.keyString) := by
  have hentry : entryOf hash kept c = firstWith kept (hash c.keyString) := entryOf_eq_firstWith hkept
  have hlt : firstWith (keepKey hash kept c) (hash c.keyString) < (keepKey hash kept c).length ∧
      firstWith (keepKey hash kept c) (hash c.keyString) = entryOf hash kept c := by
    unfold keepKey
    split
    · rename_i hlt
      exact ⟨hentry ▸ hlt, hentry.symm⟩
    · rename_i hge
      rw [hentry] at hge ⊢
      unfold firstWith at hge ⊢
      have hle : kept.findIdx (fun k => k.hash = hash c.keyString) ≤ kept.length := List.findIdx_le_length
      rw [List.findIdx_append, if_neg hge, List.length_append, List.length_singleton]
      simp only [List.findIdx_cons, decide_true, cond_true]
      exact ⟨by omega, by omega⟩
  rw [firstWith, hfinal.findIdx_eq_of_findIdx_lt_length hlt.1]
  exact hlt.2.symm

theorem keepKey_key (hkept : ∀ k ∈ kept, k.key = address) (hc : c.key = address) :
    ∀ k ∈ keepKey hash kept c, k.key = address := by
  unfold keepKey
  split
  · exact hkept
  · intro k hk
    rcases List.mem_append.mp hk with hk | hk
    · exact hkept k hk
    · rw [List.mem_singleton.mp hk]
      exact hc

theorem prefix_keepKey (kept : List KeptKey) (c : StackCall) : kept <+: keepKey hash kept c := by
  unfold keepKey
  split
  · exact List.prefix_refl kept
  · exact List.prefix_append ..

theorem prefix_keepKeys (kept : List KeptKey) (calls : List StackCall) :
    kept <+: calls.foldl (keepKey hash) kept := by
  induction calls generalizing kept with
  | nil => exact List.prefix_refl kept
  | cons c rest ih => exact (prefix_keepKey kept c).trans (ih _)

/-- Each call finds the first key with its hash among those kept in the end. -/
theorem lookups_one_buffer (hkept : ∀ k ∈ kept, k.key = address) (hcalls : ∀ c ∈ calls, c.key = address) :
    lookups hash kept calls = calls.map fun c =>
      (c.value, firstWith (calls.foldl (keepKey hash) kept) (hash c.keyString)) := by
  induction calls generalizing kept with
  | nil => rfl
  | cons c rest ih =>
    have hc := hcalls c (List.mem_cons_self ..)
    rw [lookups, List.map_cons, List.foldl_cons,
      ih (keepKey_key hkept hc) fun d hd => hcalls d (List.mem_cons_of_mem c hd),
      firstWith_keepKey (fun k hk => (hkept k hk).trans hc.symm) (prefix_keepKeys _ rest)]

/-- **One buffer.** When `key` is at one address in every call, and the strings of equal
values have one hash, equal values are looked up in one entry. -/
theorem sameEntries_of_one_buffer (hash : List Byte → Word) (hcalls : ∀ c ∈ calls, c.key = address)
    (hhash : ∀ c ∈ calls, ∀ d ∈ calls, c.value = d.value → hash c.keyString = hash d.keyString) :
    SameEntries hash calls := by
  rw [SameEntries, lookups_one_buffer (fun k hk => absurd hk List.not_mem_nil) hcalls]
  intro p hp q hq hvalue
  obtain ⟨c, hc, rfl⟩ := List.mem_map.mp hp
  obtain ⟨d, hd, rfl⟩ := List.mem_map.mp hq
  rw [hhash c hc d hd hvalue]

end OneBuffer

/-! ### The store -/

section Store
variable {hash : List Byte → Word}

theorem tracks_init (hc : Hcreate) (size : Word) :
    Tracks [] (distinctInit (stackCreate hc size.toNat) size) where
  stored := fun format _ => distinctStored_init format hc size
  consistent := fun _ hp => absurd hp List.not_mem_nil

/-- The store lists every value it is given, and none twice. -/
def ListsEachOnce (hash : List Byte → Word) (s : DistinctState StackTable) (calls : List StackCall) :
    Prop :=
  ∃ s', stackRun hash s calls = some s' ∧ (distinctView s').Nodup ∧
    ∀ c ∈ calls, some c.value ∈ distinctView s'

/-- **Keys on the stack.** Whatever the hash of a string is, wherever the buffers are and
whatever is on the stack at each call, the store lists every value once exactly when equal
values are looked up in one entry and the values fit. -/
theorem lists_each_once_iff (hc : Hcreate) (hash : List Byte → Word) (size : Word)
    (calls : List StackCall) :
    ListsEachOnce hash (distinctInit (stackCreate hc size.toNat) size) calls ↔
      SameEntries hash calls ∧ (calls.map StackCall.value).eraseDups.length ≤ size.toNat := by
  have hrun := (tracks_init hc size).run_iff hash calls
  rw [List.map_nil, List.nil_append, List.nil_append] at hrun
  simp only [List.forall_mem_map] at hrun
  exact hrun

end Store

/-! ### The hash of `hsearch_r` -/

section Hash

/-- One turn of its loop, from the last character to the first. -/
def hashStep (b : Byte) (h : Word) : Word := (h <<< 4) + b.signExtend 32

/-- The loop, and `if (hval == 0) ++hval`. -/
def glibcHash (s : List Byte) : Word :=
  let hval := s.foldr hashStep (BitVec.ofNat 32 s.length)
  if hval = 0 then 1 else hval

theorem hashStep_modEq (b : Byte) {x y : Word} {n : Nat} (hn : n < 8) (h : x.toNat ≡ y.toNat [MOD 16 ^ n]) :
    (hashStep b x).toNat ≡ (hashStep b y).toNat [MOD 16 ^ (n + 1)] := by
  have hdvd : 16 ^ (n + 1) ∣ 2 ^ 32 := by
    rw [show (2 : Nat) ^ 32 = 16 ^ 8 from rfl]
    exact Nat.pow_dvd_pow 16 hn
  have hstep : ∀ z : Word, (hashStep b z).toNat ≡ z.toNat * 16 + (b.signExtend 32).toNat [MOD 16 ^ (n + 1)] := by
    intro z
    rw [hashStep, BitVec.toNat_add, BitVec.toNat_shiftLeft, Nat.shiftLeft_eq, Nat.mod_add_mod]
    exact (Nat.mod_modEq _ _).of_dvd hdvd
  refine (hstep x).trans (Nat.ModEq.trans ?_ (hstep y).symm)
  rw [pow_succ]
  exact (h.mul_right' 16).add_right _

/-- Eight turns forget what was there before. -/
theorem foldr_hashStep_eq {front : List Byte} (hfront : front.length = 8) (x y : Word) :
    front.foldr hashStep x = front.foldr hashStep y := by
  have hall : ∀ l : List Byte, l.length ≤ 8 →
      (l.foldr hashStep x).toNat ≡ (l.foldr hashStep y).toNat [MOD 16 ^ l.length] := by
    intro l
    induction l with
    | nil => exact fun _ => Nat.modEq_one
    | cons b rest ih =>
      intro hle
      rw [List.length_cons] at hle ⊢
      exact hashStep_modEq b (by omega) (ih (by omega))
  have hmod := hall front (by omega)
  rw [hfront] at hmod
  exact BitVec.eq_of_toNat_eq (hmod.eq_of_lt_of_lt (front.foldr hashStep x).isLt (front.foldr hashStep y).isLt)

/-- The hash does not see what is behind the eight bytes of a value. -/
theorem glibcHash_keyString {c d : StackCall} (h : c.value = d.value) :
    glibcHash c.keyString = glibcHash d.keyString := by
  by_cases hzero : (0 : Byte) ∈ image c.value
  · rw [keyString_of_zero hzero, keyString_of_zero (h ▸ hzero), h]
  · obtain ⟨more, hc⟩ := keyString_of_not_zero hzero
    obtain ⟨more', hd⟩ := keyString_of_not_zero (c := d) (h ▸ hzero)
    rw [← h] at hd
    have heq := foldr_hashStep_eq (length_image c.value) (more.foldr hashStep (BitVec.ofNat 32 c.keyString.length))
      (more'.foldr hashStep (BitVec.ofNat 32 d.keyString.length))
    unfold glibcHash
    rw [hc, hd] at heq ⊢
    simp only [List.foldr_append]
    rw [heq]

/-- With the hash of `hsearch_r` and one buffer the bytes behind it do not matter. -/
theorem sameEntries_of_glibcHash {calls : List StackCall} {address : Nat}
    (hcalls : ∀ c ∈ calls, c.key = address) : SameEntries glibcHash calls :=
  sameEntries_of_one_buffer glibcHash hcalls fun _ _ _ _ h => glibcHash_keyString h

end Hash

/-! ### Two calls -/

/-- The value 5 in a buffer at an address of 24 bytes of stack. -/
def fiveAt (key : Nat) (h : key + 8 < 24) : StackCall where
  value := 5
  stack := List.replicate 24 0
  key := key
  fits := h
  terminated := by simp

/-- A value without a zero byte, followed by the letter A. -/
def onesThenA : StackCall where
  value := 0x0101010101010101
  stack := List.replicate 8 0 ++ [0x41, 0] ++ List.replicate 16 0
  key := 0
  fits := by simp
  terminated := by simp

/-- The same value behind them, followed by the letter B. -/
def onesThenB : StackCall where
  value := 0x0101010101010101
  stack := List.replicate 8 1 ++ [0x41, 0] ++ List.replicate 14 0 ++ [0x42, 0]
  key := 16
  fits := by simp
  terminated := by simp

/-- A value is listed twice when its buffer is somewhere else and the first one has been
overwritten, and when other bytes are behind the second one. -/
theorem value_listed_twice :
    (stackRun glibcHash (distinctInit (stackCreate Hcreate.unbounded 2) 2)
        [fiveAt 0 (by decide), fiveAt 8 (by decide)]).map distinctView = some [some 5, some 5] ∧
    ¬ ListsEachOnce glibcHash (distinctInit (stackCreate Hcreate.unbounded 2) 2)
        [fiveAt 0 (by decide), fiveAt 8 (by decide)] ∧
    (stackRun glibcHash (distinctInit (stackCreate Hcreate.unbounded 2) 2)
        [onesThenA, onesThenB]).map distinctView =
      some [some 0x0101010101010101, some 0x0101010101010101] := by
  have hview : (stackRun glibcHash (distinctInit (stackCreate Hcreate.unbounded 2) 2)
      [fiveAt 0 (by decide), fiveAt 8 (by decide)]).map distinctView = some [some 5, some 5] := by decide
  refine ⟨hview, ?_, by decide⟩
  intro h
  obtain ⟨s, hrun, hnodup, _⟩ := h
  rw [hrun] at hview
  rw [Option.some.inj hview] at hnodup
  exact absurd hnodup (by decide)

end Cheetah.Host.AggregateProcessing
