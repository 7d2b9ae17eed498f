import Cheetah.Lib.Distinct
import Mathlib.Data.List.Range
import Mathlib.Data.Option.Basic

/-! A hash table whose entries head linked chains of heap nodes.

Nodes are allocated and never freed, so the heap lists them in the order of their
allocation and an address is an index. `Chain h p l` says that following `next`
from `p` visits the addresses `l` and ends. `ChainedTable` is the invariant of the
table: keys are distinct, the table has one entry a bin, and the chain under a bin
visits exactly the nodes whose key belongs to it, in order of allocation.

`search` is what a lookup finds; `insert`, `append` and `modify` are the three ways
a store changes the table. -/
namespace Cheetah.Lib

/-- The nodes allocated so far, in order. -/
abbrev Heap (ν : Type*) := List ν

/-- `malloc` followed by the initialization of the node. -/
def malloc {ν : Type*} (h : Heap ν) (x : ν) : Nat × Heap ν := (h.length, h ++ [x])

/-- A node type with a key and a link. -/
class ChainNode (ν : Type*) (K : outParam Type*) where
  key : ν → K
  next : ν → Option Nat
  setNext : ν → Option Nat → ν
  key_setNext : ∀ x p, key (setNext x p) = key x
  next_setNext : ∀ x p, next (setNext x p) = p

open ChainNode

/-! ### Positions -/

section Positions
variable {κ : Type*} [DecidableEq κ]

/-- The indices at which `b` occurs. -/
def positions (bs : List κ) (b : κ) : List Nat :=
  (List.range bs.length).filter fun a => bs[a]? = some b

theorem mem_positions {bs : List κ} {b : κ} {a : Nat} : a ∈ positions bs b ↔ bs[a]? = some b := by
  simp only [positions, List.mem_filter, List.mem_range, decide_eq_true_eq, and_iff_right_iff_imp]
  intro h
  exact (List.getElem?_eq_some_iff.mp h).1

theorem positions_nodup (bs : List κ) (b : κ) : (positions bs b).Nodup :=
  List.nodup_range.filter _

theorem positions_length_le (bs : List κ) (b : κ) : (positions bs b).length ≤ bs.length := by
  simpa [positions] using List.length_filter_le (fun a => decide (bs[a]? = some b)) (List.range bs.length)

theorem positions_concat (bs : List κ) (c b : κ) :
    positions (bs ++ [c]) b = positions bs b ++ if c = b then [bs.length] else [] := by
  have hold : (List.range bs.length).filter (fun a => (bs ++ [c])[a]? = some b) = positions bs b := by
    apply List.filter_congr
    intro a ha
    rw [List.getElem?_append_left (List.mem_range.mp ha)]
  rw [positions, List.length_append, List.length_singleton, List.range_succ, List.filter_append, hold]
  congr 1
  by_cases h : c = b
  · simp [h]
  · simp [h]

theorem positions_eq_nil {bs : List κ} {b : κ} : positions bs b = [] ↔ b ∉ bs := by
  rw [List.eq_nil_iff_forall_not_mem]
  constructor
  · intro h hb
    obtain ⟨a, ha⟩ := List.mem_iff_getElem?.mp hb
    exact h a (mem_positions.mpr ha)
  · intro h a ha
    exact h (List.mem_of_getElem? (mem_positions.mp ha))

/-- Without repetitions there is one index. -/
theorem positions_of_nodup {bs : List κ} (hnodup : bs.Nodup) {a : Nat} {b : κ} (ha : bs[a]? = some b) :
    positions bs b = [a] := by
  rw [← List.perm_singleton, List.perm_ext_iff_of_nodup (positions_nodup bs b) (List.nodup_singleton a)]
  intro i
  rw [mem_positions, List.mem_singleton]
  constructor
  · intro hi
    exact (List.getElem?_inj (List.getElem?_eq_some_iff.mp hi).1 hnodup).mp (hi.trans ha.symm)
  · intro hi
    rw [hi, ha]

end Positions

/-! ### Chains -/

section Chain
variable {ν K : Type*} [ChainNode ν K]

/-- Following `next` from `p` visits `l` and ends. -/
def Chain (h : Heap ν) : Option Nat → List Nat → Prop
  | p, [] => p = none
  | p, a :: rest => p = some a ∧ ∃ x, h[a]? = some x ∧ Chain h (next x) rest

/-- A chain depends on the links of its own nodes only. -/
theorem Chain.congr {h h' : Heap ν} {p : Option Nat} {l : List Nat} (hc : Chain h p l)
    (heq : ∀ a ∈ l, (h'[a]?).map next = (h[a]?).map next) : Chain h' p l := by
  induction l generalizing p with
  | nil => exact hc
  | cons a rest ih =>
    obtain ⟨hp, x, hx, hrest⟩ := hc
    have ha := heq a (List.mem_cons_self ..)
    rw [hx, Option.map_some, Option.map_eq_some_iff] at ha
    obtain ⟨x', hx', hnext⟩ := ha
    refine ⟨hp, x', hx', ?_⟩
    rw [hnext]
    exact ih hrest fun b hb => heq b (List.mem_cons_of_mem a hb)

theorem Chain.mem_lt {h : Heap ν} {p : Option Nat} {l : List Nat} (hc : Chain h p l) {a : Nat}
    (ha : a ∈ l) : a < h.length := by
  induction l generalizing p with
  | nil => cases ha
  | cons b rest ih =>
    obtain ⟨_, x, hx, hrest⟩ := hc
    rcases List.mem_cons.mp ha with rfl | ha
    · exact (List.getElem?_eq_some_iff.mp hx).1
    · exact ih hrest ha

theorem Chain.head {h : Heap ν} {p : Option Nat} {l : List Nat} (hc : Chain h p l) :
    p = l.head? := by
  cases l with
  | nil => exact hc
  | cons a rest => exact hc.1

/-- A fresh node linked behind the last one extends the chain. -/
theorem Chain.concat {h : Heap ν} {p : Option Nat} {l : List Nat} {last : Nat} {y x : ν}
    (hc : Chain h p l) (hnodup : l.Nodup) (hlast : l.getLast? = some last) (hy : h[last]? = some y)
    (hx : next x = none) :
    Chain ((h ++ [x]).set last (setNext y (some h.length))) p (l ++ [h.length]) := by
  have hlt : last < h.length := (List.getElem?_eq_some_iff.mp hy).1
  induction l generalizing p with
  | nil => cases hlast
  | cons a rest ih =>
    obtain ⟨hp, z, hz, hrest⟩ := hc
    cases rest with
    | nil =>
      obtain rfl : a = last := by simpa using hlast
      refine ⟨hp, setNext y (some h.length), ?_, ?_⟩
      · rw [List.getElem?_set_self (by simp; omega)]
      · refine ⟨next_setNext _ _, x, ?_, hx⟩
        rw [List.getElem?_set_ne (by omega), List.getElem?_concat_length]
    | cons b rest =>
      have hne : last ≠ a := by
        intro heq
        obtain rfl := heq
        have hmem : last ∈ b :: rest := List.mem_of_getLast? (by simpa using hlast)
        exact (List.nodup_cons.mp hnodup).1 hmem
      refine ⟨hp, z, ?_, ih hrest (List.nodup_cons.mp hnodup).2 (by simpa using hlast)⟩
      rw [List.getElem?_set_ne hne, List.getElem?_append_left (List.getElem?_eq_some_iff.mp hz).1, hz]

/-- The last node of a chain has no link. -/
theorem Chain.next_last {h : Heap ν} {p : Option Nat} {l : List Nat} (hc : Chain h p l) {last : Nat}
    (hlast : l.getLast? = some last) {x : ν} (hx : h[last]? = some x) : next x = none := by
  induction l generalizing p with
  | nil => cases hlast
  | cons a rest ih =>
    obtain ⟨_, y, hy, hrest⟩ := hc
    cases rest with
    | nil =>
      obtain rfl : a = last := by simpa using hlast
      rw [hx] at hy
      rw [Option.some.inj hy]
      exact hrest
    | cons b rest => exact ih hrest (by simpa using hlast)

/-- A link leads to a node of the chain. -/
theorem Chain.next_mem {h : Heap ν} {p : Option Nat} {l : List Nat} (hc : Chain h p l) {a c : Nat} {x : ν}
    (ha : a ∈ l) (hx : h[a]? = some x) (hnext : next x = some c) : c ∈ l := by
  induction l generalizing p with
  | nil => cases ha
  | cons b rest ih =>
    obtain ⟨_, y, hy, hrest⟩ := hc
    rcases List.mem_cons.mp ha with rfl | ha
    · rw [hx] at hy
      rw [← Option.some.inj hy] at hrest
      exact List.mem_cons_of_mem _ (List.mem_of_head? (hrest.head.symm.trans hnext))
    · exact List.mem_cons_of_mem _ (ih hrest ha)

/-- Where no node has a link a chain has one node at most. -/
theorem Chain.eq_of_mem {h : Heap ν} {p : Option Nat} {l : List Nat} (hc : Chain h p l)
    (hend : ∀ x ∈ h, next x = none) {i j : Nat} (hi : i ∈ l) (hj : j ∈ l) : i = j := by
  cases l with
  | nil => cases hi
  | cons a rest =>
    obtain ⟨_, x, hx, hrest⟩ := hc
    rw [hend x (List.mem_of_getElem? hx)] at hrest
    cases rest with
    | nil => rw [List.mem_singleton.mp hi, List.mem_singleton.mp hj]
    | cons b rest => cases hrest.1

/-- `while (bin && bin->key != key) { bin_prev = bin; bin = bin->next; }`, giving
`bin` and `bin_prev`. No result when the fuel runs out or a pointer is wild. -/
def walk [DecidableEq K] (k : K) (h : Heap ν) :
    Nat → Option Nat → Option Nat → Option (Option Nat × Option Nat)
  | 0, _, _ => none
  | _ + 1, none, prev => some (none, prev)
  | fuel + 1, some a, prev =>
    match h[a]? with
    | none => none
    | some x => if key x = k then some (some a, prev) else walk k h fuel (next x) (some a)

/-- On a chain the walk ends: at the node with the key, or past the last node. -/
theorem walk_chain [DecidableEq K] (k : K) {h : Heap ν} {fuel : Nat} {p prev : Option Nat}
    {l : List Nat} (hc : Chain h p l) (hfuel : l.length < fuel) :
    (∃ a x prev', walk k h fuel p prev = some (some a, prev') ∧ a ∈ l ∧ h[a]? = some x ∧ key x = k) ∨
      (walk k h fuel p prev = some (none, l.getLast?.or prev) ∧
        ∀ a ∈ l, ∀ x, h[a]? = some x → key x ≠ k) := by
  induction l generalizing p prev fuel with
  | nil =>
    obtain ⟨fuel, rfl⟩ := Nat.exists_eq_add_one.mpr hfuel
    rw [show p = none from hc]
    exact .inr ⟨rfl, by simp⟩
  | cons a rest ih =>
    obtain ⟨rfl, x, hx, hrest⟩ := hc
    obtain ⟨fuel, rfl⟩ : ∃ n, fuel = n + 1 := Nat.exists_eq_add_one.mpr (by omega)
    have hstep : walk k h (fuel + 1) (some a) prev =
        if key x = k then some (some a, prev) else walk k h fuel (next x) (some a) := by
      simp only [walk, hx]
    by_cases hk : key x = k
    · rw [hstep, if_pos hk]
      exact .inl ⟨a, x, prev, rfl, List.mem_cons_self .., hx, hk⟩
    · rw [hstep, if_neg hk]
      rcases @ih fuel (next x) (some a) hrest (by simpa using hfuel) with
        ⟨b, y, prev', hw, hb, hy, hyk⟩ | ⟨hw, hmiss⟩
      · exact .inl ⟨b, y, prev', hw, List.mem_cons_of_mem a hb, hy, hyk⟩
      · refine .inr ⟨?_, fun b hb y hy => ?_⟩
        · rw [hw, List.getLast?_cons]
          cases rest.getLast? <;> rfl
        · rcases List.mem_cons.mp hb with rfl | hb
          · rw [hx] at hy
            rwa [← Option.some.inj hy]
          · exact hmiss b hb y hy

/-- The nodes on the way from `p` to the end. -/
def readChain (h : Heap ν) : Nat → Option Nat → Option (List ν)
  | 0, _ => none
  | _ + 1, none => some []
  | fuel + 1, some a => do
    let x ← h[a]?
    let rest ← readChain h fuel (next x)
    some (x :: rest)

theorem Chain.read {h : Heap ν} {fuel : Nat} {p : Option Nat} {l : List Nat} (hc : Chain h p l)
    (hfuel : l.length < fuel) : readChain h fuel p = some (l.filterMap (h[·]?)) := by
  induction l generalizing p fuel with
  | nil =>
    obtain ⟨fuel, rfl⟩ := Nat.exists_eq_add_one.mpr hfuel
    rw [show p = none from hc]
    rfl
  | cons a rest ih =>
    obtain ⟨rfl, x, hx, hrest⟩ := hc
    obtain ⟨fuel, rfl⟩ : ∃ n, fuel = n + 1 := Nat.exists_eq_add_one.mpr (by omega)
    simp [readChain, hx, ih hrest (by simpa using hfuel)]

end Chain

/-! ### The table -/

/-- Overwriting an element changes nothing that reads the same from both. -/
theorem map_set_of_eq {α β : Type*} (f : α → β) {l : List α} {a : Nat} {y y' : α}
    (hy : l[a]? = some y) (hf : f y' = f y) : (l.set a y').map f = l.map f := by
  apply List.ext_getElem?
  intro i
  rw [List.getElem?_map, List.getElem?_map, List.getElem?_set]
  split
  · rename_i h
    subst h
    rw [hy, if_pos (List.getElem?_eq_some_iff.mp hy).1, Option.map_some, Option.map_some, hf]
  · rfl

/-- Looking up the keys of a table without repetitions gives its data in order. -/
theorem map_lookup_keys {κ α : Type*} [DecidableEq κ] {entries : List (κ × α)}
    (h : (entries.map Prod.fst).Nodup) :
    (entries.map Prod.fst).map (fun b => entries.lookup b) = entries.map fun e => some e.2 := by
  induction entries with
  | nil => rfl
  | cons e rest ih =>
    obtain ⟨hnot, hrest⟩ := List.nodup_cons.mp h
    have htail : (rest.map Prod.fst).map (fun b => (e :: rest).lookup b) =
        (rest.map Prod.fst).map (fun b => rest.lookup b) := by
      refine List.map_congr_left fun k hk => ?_
      have hne : (k == e.1) = false := beq_eq_false_iff_ne.mpr (ne_of_mem_of_not_mem hk hnot)
      rw [List.lookup_cons, hne]
    rw [List.map_cons, List.map_cons, List.map_cons, htail, ih hrest, List.lookup_cons_self]

section Table
variable {ν K κ : Type*} [ChainNode ν K] [DecidableEq κ] (bin : K → κ)

/-- The bin of each node, in order of allocation. -/
def binsOf (h : Heap ν) : List κ := h.map fun x => bin (key x)

omit [DecidableEq κ] in
theorem mem_binsOf {h : Heap ν} {b : κ} : b ∈ binsOf bin h ↔ ∃ x ∈ h, bin (key x) = b := List.mem_map

omit [DecidableEq κ] in
theorem getElem?_binsOf {h : Heap ν} {a : Nat} {x : ν} (hx : h[a]? = some x) :
    (binsOf bin h)[a]? = some (bin (key x)) := by
  rw [binsOf, List.getElem?_map, hx, Option.map_some]

/-- The fuel of a walk is enough for any chain. -/
theorem positions_binsOf_lt (h : Heap ν) (b : κ) : (positions (binsOf bin h) b).length < h.length + 1 := by
  have hle := positions_length_le (binsOf bin h) b
  rw [binsOf, List.length_map] at hle
  exact Nat.lt_succ_of_le hle

/-- The nodes at the positions of a bin are the nodes whose key belongs to it. -/
theorem filterMap_positions (h : Heap ν) (b : κ) :
    (positions (binsOf bin h) b).filterMap (h[·]?) = h.filter fun x => bin (key x) = b := by
  induction h using List.reverseRecOn with
  | nil => rfl
  | append_singleton h x ih =>
    have hold : (positions (binsOf bin h) b).filterMap ((h ++ [x])[·]?) =
        (positions (binsOf bin h) b).filterMap (h[·]?) := by
      apply List.filterMap_congr
      intro a ha
      have hlt := (List.getElem?_eq_some_iff.mp (mem_positions.mp ha)).1
      rw [binsOf, List.length_map] at hlt
      rw [List.getElem?_append_left hlt]
    have hbins : binsOf bin (h ++ [x]) = binsOf bin h ++ [bin (key x)] := by simp [binsOf]
    rw [hbins, positions_concat, List.filterMap_append, hold, ih, List.filter_append]
    by_cases hb : bin (key x) = b
    · simp [hb, binsOf]
    · simp [hb]

structure ChainedTable (h : Heap ν) (entries : List (κ × Nat)) : Prop where
  keys : (h.map key).Nodup
  /-- One entry a bin, in order of first use. -/
  bins : entries.map Prod.fst = (binsOf bin h).eraseDups
  chains : ∀ b, Chain h (entries.lookup b) (positions (binsOf bin h) b)

namespace ChainedTable
variable {bin} {h : Heap ν} {entries : List (κ × Nat)}

theorem nil : ChainedTable bin ([] : Heap ν) [] := ⟨List.nodup_nil, rfl, fun _ => rfl⟩

/-- Nodes with one key are one node. -/
theorem key_inj (hw : ChainedTable bin h entries) {i j : Nat} {x y : ν} (hx : h[i]? = some x)
    (hy : h[j]? = some y) (hk : key x = key y) : i = j := by
  have hlt : i < (h.map key).length := by
    rw [List.length_map]
    exact (List.getElem?_eq_some_iff.mp hx).1
  refine (List.getElem?_inj hlt hw.keys).mp ?_
  rw [List.getElem?_map, List.getElem?_map, hx, hy, Option.map_some, Option.map_some, hk]

theorem eq_of_key (hw : ChainedTable bin h entries) {x y : ν} (hx : x ∈ h) (hy : y ∈ h)
    (hk : key x = key y) : x = y := by
  obtain ⟨i, hi⟩ := List.mem_iff_getElem?.mp hx
  obtain ⟨j, hj⟩ := List.mem_iff_getElem?.mp hy
  rw [hw.key_inj hi hj hk, hj] at hi
  exact (Option.some.inj hi).symm

/-- Overwriting a node leaves no other node with its key. -/
theorem eq_or_key_ne_of_mem_set (hw : ChainedTable bin h entries) {a : Nat} {x y y' : ν}
    (hy : h[a]? = some y) (hx : x ∈ h.set a y') : x = y' ∨ x ∈ h ∧ key x ≠ key y := by
  obtain ⟨i, hi⟩ := List.mem_iff_getElem?.mp hx
  by_cases hia : i = a
  · rw [hia, List.getElem?_set_self (List.getElem?_eq_some_iff.mp hy).1] at hi
    exact .inl (Option.some.inj hi).symm
  · rw [List.getElem?_set_ne (Ne.symm hia)] at hi
    exact .inr ⟨List.mem_of_getElem? hi, fun hk => hia (hw.key_inj hi hy hk)⟩

theorem lookup_eq_none_iff (hw : ChainedTable bin h entries) (k : K) :
    entries.lookup (bin k) = none ↔ ∀ x ∈ h, bin (key x) ≠ bin k := by
  rw [(hw.chains (bin k)).head, List.head?_eq_none_iff, positions_eq_nil, mem_binsOf]
  push Not
  rfl

/-- What a lookup finds under an entry: the node with the key, or the last node of a
chain without it. -/
theorem search [DecidableEq K] (hw : ChainedTable bin h entries) {k : K} {head : Nat}
    (hfind : entries.lookup (bin k) = some head) :
    (∃ a x prev, walk k h (h.length + 1) (some head) none = some (some a, prev) ∧
        h[a]? = some x ∧ key x = k) ∨
      (∃ last y, walk k h (h.length + 1) (some head) none = some (none, some last) ∧
        (positions (binsOf bin h) (bin k)).getLast? = some last ∧ h[last]? = some y ∧
        next y = none ∧ ∀ x ∈ h, key x ≠ k) := by
  have hc := hw.chains (bin k)
  rw [hfind] at hc
  have hwalk := @walk_chain _ _ _ _ k h (h.length + 1) (some head) none _ hc (positions_binsOf_lt bin h (bin k))
  rw [Option.or_none] at hwalk
  rcases hwalk with ⟨a, x, prev, hwalk, _, hx, hk⟩ | ⟨hwalk, hmiss⟩
  · exact .inl ⟨a, x, prev, hwalk, hx, hk⟩
  · right
    -- the chain has a first node, so it has a last one
    have hne : positions (binsOf bin h) (bin k) ≠ [] := by
      intro hnil
      rw [hnil] at hc
      cases hc
    obtain ⟨last, hlast⟩ : ∃ last, (positions (binsOf bin h) (bin k)).getLast? = some last :=
      ⟨_, List.getLast?_eq_some_getLast hne⟩
    have hlt : last < h.length := hc.mem_lt (List.mem_of_getLast? hlast)
    have hy : h[last]? = some h[last] := List.getElem?_eq_getElem hlt
    refine ⟨last, h[last], ?_, hlast, hy, hc.next_last hlast hy, ?_⟩
    · rw [hwalk, hlast]
    · intro x hx hk
      obtain ⟨i, hi⟩ := List.mem_iff_getElem?.mp hx
      have hpos : i ∈ positions (binsOf bin h) (bin k) := by
        rw [mem_positions, getElem?_binsOf bin hi, hk]
      exact hmiss i hpos x hi hk

/-- There are no more bins than nodes. -/
theorem entries_length_le (hw : ChainedTable bin h entries) : entries.length ≤ h.length := by
  have hle := length_eraseDups_le (binsOf bin h)
  rwa [← hw.bins, List.length_map, binsOf, List.length_map] at hle

/-- Reading a chain from its head gives the nodes of the bin. -/
theorem readChain_eq (hw : ChainedTable bin h entries) (b : κ) :
    readChain h (h.length + 1) (entries.lookup b) = some (h.filter fun x => bin (key x) = b) := by
  rw [(hw.chains b).read (positions_binsOf_lt bin h b), filterMap_positions]

/-- The data of the entries are the heads of the chains, in order of first use. -/
theorem heads (hw : ChainedTable bin h entries) :
    (binsOf bin h).eraseDups.map (fun b => entries.lookup b) = (entries.map Prod.snd).map some := by
  rw [← hw.bins, map_lookup_keys (by rw [hw.bins]; exact nodup_eraseDups _), List.map_map]
  rfl

/-- A link leads to a node. -/
theorem next_lt (hw : ChainedTable bin h entries) {a c : Nat} {x : ν} (hx : h[a]? = some x)
    (hnext : next x = some c) : c < h.length := by
  have hc := hw.chains (bin (key x))
  exact hc.mem_lt (hc.next_mem (mem_positions.mpr (getElem?_binsOf bin hx)) hx hnext)

/-- No two nodes share a bin exactly when no node has a link. -/
theorem nodup_bins_iff (hw : ChainedTable bin h entries) :
    (binsOf bin h).Nodup ↔ ∀ x ∈ h, next x = none := by
  constructor
  · intro hnodup x hx
    obtain ⟨a, ha⟩ := List.mem_iff_getElem?.mp hx
    have hc := hw.chains (bin (key x))
    rw [positions_of_nodup hnodup (getElem?_binsOf bin ha)] at hc
    exact hc.next_last rfl ha
  · intro hend
    rw [List.nodup_iff_getElem?_ne_getElem?]
    intro i j hij hj heq
    have hbin : (binsOf bin h)[j]? = some (binsOf bin h)[j] := List.getElem?_eq_getElem hj
    have hi := mem_positions.mpr (heq.trans hbin)
    rw [(hw.chains _).eq_of_mem hend hi (mem_positions.mpr hbin)] at hij
    exact Nat.lt_irrefl _ hij

/-- Then the heads of the chains are the nodes in order. -/
theorem heads_eq_range (hw : ChainedTable bin h entries) (hnodup : (binsOf bin h).Nodup) :
    entries.map Prod.snd = List.range h.length := by
  have hheads := hw.heads
  rw [eraseDups_of_nodup hnodup] at hheads
  refine List.map_injective_iff.mpr (Option.some_injective _) (hheads.symm.trans ?_)
  apply List.ext_getElem?
  intro i
  rw [List.getElem?_map, List.getElem?_map]
  cases hx : h[i]? with
  | none =>
    have hlen : h.length ≤ i := List.getElem?_eq_none_iff.mp hx
    rw [List.getElem?_eq_none (by rw [binsOf, List.length_map]; exact hlen),
      List.getElem?_eq_none (by rw [List.length_range]; exact hlen)]
    rfl
  | some x =>
    have hlt : i < h.length := (List.getElem?_eq_some_iff.mp hx).1
    have hhead := (hw.chains (bin (key x))).head
    rw [positions_of_nodup hnodup (getElem?_binsOf bin hx)] at hhead
    rw [getElem?_binsOf bin hx, List.getElem?_range hlt, Option.map_some, Option.map_some, hhead]
    rfl

/-- A node of a new bin: its own chain, entered under its own bin. -/
theorem insert (hw : ChainedTable bin h entries) {x : ν}
    (hfind : entries.lookup (bin (key x)) = none) (hx : next x = none) :
    ChainedTable bin (h ++ [x]) (entries ++ [(bin (key x), h.length)]) := by
  have hnew := (hw.lookup_eq_none_iff (key x)).mp hfind
  have hbins : binsOf bin (h ++ [x]) = binsOf bin h ++ [bin (key x)] := by simp [binsOf]
  have hnot : bin (key x) ∉ binsOf bin h := by
    rw [mem_binsOf]
    intro hsome
    obtain ⟨y, hy, hb⟩ := hsome
    exact hnew y hy hb
  refine ⟨?_, ?_, ?_⟩
  · rw [List.map_append, List.map_singleton, ← List.concat_eq_append, List.nodup_concat]
    refine ⟨fun hkey => ?_, hw.keys⟩
    obtain ⟨y, hy, hk⟩ := List.mem_map.mp hkey
    exact hnew y hy (congrArg bin hk)
  · rw [hbins, eraseDups_concat_of_not_mem hnot, List.map_append, hw.bins]
    rfl
  · intro b
    rw [hbins, positions_concat, List.lookup_append]
    by_cases hb : bin (key x) = b
    · subst hb
      rw [hfind, positions_eq_nil.mpr hnot]
      simp [Chain, binsOf, hx]
    · have hlookup : List.lookup b [(bin (key x), h.length)] = none := by
        simp [Ne.symm hb]
      rw [hlookup, Option.or_none, if_neg hb, List.append_nil]
      refine (hw.chains b).congr fun a ha => ?_
      rw [List.getElem?_append_left ((hw.chains b).mem_lt ha)]

/-- A node of a bin in use: linked behind the last node of its chain. -/
theorem append (hw : ChainedTable bin h entries) {x y : ν} {last : Nat}
    (hlast : (positions (binsOf bin h) (bin (key x))).getLast? = some last) (hy : h[last]? = some y)
    (hkey : ∀ z ∈ h, key z ≠ key x) (hx : next x = none) :
    ChainedTable bin ((h ++ [x]).set last (setNext y (some h.length))) entries := by
  have hlt : last < h.length := (List.getElem?_eq_some_iff.mp hy).1
  have hy' : (h ++ [x])[last]? = some y := by rw [List.getElem?_append_left hlt, hy]
  have hkeys : ((h ++ [x]).set last (setNext y (some h.length))).map key = h.map key ++ [key x] := by
    rw [map_set_of_eq key hy' (key_setNext y _), List.map_append, List.map_singleton]
  have hbins : binsOf bin ((h ++ [x]).set last (setNext y (some h.length))) =
      binsOf bin h ++ [bin (key x)] := by
    have := congrArg (List.map bin) hkeys
    simpa [binsOf, List.map_map, Function.comp_def] using this
  have hmem : last ∈ positions (binsOf bin h) (bin (key x)) := List.mem_of_getLast? hlast
  refine ⟨?_, ?_, ?_⟩
  · rw [hkeys, ← List.concat_eq_append, List.nodup_concat]
    refine ⟨fun hold => ?_, hw.keys⟩
    obtain ⟨z, hz, hk⟩ := List.mem_map.mp hold
    exact hkey z hz hk
  · have hin : bin (key x) ∈ binsOf bin h := List.mem_of_getElem? (mem_positions.mp hmem)
    rw [hbins, eraseDups_concat_of_mem hin, hw.bins]
  · intro b
    rw [hbins, positions_concat]
    by_cases hb : bin (key x) = b
    · subst hb
      rw [if_pos rfl, show (binsOf bin h).length = h.length from List.length_map ..]
      exact (hw.chains _).concat (positions_nodup _ _) hlast hy hx
    · rw [if_neg hb, List.append_nil]
      refine (hw.chains b).congr fun a ha => ?_
      have hne : last ≠ a := by
        intro heq
        obtain rfl := heq
        rw [mem_positions] at ha hmem
        exact hb (Option.some.inj (hmem.symm.trans ha))
      rw [List.getElem?_set_ne hne, List.getElem?_append_left ((hw.chains b).mem_lt ha)]

/-- A node changed in place, with its key and its link as they were. -/
theorem modify (hw : ChainedTable bin h entries) {a : Nat} {y y' : ν} (hy : h[a]? = some y)
    (hkey : key y' = key y) (hnext : next y' = next y) : ChainedTable bin (h.set a y') entries := by
  have hkeys : (h.set a y').map key = h.map key := map_set_of_eq key hy hkey
  have hbins : binsOf bin (h.set a y') = binsOf bin h :=
    map_set_of_eq (fun x => bin (key x)) hy (congrArg bin hkey)
  refine ⟨by rw [hkeys]; exact hw.keys, by rw [hbins]; exact hw.bins, fun b => ?_⟩
  rw [hbins]
  refine (hw.chains b).congr fun i _ => ?_
  have hmap := congrArg (·[i]?) (map_set_of_eq next hy hnext)
  simpa only [List.getElem?_map] using hmap

end ChainedTable
end Table
end Cheetah.Lib
