import Cheetah.Host.JoinOutput
import Cheetah.Lib.Buffer
import Mathlib.Data.Option.Basic
import Mathlib.Algebra.Order.Ring.Nat

/-! The hash join of `cheetah_join.c`.

A bin holds the rows of one key in an array that doubles when it is full. A secondary
call that finds a bin writes one entry for each of its rows. Its assertions are compiled
in, so a call that fails one has no result. `JoinStored` says that the bins hold the
rows of `held` and the entries are those of `produced`. -/
namespace Cheetah.Host.Join
open Lib

/-- `struct hash_bin`; the counters are 64-bit and count rows in memory. -/
structure HashBin where
  key : Word
  rowIds : Buffer Word
  rowIdCount : Nat
  rowIdCap : Nat
  next : Option Nat
  deriving DecidableEq, Repr

instance : ChainNode HashBin Word where
  key := HashBin.key
  next := HashBin.next
  setNext := fun b p => {b with next := p}
  key_setNext := fun _ _ => rfl
  next_setNext := fun _ _ => rfl

/-- `struct cheetah_join_state`, with the bins its table leads to. -/
structure JoinState (τ : Type) where
  entries : Buffer JoinEntry
  size : Nat
  currentEntries : Nat
  htab : τ
  heap : Heap HashBin

section Update
variable {τ κ : Type}

/-- `cheetah_join_init`, given the table `hcreate_r` makes. -/
def joinInit (htab : τ) (size : Nat) : Option (JoinState τ) :=
  if 0 < size then some ⟨Buffer.malloc size, size, 0, htab, []⟩ else none

/-- A bin made for its first row. -/
def HashBin.create (key rowId : Word) : Option HashBin := do
  let rowIds ← (Buffer.malloc 1024).write 0 rowId
  some ⟨key, rowIds, 1, 1024, none⟩

/-- A full bin moves its rows to a new array of twice the size. -/
def HashBin.reserve (b : HashBin) : Option HashBin :=
  if b.rowIdCap = b.rowIdCount then do
    let nextSize := 2 * b.rowIdCap
    let temp ← (Buffer.malloc nextSize).memcpy b.rowIds b.rowIdCap
    some {b with rowIds := temp, rowIdCap := nextSize}
  else some b

/-- A row appended to a bin. -/
def HashBin.append (b : HashBin) (rowId : Word) : Option HashBin := do
  let b ← b.reserve
  let rowIds ← b.rowIds.write b.rowIdCount rowId
  some {b with rowIds := rowIds, rowIdCount := b.rowIdCount + 1}

/-- The loop that writes an entry for each row of a bin, from row `i` on. -/
def writeEntries (b : HashBin) (rowId : Word) : Nat → Nat → JoinState τ → Option (JoinState τ)
  | 0, _, state => some state
  | left + 1, i, state =>
    if state.currentEntries < state.size then do
      let row ← b.rowIds.read i
      let entries ← state.entries.write state.currentEntries ⟨row, rowId⟩
      writeEntries b rowId left (i + 1)
        {state with entries := entries, currentEntries := state.currentEntries + 1}
    else none

/-- `cheetah_join_update`; `formattedKey` is the string `hsearch_r` is given. -/
def joinUpdate (H : Hsearch τ κ) (formattedKey : κ) (state : JoinState τ) (c : Call) :
    Option (JoinState τ) :=
  match H.find state.htab formattedKey with
  | some head => do
    let (bin, binPrev) ← walk c.key state.heap (state.heap.length + 1) (some head) none
    match bin with
    | none =>
      if c.tbl = .primary then do
        let prev ← binPrev
        let last ← state.heap[prev]?
        if last.next = none then do
          let b ← HashBin.create c.key c.rowId
          let (node, heap) := malloc state.heap b
          some {state with heap := heap.set prev {last with next := some node}}
        else none
      else some state
    | some bin => do
      let b ← state.heap[bin]?
      if c.tbl = .primary then do
        let b ← b.append c.rowId
        some {state with heap := state.heap.set bin b}
      else writeEntries b c.rowId b.rowIdCount 0 state
  | none => do
    let b ← HashBin.create c.key c.rowId
    let (node, heap) := malloc state.heap b
    let htab ← H.enter state.htab formattedKey node
    some {state with heap := heap, htab := htab}

/-- A sequence of updates; `format` is the string of a key. -/
def joinRun (H : Hsearch τ κ) (format : Word → κ) (state : JoinState τ) :
    List Call → Option (JoinState τ)
  | [] => some state
  | c :: rest => do
    let state ← joinUpdate H (format c.key) state c
    joinRun H format state rest

/-- `entries[0 .. current_entries)`. -/
def joinView (state : JoinState τ) : List (Option JoinEntry) :=
  (List.range state.currentEntries).map state.entries.read

end Update

/-! ### Bins -/

/-- A bin that holds `rows`: its array has the capacity it says, a power of two times
1024, and starts with the rows. -/
structure BinHolds (rows : List Word) (b : HashBin) : Prop where
  holds : b.rowIds.Holds rows
  count : b.rowIdCount = rows.length
  length : b.rowIds.length = b.rowIdCap
  cap : ∃ m, b.rowIdCap = 1024 * 2 ^ m

theorem create_eq (key rowId : Word) :
    ∃ b, HashBin.create key rowId = some b ∧ b.key = key ∧ b.next = none ∧ BinHolds [rowId] b := by
  have hfree : ([] : List Word).length < (Buffer.malloc 1024 : Buffer Word).length := by
    rw [Buffer.malloc, List.length_replicate]
    decide
  obtain ⟨rowIds, hwrite, hholds, hlen⟩ := (Buffer.holds_nil (Buffer.malloc 1024)).write_end hfree rowId
  refine ⟨⟨key, rowIds, 1, 1024, none⟩, ?_, rfl, rfl, hholds, rfl, ?_, 0, rfl⟩
  · rw [List.length_nil] at hwrite
    simp [HashBin.create, hwrite]
  · rw [hlen, Buffer.malloc, List.length_replicate]

theorem BinHolds.length_le {rows : List Word} {b : HashBin} (h : BinHolds rows b) :
    rows.length ≤ b.rowIdCap := by
  rw [← h.length]
  exact h.holds.length_le

theorem reserve_eq {rows : List Word} {b : HashBin} (h : BinHolds rows b) :
    ∃ b', b.reserve = some b' ∧ b'.key = b.key ∧ b'.next = b.next ∧ BinHolds rows b' ∧
      rows.length < b'.rowIdCap := by
  by_cases hfull : b.rowIdCap = b.rowIdCount
  · obtain ⟨m, hcap⟩ := h.cap
    have hpos : 0 < b.rowIdCap := by
      rw [hcap]
      exact Nat.mul_pos (by decide) (Nat.two_pow_pos m)
    have hnew : (Buffer.malloc (2 * b.rowIdCap) : Buffer Word).length = 2 * b.rowIdCap :=
      List.length_replicate
    obtain ⟨temp, hcopy, hholds, hlen⟩ := h.holds.memcpy (Buffer.malloc (2 * b.rowIdCap))
      h.length_le (by rw [hnew]; omega) (Nat.le_of_eq h.length.symm)
    refine ⟨{b with rowIds := temp, rowIdCap := 2 * b.rowIdCap}, ?_, rfl, rfl, ?_, ?_⟩
    · rw [HashBin.reserve, if_pos hfull]
      simp only [hcopy, Option.bind_eq_bind, Option.bind_some]
    · refine ⟨hholds, h.count, hlen.trans hnew, m + 1, ?_⟩
      show 2 * b.rowIdCap = 1024 * 2 ^ (m + 1)
      rw [hcap, Nat.pow_succ]
      omega
    · have hle := h.length_le
      show rows.length < 2 * b.rowIdCap
      omega
  · refine ⟨b, if_neg hfull, rfl, rfl, h, ?_⟩
    have hle := h.length_le
    rw [h.count] at hfull
    omega

theorem append_eq {rows : List Word} {b : HashBin} (h : BinHolds rows b) (rowId : Word) :
    ∃ b', b.append rowId = some b' ∧ b'.key = b.key ∧ b'.next = b.next ∧ BinHolds (rows ++ [rowId]) b' := by
  obtain ⟨b', hreserve, hkey, hnext, h', hlt⟩ := reserve_eq h
  obtain ⟨rowIds, hwrite, hholds, hlen⟩ := h'.holds.write_end (by rw [h'.length]; exact hlt) rowId
  rw [← h'.count] at hwrite
  refine ⟨{b' with rowIds := rowIds, rowIdCount := b'.rowIdCount + 1}, ?_, hkey, hnext, ?_⟩
  · simp [HashBin.append, hreserve, hwrite]
  · exact ⟨hholds, by simp [h'.count], hlen.trans h'.length, h'.cap⟩

/-! ### Entries -/

section Entries
variable {τ : Type}

/-- The entries written so far. -/
structure Written (es : List JoinEntry) (state : JoinState τ) : Prop where
  holds : state.entries.Holds es
  current : state.currentEntries = es.length
  room : state.entries.length = state.size

/-- The loop writes an entry for each row from `i` on when there is room for them, and
fails its assertion when there is not. -/
theorem writeEntries_eq {b : HashBin} {rows : List Word} (hb : b.rowIds.Holds rows) (rowId : Word)
    {left i : Nat} (hleft : i + left = rows.length) {es : List JoinEntry} {state : JoinState τ}
    (hw : Written es state) :
    if es.length + left ≤ state.size then
      ∃ state', writeEntries b rowId left i state = some state' ∧
        Written (es ++ (rows.drop i).map (JoinEntry.mk · rowId)) state' ∧
        state'.heap = state.heap ∧ state'.htab = state.htab ∧ state'.size = state.size
    else writeEntries b rowId left i state = none := by
  induction left generalizing i es state with
  | zero =>
    have hroom : es.length + 0 ≤ state.size := by
      rw [← hw.room]
      exact hw.holds.length_le
    rw [if_pos hroom, List.drop_eq_nil_of_le (by omega), List.map_nil, List.append_nil]
    exact ⟨state, rfl, hw, rfl, rfl, rfl⟩
  | succ left ih =>
    have hi : i < rows.length := by omega
    by_cases hlt : state.currentEntries < state.size
    · have hfree : es.length < state.entries.length := by
        rw [hw.room, ← hw.current]
        exact hlt
      obtain ⟨entries, hwrite, hholds, hlen⟩ := hw.holds.write_end hfree ⟨rows[i], rowId⟩
      rw [← hw.current] at hwrite
      have hstep : writeEntries b rowId (left + 1) i state = writeEntries b rowId left (i + 1)
          {state with entries := entries, currentEntries := state.currentEntries + 1} := by
        simp [writeEntries, hlt, hb.read hi, hwrite]
      have hw' : Written (es ++ [⟨rows[i], rowId⟩])
          {state with entries := entries, currentEntries := state.currentEntries + 1} :=
        ⟨hholds, by simp [hw.current], hlen.trans hw.room⟩
      have hrest := ih (i := i + 1) (by omega) hw'
      rw [hstep, List.drop_eq_getElem_cons hi, List.map_cons]
      simpa [Nat.add_assoc, Nat.add_comm 1] using hrest
    · have hfull : ¬ es.length + (left + 1) ≤ state.size := by
        rw [hw.current] at hlt
        omega
      rw [if_neg hfull]
      simp [writeEntries, hlt]

end Entries

/-! ### The invariant -/

section Invariant
variable {κ : Type} [DecidableEq κ] (format : Word → κ)

/-- The outputs of the calls fit in `size`, and their strings in the table. -/
def Fits (capacity : Option Nat) (size : Nat) (calls : List Call) : Prop :=
  (produced format calls).length ≤ size ∧
    ∀ n, capacity = some n → (calls.map fun c => format c.key).eraseDups.length ≤ n

instance (capacity : Option Nat) (size : Nat) (calls : List Call) :
    Decidable (Fits format capacity size calls) :=
  inferInstanceAs (Decidable (_ ∧ ∀ n ∈ capacity, _))

/-- The join after `calls`. -/
structure JoinStored (calls : List Call) (state : JoinState (Htab κ)) : Prop where
  table : ChainedTable format state.heap state.htab.entries
  keys : state.heap.map HashBin.key = ((held format calls).map Prod.fst).eraseDups
  rows : ∀ b ∈ state.heap, BinHolds (rowsOf (held format calls) b.key) b
  written : Written (produced format calls) state
  capacity : ∀ n, state.htab.capacity = some n → state.htab.entries.length ≤ n

/-- The size of the store and the capacity of the table stay what they were made with. -/
structure SameRoom (state state' : JoinState (Htab κ)) : Prop where
  size : state'.size = state.size
  capacity : state'.htab.capacity = state.htab.capacity

variable {format} {capacity : Option Nat} {size : Nat} {calls : List Call} {state : JoinState (Htab κ)}

theorem JoinStored.mem_keys (h : JoinStored format calls state) (k : Word) :
    k ∈ (held format calls).map Prod.fst ↔ ∃ b ∈ state.heap, b.key = k := by
  rw [← List.mem_eraseDups, ← h.keys, List.mem_map]

/-- A key without a bin has no rows. -/
theorem JoinStored.rowsOf_nil (h : JoinStored format calls state) {k : Word}
    (hnew : ∀ b ∈ state.heap, b.key ≠ k) : rowsOf (held format calls) k = [] := by
  refine rowsOf_eq_nil fun e he hk => ?_
  obtain ⟨b, hb, hbk⟩ := (h.mem_keys k).mp (List.mem_map.mpr ⟨e, he, hk⟩)
  exact hnew b hb hbk

/-- The bins of other keys hold their rows when a row is held for `k`. -/
theorem BinHolds.other {l : List (Word × Word)} {b : HashBin} (h : BinHolds (rowsOf l b.key) b)
    {k : Word} (hk : b.key ≠ k) (r : Word) : BinHolds (rowsOf (l ++ [(k, r)]) b.key) b := by
  rwa [rowsOf_concat, if_neg (Ne.symm hk), List.append_nil]

/-- A link does not matter to what a bin holds. -/
theorem BinHolds.setNext {rows : List Word} {b : HashBin} (h : BinHolds rows b) (p : Option Nat) :
    BinHolds rows {b with next := p} := ⟨h.holds, h.count, h.length, h.cap⟩

/-- A key that no bin has is not held. -/
theorem JoinStored.not_held (h : JoinStored format calls state) {k : Word}
    (hnew : ∀ b ∈ state.heap, b.key ≠ k) : k ∉ (held format calls).map Prod.fst := by
  rw [h.mem_keys]
  intro hsome
  obtain ⟨b, hb, hk⟩ := hsome
  exact hnew b hb hk

/-- A call whose key no bin has produces nothing. -/
theorem JoinStored.produced_new (h : JoinStored format calls state) {c : Call}
    (hnew : ∀ b ∈ state.heap, b.key ≠ c.key) :
    produced format (calls ++ [c]) = produced format calls := by
  rw [produced_concat, h.rowsOf_nil hnew, (emitted_eq_nil_iff _ c).mpr fun _ => rfl, List.append_nil]

/-- The table has an entry for each string that came. -/
theorem JoinStored.entries_length (h : JoinStored format calls state) :
    state.htab.entries.length = (calls.map fun c => format c.key).eraseDups.length := by
  have hsame : ∀ k, k ∈ binsOf format state.heap ↔ k ∈ calls.map fun c => format c.key := by
    intro k
    rw [mem_binsOf, List.mem_map, ← held_bin]
    constructor
    · intro hsome
      obtain ⟨b, hb, rfl⟩ := hsome
      obtain ⟨e, he, hk⟩ := List.mem_map.mp ((h.mem_keys b.key).mpr ⟨b, hb, rfl⟩)
      exact ⟨e, he, congrArg format hk⟩
    · intro hsome
      obtain ⟨e, he, rfl⟩ := hsome
      obtain ⟨b, hb, hk⟩ := (h.mem_keys e.1).mp (List.mem_map_of_mem he)
      exact ⟨b, hb, congrArg format hk⟩
  rw [← List.length_map Prod.fst, h.table.bins]
  exact Nat.le_antisymm (length_eraseDups_le_of_subset fun k hk => (hsame k).mp hk)
    (length_eraseDups_le_of_subset fun k hk => (hsame k).mpr hk)

/-- A call for a string that is not in the table is one for a string that did not come. -/
theorem JoinStored.find_none_iff (h : JoinStored format calls state) (c : Call) :
    state.htab.find (format c.key) = none ↔ format c.key ∉ calls.map fun d => format d.key := by
  rw [List.mem_map, ← held_bin, Htab.find, h.table.lookup_eq_none_iff]
  constructor
  · intro hnone hsome
    obtain ⟨e, he, hk⟩ := hsome
    obtain ⟨b, hb, hbk⟩ := (h.mem_keys e.1).mp (List.mem_map_of_mem he)
    exact hnone b hb ((congrArg format hbk).trans hk)
  · intro hnot b hb hk
    obtain ⟨e, he, hek⟩ := List.mem_map.mp ((h.mem_keys b.key).mpr ⟨b, hb, rfl⟩)
    exact hnot ⟨e, he, (congrArg format hek).trans hk⟩

/-- What was stored fits. -/
theorem JoinStored.fits (h : JoinStored format calls state) :
    Fits format state.htab.capacity state.size calls := by
  refine ⟨?_, fun n hn => ?_⟩
  · rw [← h.written.room]
    exact h.written.holds.length_le
  · rw [← h.entries_length]
    exact h.capacity n hn

/-- A call for a string in use fits when its outputs do. -/
theorem JoinStored.fits_concat_seen (h : JoinStored format calls state) {c : Call} {head : Nat}
    (hfind : state.htab.find (format c.key) = some head) :
    Fits format state.htab.capacity state.size (calls ++ [c]) ↔
      (produced format (calls ++ [c])).length ≤ state.size := by
  have hseen : format c.key ∈ calls.map fun d => format d.key := by
    by_contra hnot
    exact absurd (((h.find_none_iff c).mpr hnot).symm.trans hfind) (by simp)
  rw [Fits, List.map_append, List.map_singleton, eraseDups_concat_of_mem hseen]
  exact and_iff_left h.fits.2

/-- The first bin of a string. -/
theorem joinStored_new_entry (h : JoinStored format calls state) (c : Call)
    (hfind : state.htab.find (format c.key) = none)
    (hfree : ∀ n, state.htab.capacity = some n → state.htab.entries.length < n) :
    produced format (calls ++ [c]) = produced format calls ∧
      ∃ state', joinUpdate Htab.hsearch (format c.key) state c = some state' ∧
        JoinStored format (calls ++ [c]) state' ∧ SameRoom state state' := by
  have hnone : ∀ b ∈ state.heap, format b.key ≠ format c.key :=
    (h.table.lookup_eq_none_iff c.key).mp hfind
  have hnew : ∀ b ∈ state.heap, b.key ≠ c.key := fun b hb hk => hnone b hb (congrArg format hk)
  have hempty := h.rowsOf_nil hnew
  have hheld : held format (calls ++ [c]) = held format calls ++ [(c.key, c.rowId)] := by
    rw [held_concat]
    refine hold_opens fun e he hb => ?_
    obtain ⟨b, hb', hk⟩ := (h.mem_keys e.1).mp (List.mem_map_of_mem he)
    exact hnone b hb' (by rw [hk, hb])
  have hproduced := h.produced_new hnew
  have hnot := h.not_held hnew
  obtain ⟨b, hcreate, hkey, hnext, hholds⟩ := create_eq c.key c.rowId
  have henter : Htab.hsearch.enter state.htab (format c.key) state.heap.length = _ :=
    Htab.enter_new hfind hfree _
  refine ⟨hproduced,
    { state with
      heap := state.heap ++ [b]
      htab := {state.htab with entries := state.htab.entries ++ [(format c.key, state.heap.length)]} },
    ?_, ?_, rfl, rfl⟩
  · have hfind' : Htab.hsearch.find state.htab (format c.key) = none := hfind
    simp only [joinUpdate, hfind', hcreate, malloc, henter, Option.bind_eq_bind, Option.bind_some]
  · exact {
      table := by
        have hlookup : state.htab.entries.lookup (format b.key) = none := by
          rw [hkey]
          exact hfind
        rw [← hkey]
        exact h.table.insert hlookup hnext
      keys := by
        rw [hheld, List.map_append, List.map_append, List.map_singleton, List.map_singleton, h.keys,
          eraseDups_concat_of_not_mem hnot, hkey]
      rows := fun b' hb' => by
        rw [hheld]
        rcases List.mem_append.mp hb' with hb' | hb'
        · exact (h.rows b' hb').other (hnew b' hb') _
        · rw [List.mem_singleton.mp hb', hkey, rowsOf_concat, if_pos rfl, hempty]
          exact hholds
      written := by
        rw [hproduced]
        exact ⟨h.written.holds, h.written.current, h.written.room⟩
      capacity := fun n hn => by
        rw [List.length_append, List.length_singleton]
        exact hfree n hn }

/-- A primary call for a new key under a string in use. -/
theorem joinStored_new_bin (h : JoinStored format calls state) (c : Call) (hc : c.tbl = .primary)
    {head last : Nat} {y : HashBin} (hfind : state.htab.find (format c.key) = some head)
    (hwalk : walk c.key state.heap (state.heap.length + 1) (some head) none = some (none, some last))
    (hlast : (positions (binsOf format state.heap) (format c.key)).getLast? = some last)
    (hy : state.heap[last]? = some y) (hnext : y.next = none) (hnew : ∀ b ∈ state.heap, b.key ≠ c.key) :
    produced format (calls ++ [c]) = produced format calls ∧
      ∃ state', joinUpdate Htab.hsearch (format c.key) state c = some state' ∧
        JoinStored format (calls ++ [c]) state' ∧ SameRoom state state' := by
  have hempty := h.rowsOf_nil hnew
  have hheld : held format (calls ++ [c]) = held format calls ++ [(c.key, c.rowId)] := by
    rw [held_concat, hold_primary _ hc]
  have hproduced := h.produced_new hnew
  have hnot := h.not_held hnew
  obtain ⟨b, hcreate, hkey, hbnext, hholds⟩ := create_eq c.key c.rowId
  refine ⟨hproduced,
    { state with
      heap := (state.heap ++ [b]).set last {y with next := some state.heap.length} }, ?_, ?_, rfl, rfl⟩
  · have hfind' : Htab.hsearch.find state.htab (format c.key) = some head := hfind
    simp only [joinUpdate, hfind', hwalk, if_pos hc, hy, hnext, if_true, hcreate, malloc,
      Option.bind_eq_bind, Option.bind_some]
  · have hrows : ∀ b' ∈ state.heap, BinHolds (rowsOf (held format (calls ++ [c])) b'.key) b' := by
      intro b' hb'
      rw [hheld]
      exact (h.rows b' hb').other (hnew b' hb') _
    exact {
      table := by
        rw [← hkey] at hlast hnew
        exact h.table.append hlast hy hnew hbnext
      keys := by
        have hy' : (state.heap ++ [b])[last]? = some y := by
          rw [List.getElem?_append_left (List.getElem?_eq_some_iff.mp hy).1, hy]
        have hsame : HashBin.key {y with next := some state.heap.length} = y.key := rfl
        rw [map_set_of_eq HashBin.key hy' hsame, hheld, List.map_append, List.map_append,
          List.map_singleton, List.map_singleton, h.keys, eraseDups_concat_of_not_mem hnot, hkey]
      rows := fun b' hb' => by
        rcases List.mem_or_eq_of_mem_set hb' with hb' | rfl
        · rcases List.mem_append.mp hb' with hb' | hb'
          · exact hrows b' hb'
          · rw [List.mem_singleton.mp hb', hkey, hheld, rowsOf_concat, if_pos rfl, hempty]
            exact hholds
        · exact (hrows y (List.mem_of_getElem? hy)).setNext _
      written := by
        rw [hproduced]
        exact ⟨h.written.holds, h.written.current, h.written.room⟩
      capacity := h.capacity }

/-- A primary call for a key that has a bin. -/
theorem joinStored_append (h : JoinStored format calls state) (c : Call) (hc : c.tbl = .primary)
    {head bin : Nat} {binPrev : Option Nat} {b : HashBin}
    (hfind : state.htab.find (format c.key) = some head)
    (hwalk : walk c.key state.heap (state.heap.length + 1) (some head) none = some (some bin, binPrev))
    (hb : state.heap[bin]? = some b) (hk : b.key = c.key) :
    produced format (calls ++ [c]) = produced format calls ∧
      ∃ state', joinUpdate Htab.hsearch (format c.key) state c = some state' ∧
        JoinStored format (calls ++ [c]) state' ∧ SameRoom state state' := by
  have hmem : b ∈ state.heap := List.mem_of_getElem? hb
  have hheld : held format (calls ++ [c]) = held format calls ++ [(c.key, c.rowId)] := by
    rw [held_concat, hold_primary _ hc]
  have hproduced : produced format (calls ++ [c]) = produced format calls := by
    have hnone : emitted (rowsOf (held format calls) c.key) c = [] :=
      (emitted_eq_nil_iff _ c).mpr fun hs => absurd (hc.symm.trans hs) (by decide)
    rw [produced_concat, hnone, List.append_nil]
  have hold : c.key ∈ (held format calls).map Prod.fst := (h.mem_keys _).mpr ⟨b, hmem, hk⟩
  obtain ⟨b', happend, hkey, hnext, hholds⟩ := append_eq (h.rows b hmem) c.rowId
  refine ⟨hproduced, {state with heap := state.heap.set bin b'}, ?_, ?_, rfl, rfl⟩
  · have hfind' : Htab.hsearch.find state.htab (format c.key) = some head := hfind
    simp only [joinUpdate, hfind', hwalk, hb, if_pos hc, happend, Option.bind_eq_bind, Option.bind_some]
  · exact {
      table := h.table.modify hb hkey hnext
      keys := by
        rw [map_set_of_eq HashBin.key hb hkey, hheld, List.map_append, List.map_singleton, h.keys,
          eraseDups_concat_of_mem hold]
      rows := fun e he => by
        rw [hheld]
        rcases h.table.eq_or_key_ne_of_mem_set hb he with rfl | ⟨he, hother⟩
        · rw [hkey, rowsOf_concat, if_pos hk.symm]
          exact hholds
        · exact (h.rows e he).other (fun hek => hother (hek.trans hk.symm)) _
      written := by
        rw [hproduced]
        exact ⟨h.written.holds, h.written.current, h.written.room⟩
      capacity := h.capacity }

/-- A secondary call for a string in use opens nothing, and so nothing is held for it. -/
theorem JoinStored.held_secondary (h : JoinStored format calls state) {c : Call}
    (hc : c.tbl = .secondary) {head : Nat} (hfind : state.htab.find (format c.key) = some head) :
    held format (calls ++ [c]) = held format calls := by
  have hused : ¬ ∀ b ∈ state.heap, format b.key ≠ format c.key := by
    intro hnone
    have hlookup := (h.table.lookup_eq_none_iff c.key).mpr hnone
    exact absurd (hlookup.symm.trans hfind) (by simp)
  push Not at hused
  obtain ⟨b, hb, hbin⟩ := hused
  obtain ⟨e, he, hk⟩ := List.mem_map.mp ((h.mem_keys b.key).mpr ⟨b, hb, rfl⟩)
  rw [held_concat]
  exact hold_secondary hc he (by rw [hk, hbin])

/-- A secondary call for a key without a bin. -/
theorem joinStored_miss (h : JoinStored format calls state) (c : Call) (hc : c.tbl = .secondary)
    {head : Nat} {prev : Option Nat} (hfind : state.htab.find (format c.key) = some head)
    (hwalk : walk c.key state.heap (state.heap.length + 1) (some head) none = some (none, prev))
    (hnew : ∀ b ∈ state.heap, b.key ≠ c.key) :
    produced format (calls ++ [c]) = produced format calls ∧
      ∃ state', joinUpdate Htab.hsearch (format c.key) state c = some state' ∧
        JoinStored format (calls ++ [c]) state' ∧ SameRoom state state' := by
  have hheld := h.held_secondary hc hfind
  have hproduced := h.produced_new hnew
  refine ⟨hproduced, state, ?_, ?_, rfl, rfl⟩
  · have hfind' : Htab.hsearch.find state.htab (format c.key) = some head := hfind
    simp [joinUpdate, hfind', hwalk, hc]
  · exact {
      table := h.table
      keys := by rw [hheld, h.keys]
      rows := by
        rw [hheld]
        exact h.rows
      written := by
        rw [hproduced]
        exact h.written
      capacity := h.capacity }

/-- A secondary call for a key that has a bin outputs an entry for each of its rows, if
there is room for them. -/
theorem joinStored_output (h : JoinStored format calls state) (c : Call) (hc : c.tbl = .secondary)
    {head bin : Nat} {binPrev : Option Nat} {b : HashBin}
    (hfind : state.htab.find (format c.key) = some head)
    (hwalk : walk c.key state.heap (state.heap.length + 1) (some head) none = some (some bin, binPrev))
    (hb : state.heap[bin]? = some b) (hk : b.key = c.key) :
    if (produced format (calls ++ [c])).length ≤ state.size then
      ∃ state', joinUpdate Htab.hsearch (format c.key) state c = some state' ∧
        JoinStored format (calls ++ [c]) state' ∧ SameRoom state state'
    else joinUpdate Htab.hsearch (format c.key) state c = none := by
  have hheld := h.held_secondary hc hfind
  have hholds := h.rows b (List.mem_of_getElem? hb)
  rw [hk] at hholds
  have hproduced : produced format (calls ++ [c]) =
      produced format calls ++ (rowsOf (held format calls) c.key).map (JoinEntry.mk · c.rowId) := by
    rw [produced_concat, emitted, hc]
  have hupdate : joinUpdate Htab.hsearch (format c.key) state c =
      writeEntries b c.rowId b.rowIdCount 0 state := by
    have hfind' : Htab.hsearch.find state.htab (format c.key) = some head := hfind
    simp [joinUpdate, hfind', hwalk, hb, hc]
  have hcount : 0 + b.rowIdCount = (rowsOf (held format calls) c.key).length := by
    rw [hholds.count, Nat.zero_add]
  have hloop := writeEntries_eq hholds.holds c.rowId hcount h.written
  rw [hproduced, List.length_append, List.length_map, ← hholds.count, hupdate]
  split at hloop
  · rename_i hroom
    rw [if_pos hroom]
    obtain ⟨state', hwrite, hwritten, hheap, hhtab, hsize⟩ := hloop
    rw [List.drop_zero] at hwritten
    refine ⟨state', hwrite, ?_, hsize, by rw [hhtab]⟩
    exact {
      table := by
        rw [hheap, hhtab]
        exact h.table
      keys := by rw [hheap, hheld, h.keys]
      rows := by
        rw [hheap, hheld]
        exact h.rows
      written := by
        rw [hproduced]
        exact hwritten
      capacity := by
        rw [hhtab]
        exact h.capacity }
  · rename_i hfull
    rw [if_neg hfull]
    exact hloop

/-- **One update** keeps the invariant when there is room for what it outputs and for its
string, and fails its assertion when there is not. -/
theorem joinStored_update (h : JoinStored format calls state) (c : Call) :
    if Fits format state.htab.capacity state.size (calls ++ [c]) then
      ∃ state', joinUpdate Htab.hsearch (format c.key) state c = some state' ∧
        JoinStored format (calls ++ [c]) state' ∧ SameRoom state state'
    else joinUpdate Htab.hsearch (format c.key) state c = none := by
  cases hfind : state.htab.find (format c.key) with
  | none =>
    have hnew : format c.key ∉ calls.map fun d => format d.key := (h.find_none_iff c).mp hfind
    by_cases hfree : ∀ n, state.htab.capacity = some n → state.htab.entries.length < n
    · obtain ⟨hproduced, hstored⟩ := joinStored_new_entry h c hfind hfree
      have hfits : Fits format state.htab.capacity state.size (calls ++ [c]) := by
        refine ⟨by rw [hproduced]; exact h.fits.1, fun n hn => ?_⟩
        rw [List.map_append, List.map_singleton, length_eraseDups_concat hnew, ← h.entries_length]
        exact hfree n hn
      rw [if_pos hfits]
      exact hstored
    · push Not at hfree
      obtain ⟨n, hn, hfull⟩ := hfree
      have hover : ¬ Fits format state.htab.capacity state.size (calls ++ [c]) := by
        intro hfits
        have hle := hfits.2 n hn
        rw [List.map_append, List.map_singleton, length_eraseDups_concat hnew, ← h.entries_length] at hle
        omega
      have hfind' : Htab.hsearch.find state.htab (format c.key) = none := hfind
      have henter : ∀ node, Htab.hsearch.enter state.htab (format c.key) node = none :=
        Htab.enter_full hfind hn hfull
      obtain ⟨b, hcreate, _⟩ := create_eq c.key c.rowId
      rw [if_neg hover]
      simp only [joinUpdate, hfind', hcreate, malloc, henter, Option.bind_eq_bind, Option.bind_some,
        Option.bind_none]
  | some head =>
    -- calls that output nothing always have room
    have hquiet : (produced format (calls ++ [c]) = produced format calls ∧
        ∃ state', joinUpdate Htab.hsearch (format c.key) state c = some state' ∧
          JoinStored format (calls ++ [c]) state' ∧ SameRoom state state') →
        if Fits format state.htab.capacity state.size (calls ++ [c]) then
          ∃ state', joinUpdate Htab.hsearch (format c.key) state c = some state' ∧
            JoinStored format (calls ++ [c]) state' ∧ SameRoom state state'
        else joinUpdate Htab.hsearch (format c.key) state c = none := by
      intro hboth
      obtain ⟨hproduced, hstored⟩ := hboth
      rw [if_pos ((h.fits_concat_seen hfind).mpr (by rw [hproduced]; exact h.fits.1))]
      exact hstored
    rcases h.table.search hfind with
      ⟨bin, b, prev, hwalk, hb, hk⟩ | ⟨last, y, hwalk, hlast, hy, hnext, hnew⟩
    · cases hc : c.tbl with
      | primary => exact hquiet (joinStored_append h c hc hfind hwalk hb hk)
      | secondary =>
        simp only [h.fits_concat_seen hfind]
        exact joinStored_output h c hc hfind hwalk hb hk
    · cases hc : c.tbl with
      | primary => exact hquiet (joinStored_new_bin h c hc hfind hwalk hlast hy hnext hnew)
      | secondary => exact hquiet (joinStored_miss h c hc hfind hwalk hnew)

theorem produced_length_mono (calls rest : List Call) :
    (produced format calls).length ≤ (produced format (calls ++ rest)).length := by
  induction rest using List.reverseRecOn with
  | nil => rw [List.append_nil]
  | append_singleton rest c ih =>
    rw [← List.append_assoc, produced_concat, List.length_append]
    exact Nat.le_trans ih (Nat.le_add_right _ _)

/-- Calls that fit do so one after the other. -/
theorem Fits.left {rest : List Call} (h : Fits format capacity size (calls ++ rest)) :
    Fits format capacity size calls := by
  refine ⟨Nat.le_trans (produced_length_mono calls rest) h.1, fun n hn => ?_⟩
  refine Nat.le_trans (length_eraseDups_le_of_subset ?_) (h.2 n hn)
  rw [List.map_append]
  exact List.subset_append_left _ _

/-- **Any run** of updates outputs what `produced` says when there is room for it and for
the strings, and fails an assertion when there is not. -/
theorem joinStored_run (h : JoinStored format calls state) (rest : List Call) :
    if Fits format state.htab.capacity state.size (calls ++ rest) then
      ∃ state', joinRun Htab.hsearch format state rest = some state' ∧
        JoinStored format (calls ++ rest) state' ∧ SameRoom state state'
    else joinRun Htab.hsearch format state rest = none := by
  induction rest generalizing calls state with
  | nil =>
    rw [List.append_nil, if_pos h.fits]
    exact ⟨state, rfl, h, rfl, rfl⟩
  | cons c rest ih =>
    have hsplit : calls ++ c :: rest = (calls ++ [c]) ++ rest := by simp
    have hone := joinStored_update h c
    rw [hsplit, joinRun]
    split at hone
    · obtain ⟨state', hupdate, hstored, hsame⟩ := hone
      have hrest := ih hstored
      rw [hsame.size, hsame.capacity] at hrest
      simp only [hupdate, Option.bind_eq_bind, Option.bind_some]
      split at hrest
      · obtain ⟨last, hrun, hlast, hkept⟩ := hrest
        rw [if_pos ‹_›]
        exact ⟨last, hrun, hlast, hkept.size.trans hsame.size, hkept.capacity.trans hsame.capacity⟩
      · rw [if_neg ‹_›]
        exact hrest
    · rename_i hfull
      rw [if_neg (fun hfits => hfull hfits.left), hone]
      rfl

theorem joinStored_init {size : Nat} (hsize : 0 < size) (hc : Hcreate) (hashSize : Nat) :
    ∃ state, joinInit (hc.create hashSize : Htab κ) size = some state ∧
      JoinStored format [] state ∧ state.size = size ∧
      state.htab.capacity = hc.capacity hashSize := by
  refine ⟨⟨Buffer.malloc size, size, 0, hc.create hashSize, []⟩, if_pos hsize, ?_, rfl, rfl⟩
  exact {
    table := .nil
    keys := rfl
    rows := by simp
    written := ⟨Buffer.holds_nil _, rfl, List.length_replicate⟩
    capacity := fun _ _ => Nat.zero_le _ }

theorem JoinStored.view (h : JoinStored format calls state) :
    joinView state = (produced format calls).map some := by
  rw [joinView, h.written.current]
  exact h.written.holds.map_read

end Invariant

section Result
variable {κ : Type} [DecidableEq κ] (hc : Hcreate) (format : Word → κ) (size hashSize : Nat)

/-- The calls run on a new state, whose table `hcreate_r` makes for `hashSize` strings, and
end with the entries `es`. -/
def JoinYields (calls : List Call) (es : List JoinEntry) : Prop :=
  ∃ state state', joinInit (hc.create hashSize : Htab κ) size = some state ∧
    joinRun Htab.hsearch format state calls = some state' ∧ joinView state' = es.map some

variable {hc format size hashSize}

/-- What the calls yield is what the hash join produces, if there is room for it and for
the strings. -/
theorem joinYields_iff (hsize : 0 < size) (calls : List Call) (es : List JoinEntry) :
    JoinYields hc format size hashSize calls es ↔
      es = produced format calls ∧ Fits format (hc.capacity hashSize) size calls := by
  obtain ⟨state, hinit, hstored, hstate, hcapacity⟩ := @joinStored_init κ _ format size hsize hc hashSize
  have hrun := joinStored_run hstored calls
  rw [List.nil_append, hstate, hcapacity] at hrun
  constructor
  · intro hsome
    obtain ⟨s, s', hs, hs', hview⟩ := hsome
    rw [hinit] at hs
    obtain rfl := Option.some.inj hs
    split at hrun
    · rename_i hfits
      obtain ⟨state', hstate', hstored', _⟩ := hrun
      rw [hstate'] at hs'
      obtain rfl := Option.some.inj hs'
      rw [hstored'.view] at hview
      exact ⟨((List.map_injective_iff.mpr (Option.some_injective _)) hview).symm, hfits⟩
    · rw [hrun] at hs'
      cases hs'
  · intro hboth
    obtain ⟨rfl, hfits⟩ := hboth
    rw [if_pos hfits] at hrun
    obtain ⟨state', hstate', hstored', _⟩ := hrun
    exact ⟨state, state', hinit, hstate', hstored'.view⟩

/-- **The hash join computes the join exactly when there is no stray**: when no secondary
call that opens a table entry is followed by a secondary call with its key. The table has
room for the strings, as one that never fills has. -/
theorem join_correct_iff (hsize : 0 < size) (calls : List Call)
    (hfits : (joinOutput calls).length ≤ size)
    (htable : ∀ n, hc.capacity hashSize = some n → (calls.map fun c => format c.key).eraseDups.length ≤ n) :
    JoinYields hc format size hashSize calls (joinOutput calls) ↔ NoStray format calls := by
  rw [joinYields_iff hsize, ← produced_eq_iff]
  constructor
  · intro hboth
    obtain ⟨heq, _⟩ := hboth
    exact heq.symm
  · intro heq
    exact ⟨heq.symm, by rwa [heq], htable⟩

end Result

/-- Two primary calls and a secondary call with one key, as in the tests of the source. -/
theorem join_correct_iff_duplicate :
    JoinYields Hcreate.unbounded (fun k => k) 40000 15000
        [⟨14, 2, .primary⟩, ⟨14, 3, .primary⟩, ⟨14, 1, .secondary⟩] [⟨2, 1⟩, ⟨3, 1⟩] ↔
      NoStray (fun k => k) [⟨14, 2, .primary⟩, ⟨14, 3, .primary⟩, ⟨14, 1, .secondary⟩] :=
  join_correct_iff (by decide) [⟨14, 2, .primary⟩, ⟨14, 3, .primary⟩, ⟨14, 1, .secondary⟩]
    (by decide) (fun n hn => by cases hn)

/-- Two secondary calls with one key and no primary call: the second is joined with the
first. -/
theorem join_spurious :
    ¬ JoinYields Hcreate.unbounded (fun k => k) 40000 15000
      [⟨14, 1, .secondary⟩, ⟨14, 2, .secondary⟩]
      (joinOutput [⟨14, 1, .secondary⟩, ⟨14, 2, .secondary⟩]) := by
  rw [joinYields_iff (by decide)]
  intro hboth
  obtain ⟨heq, _⟩ := hboth
  exact absurd heq (by decide)

end Cheetah.Host.Join
