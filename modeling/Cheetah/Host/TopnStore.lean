import Cheetah.Host.Hsearch
import Cheetah.Lib.Insertion
import Mathlib.Algebra.Order.Ring.Nat

/-! The top-N store of `cheetah_aggregate_processing.c`.

`result_array` holds the largest values so far in descending order. An update scans down
from the last entry for the place of the value and moves the smaller entries up; once the
array is full the last of them is overwritten. -/
namespace Cheetah.Host.AggregateProcessing
open Lib

/-- `struct cheetah_aggregate_processing_topn_state`. -/
structure TopnState where
  n : Word
  resultArray : Buffer Word
  currentEntries : Word
  deriving DecidableEq, Repr

/-- `cheetah_aggregate_processing_topn_init`; `n` is a signed `int`. -/
def topnInit (n : Word) : TopnState where
  n := n
  currentEntries := 0
  resultArray := Buffer.malloc n.toNat

/-- `cheetah_aggregate_processing_topn_update`. No result when an array access is out of
bounds or reads an entry that was never written. -/
def topnUpdate (state : TopnState) (value : Word) : Option TopnState :=
  if state.currentEntries < state.n then do
    let i ← state.resultArray.scanDown (· < value) (state.currentEntries - 1).toInt
    let resultArray ←
      (if i < state.currentEntries.toInt - 1 then
        state.resultArray.shiftUp (state.currentEntries - 1).toInt i
      else some state.resultArray)
    let resultArray ← resultArray.writeAt (i + 1) value
    some {state with resultArray := resultArray, currentEntries := state.currentEntries + 1}
  else do
    let i ← state.resultArray.scanDown (· < value) (state.n - 1).toInt
    if i < state.n.toInt - 1 then do
      let resultArray ← state.resultArray.shiftUp (state.n - 2).toInt i
      let resultArray ← resultArray.writeAt (i + 1) value
      some {state with resultArray := resultArray}
    else some state

/-- A sequence of updates. -/
def topnRun (state : TopnState) : List Word → Option TopnState
  | [] => some state
  | value :: rest => do
    let state ← topnUpdate state value
    topnRun state rest

/-- `result_array[0 .. current_entries)`. -/
def topnView (state : TopnState) : List (Option Nat) :=
  (List.range state.currentEntries.toNat).map fun i => (state.resultArray.read i).map BitVec.toNat

/-- What the store is for: the first `n` values in descending order. -/
def topEntries (n : Nat) (values : List Word) : List Nat :=
  ((values.map BitVec.toNat : Multiset Nat).sort (· ≥ ·)).take n

theorem length_topEntries (n : Nat) (values : List Word) :
    (topEntries n values).length = min n values.length := by
  rw [topEntries, List.length_take, Multiset.length_sort, Multiset.coe_card, List.length_map]

theorem pairwise_topEntries (n : Nat) (values : List Word) :
    (topEntries n values).Pairwise (· ≥ ·) :=
  (Multiset.pairwise_sort _ (· ≥ ·)).sublist (List.take_sublist n _)

theorem topEntries_concat (n : Nat) (values : List Word) (v : Word) :
    topEntries n (values ++ [v]) = ((topEntries n values).orderedInsert (· ≥ ·) v.toNat).take n := by
  have hcons : (((values ++ [v]).map BitVec.toNat : List Nat) : Multiset Nat) =
      v.toNat ::ₘ (values.map BitVec.toNat : Multiset Nat) := by
    rw [Multiset.cons_coe, List.map_append, List.map_singleton, Multiset.coe_eq_coe]
    exact List.perm_append_singleton _ _
  rw [topEntries, hcons, take_sort_cons, topEntries]

/-- An unsigned difference read as a signed `int`. -/
theorem toInt_sub {c k : Word} (hc : c.toNat < 2 ^ 31) (hk : k.toNat < 2 ^ 31) :
    (c - k).toInt = (c.toNat : Int) - k.toNat := by
  rw [BitVec.toInt_eq_toNat_cond, BitVec.toNat_sub]
  split <;> omega

section Equations
variable {state : TopnState} {value : Word} {i : Int} {results : Buffer Word}

theorem topnUpdate_room (hroom : state.currentEntries < state.n)
    (hlast : (state.currentEntries - 1).toInt = state.currentEntries.toInt - 1)
    (hscan : state.resultArray.scanDown (· < value) (state.currentEntries - 1).toInt = some i)
    (hinsert : (state.resultArray.shiftUp (state.currentEntries - 1).toInt i).bind
      (fun b => b.writeAt (i + 1) value) = some results) :
    topnUpdate state value = some
      {state with resultArray := results, currentEntries := state.currentEntries + 1} := by
  have hshift : (if i < state.currentEntries.toInt - 1 then
      state.resultArray.shiftUp (state.currentEntries - 1).toInt i else some state.resultArray) =
      state.resultArray.shiftUp (state.currentEntries - 1).toInt i := by
    split
    · rfl
    · rename_i hge
      exact (Buffer.shiftUp_of_le _ (hlast.trans_le (Int.not_lt.mp hge))).symm
  obtain ⟨shifted, hshifted, hwrite⟩ := Option.bind_eq_some_iff.mp hinsert
  rw [topnUpdate, if_pos hroom, hscan, Option.bind_eq_bind, Option.bind_some, hshift, hshifted,
    Option.bind_eq_bind, Option.bind_some, hwrite, Option.bind_some]

theorem topnUpdate_full (hfull : ¬ state.currentEntries < state.n)
    (hscan : state.resultArray.scanDown (· < value) (state.n - 1).toInt = some i)
    (hmove : i < state.n.toInt - 1)
    (hinsert : (state.resultArray.shiftUp (state.n - 2).toInt i).bind
      (fun b => b.writeAt (i + 1) value) = some results) :
    topnUpdate state value = some {state with resultArray := results} := by
  obtain ⟨shifted, hshifted, hwrite⟩ := Option.bind_eq_some_iff.mp hinsert
  rw [topnUpdate, if_neg hfull, hscan, Option.bind_eq_bind, Option.bind_some, if_pos hmove, hshifted,
    Option.bind_eq_bind, Option.bind_some, hwrite, Option.bind_some]

theorem topnUpdate_keep (hfull : ¬ state.currentEntries < state.n)
    (hscan : state.resultArray.scanDown (· < value) (state.n - 1).toInt = some i)
    (hkeep : ¬ i < state.n.toInt - 1) : topnUpdate state value = some state := by
  rw [topnUpdate, if_neg hfull, hscan, Option.bind_eq_bind, Option.bind_some, if_neg hkeep]

end Equations

/-! ### The invariant -/

/-- The store made for `n` entries after the updates `values`: it holds `entries`. -/
structure TopnStored (n : Word) (values entries : List Word) (state : TopnState) : Prop where
  size : state.n = n
  room : state.resultArray.length = n.toNat
  results : state.resultArray.Holds entries
  count : state.currentEntries.toNat = entries.length
  largest : entries.map BitVec.toNat = topEntries n.toNat values

theorem topnStored_init (n : Word) : TopnStored n [] [] (topnInit n) where
  size := rfl
  room := by simp [topnInit, Buffer.malloc]
  results := Buffer.holds_nil _
  count := rfl
  largest := by simp [topEntries]

section Update
variable {n : Word} {values entries : List Word} {state : TopnState}

theorem TopnStored.length_le (h : TopnStored n values entries state) : entries.length ≤ n.toNat := by
  rw [← h.room]
  exact h.results.length_le

/-- The scan cuts the entries where the new value belongs. -/
theorem TopnStored.place (h : TopnStored n values entries state) (v : Word) :
    ∃ kept moved, kept ++ moved = entries ∧
      state.resultArray.scanDown (· < v) ((entries.length : Int) - 1) = some ((kept.length : Int) - 1) ∧
      topEntries n.toNat (values ++ [v]) = ((kept ++ v :: moved).map BitVec.toNat).take n.toNat := by
  obtain ⟨kept, moved, hsplit, hscan, hmoved, hkept⟩ :=
    Buffer.scanBelow_spec (p := fun x => decide (x < v)) entries [] (by simpa using h.results) (by simp)
  rw [List.append_nil] at hsplit
  refine ⟨kept, moved, hsplit, by rw [Buffer.scanDown_length, hscan], ?_⟩
  have hsorted : (kept.map BitVec.toNat ++ moved.map BitVec.toNat).Pairwise (· ≥ ·) := by
    rw [← List.map_append, hsplit, h.largest]
    exact pairwise_topEntries _ _
  have hfront : ∀ x ∈ kept.map BitVec.toNat, v.toNat ≤ x := by
    intro x hx
    cases hy : kept.getLast? with
    | none =>
      rw [List.getLast?_eq_none_iff.mp hy] at hx
      cases hx
    | some y =>
      have hlast : (kept.map BitVec.toNat).getLast? = some y.toNat := by
        rw [List.getLast?_map, hy, Option.map_some]
      have hvy := of_decide_eq_false (hkept y hy)
      rw [BitVec.lt_def] at hvy
      exact (Nat.le_of_not_lt hvy).trans (le_of_getLast? (List.pairwise_append.mp hsorted).1 hlast x hx)
  have htail : ∀ x ∈ moved.map BitVec.toNat, x < v.toNat := by
    intro x hx
    obtain ⟨y, hy, rfl⟩ := List.mem_map.mp hx
    exact BitVec.lt_def.mp (of_decide_eq_true (hmoved y hy))
  rw [topEntries_concat, ← h.largest, ← hsplit, List.map_append, List.map_append, List.map_cons,
    orderedInsert_append v.toNat hsorted hfront htail]

/-- While there is room the value is inserted. -/
theorem topnStored_room (h : TopnStored n values entries state) (hn : n.toNat < 2 ^ 31)
    (hroom : entries.length < n.toNat) (v : Word) :
    ∃ entries' state', topnUpdate state v = some state' ∧
      TopnStored n (values ++ [v]) entries' state' := by
  obtain ⟨kept, moved, hsplit, hscan, hlargest⟩ := h.place v
  have hlt : state.currentEntries < state.n := by
    rw [BitVec.lt_def, h.count, h.size]
    exact hroom
  have hlast : (state.currentEntries - 1).toInt = (entries.length : Int) - 1 := by
    rw [toInt_sub (by rw [h.count]; omega) (by decide), h.count]
    rfl
  have hint : state.currentEntries.toInt = (entries.length : Int) := by
    rw [BitVec.toInt_eq_toNat_of_lt (by rw [h.count]; omega), h.count]
  -- the slot above the entries is free
  obtain ⟨slots, hslots⟩ := h.results
  have hlen : entries.length + slots.length = n.toNat := by
    rw [← h.room, hslots, List.length_append, List.length_map]
  cases slots with
  | nil => exact absurd hlen hroom.ne
  | cons slot rest =>
    have harray : state.resultArray = kept.map some ++ moved.map some ++ slot :: rest := by
      rw [hslots, ← hsplit, List.map_append]
    have hkept : kept.length = (kept.map some).length := (List.length_map _).symm
    have hupdate := topnUpdate_room hlt (by rw [hlast, hint]) (by rw [hlast]; exact hscan)
      (by
        rw [hlast, harray, ← hsplit, List.length_append, hkept]
        exact Buffer.insertAt (kept.map some) rest moved slot v)
    refine ⟨kept ++ v :: moved, _, hupdate, ?_⟩
    rw [← hsplit, List.length_append] at hroom
    exact {
      size := h.size
      room := by
        rw [← h.room, harray]
        simp [Nat.add_assoc]
      results := ⟨rest, by simp⟩
      count := by
        rw [toNat_succ (BitVec.lt_def.mp hlt), h.count, ← hsplit, List.length_append, List.length_append,
          List.length_cons, Nat.add_assoc]
      largest := by
        rw [hlargest, List.take_of_length_le]
        rw [List.length_map, List.length_append, List.length_cons]
        exact hroom }

/-- A full array holds the entries and nothing else. -/
theorem TopnStored.array_full (h : TopnStored n values entries state)
    (hfull : entries.length = n.toNat) : state.resultArray = entries.map some := by
  obtain ⟨slots, hslots⟩ := h.results
  have hlen := h.room
  rw [hslots, List.length_append, List.length_map] at hlen
  have hnil : slots = [] := List.length_eq_zero_iff.mp (by omega)
  rw [hslots, hnil, List.append_nil]

/-- A value that no entry is smaller than is not among the largest. -/
theorem TopnStored.keep (h : TopnStored n values entries state) (hfull : entries.length = n.toNat)
    {v : Word} (hlargest : topEntries n.toNat (values ++ [v]) =
      ((entries ++ [v]).map BitVec.toNat).take n.toNat) :
    TopnStored n (values ++ [v]) entries state :=
  { h with
    largest := by
      rw [hlargest, ← hfull, List.map_append, List.take_append_of_le_length (List.length_map _).ge,
        List.take_of_length_le (List.length_map _).le] }

/-- The smallest entry makes way for a larger value. -/
theorem TopnStored.replace {kept front : List Word} {last : Word}
    (h : TopnStored n values (kept ++ (front ++ [last])) state)
    (hfull : (kept ++ (front ++ [last])).length = n.toNat) {v : Word}
    (hlargest : topEntries n.toNat (values ++ [v]) =
      ((kept ++ v :: (front ++ [last])).map BitVec.toNat).take n.toNat) :
    TopnStored n (values ++ [v]) (kept ++ v :: front)
      { state with resultArray := (kept ++ v :: front).map some } where
  size := h.size
  room := by
    rw [← hfull]
    simp
  results := ⟨[], by simp⟩
  count := by
    rw [h.count]
    simp
  largest := by
    have hcut : kept ++ v :: (front ++ [last]) = (kept ++ v :: front) ++ [last] := by simp
    have hlen : (kept ++ v :: front).length = n.toNat := by
      rw [← hfull]
      simp
    rw [hlargest, ← List.map_take, hcut, List.take_left' hlen]

/-- When the array is full the smallest entry makes way, unless the value is no larger. -/
theorem topnStored_full (h : TopnStored n values entries state) (hn : n.toNat < 2 ^ 31)
    (hfull : entries.length = n.toNat) (v : Word) :
    ∃ entries' state', topnUpdate state v = some state' ∧
      TopnStored n (values ++ [v]) entries' state' := by
  obtain ⟨kept, moved, rfl, hscan, hlargest⟩ := h.place v
  have hnlt : ¬ state.currentEntries < state.n := by
    rw [BitVec.lt_def, h.count, h.size, hfull]
    exact Nat.lt_irrefl _
  have hsize : state.n.toNat = (kept ++ moved).length := by rw [h.size, hfull]
  have hsmall : state.n.toNat < 2 ^ 31 := by
    rw [h.size]
    exact hn
  have hlast : (state.n - 1).toInt = ((kept ++ moved).length : Int) - 1 := by
    rw [toInt_sub hsmall (by decide), hsize]
    rfl
  have hint : state.n.toInt = ((kept ++ moved).length : Int) := by
    rw [BitVec.toInt_eq_toNat_of_lt (by omega), hsize]
  rw [← hlast] at hscan
  rcases List.eq_nil_or_concat' moved with rfl | ⟨front, last, rfl⟩
  · -- every entry is at least the value
    rw [List.append_nil] at h hfull hint
    have hstay : ¬ ((kept.length : Int) - 1) < state.n.toInt - 1 := by
      rw [hint]
      exact lt_irrefl _
    exact ⟨kept, state, topnUpdate_keep hnlt hscan hstay, h.keep hfull hlargest⟩
  · have hmove : ((kept.length : Int) - 1) < state.n.toInt - 1 := by
      rw [hint]
      simp
    have hstart : (state.n - 2).toInt = ((kept.map some).length + front.length : Nat) - 1 := by
      rw [toInt_sub hsmall (by decide), hsize]
      simp
      omega
    have hkept : kept.length = (kept.map some).length := (List.length_map _).symm
    have hinsert : (state.resultArray.shiftUp (state.n - 2).toInt ((kept.length : Int) - 1)).bind
        (fun b => b.writeAt ((kept.length : Int) - 1 + 1) v) = some ((kept ++ v :: front).map some) := by
      rw [hstart, h.array_full hfull, hkept, List.map_append, List.map_append, ← List.append_assoc]
      simpa using Buffer.insertAt (kept.map some) [] front (some last) v
    exact ⟨_, _, topnUpdate_full hnlt hscan hmove hinsert, h.replace hfull hlargest⟩

/-- **One update** keeps the invariant. -/
theorem topnStored_update (h : TopnStored n values entries state) (hn : n.toNat < 2 ^ 31) (v : Word) :
    ∃ entries' state', topnUpdate state v = some state' ∧
      TopnStored n (values ++ [v]) entries' state' := by
  rcases Nat.lt_or_eq_of_le h.length_le with hroom | hfull
  · exact topnStored_room h hn hroom v
  · exact topnStored_full h hn hfull v

/-- **Any run** of updates keeps the invariant. -/
theorem topnStored_run (h : TopnStored n values entries state) (hn : n.toNat < 2 ^ 31) (rest : List Word) :
    ∃ entries' state', topnRun state rest = some state' ∧
      TopnStored n (values ++ rest) entries' state' := by
  induction rest generalizing values entries state with
  | nil => exact ⟨entries, state, rfl, by rwa [List.append_nil]⟩
  | cons v rest ih =>
    obtain ⟨entries', state', hupdate, hstored⟩ := topnStored_update h hn v
    obtain ⟨last, final, hrun, hfinal⟩ := ih hstored
    refine ⟨last, final, ?_, by rwa [List.append_assoc] at hfinal⟩
    rw [topnRun, hupdate]
    exact hrun

/-- The array starts with the largest values. -/
theorem TopnStored.view (h : TopnStored n values entries state) :
    topnView state = (topEntries n.toNat values).map some := by
  rw [← h.largest, topnView, h.count, List.map_map]
  have hread := congrArg (List.map (Option.map BitVec.toNat)) h.results.map_read
  rw [List.map_map, List.map_map] at hread
  exact hread

end Update

/-- **The top-N store.** Updates with any values stay within the array, and leave in it the
`n` largest of them in descending order, all of them while there are fewer. -/
theorem topn_store (n : Word) (hn : 0 ≤ n.toInt) (values : List Word) :
    ∃ state, topnRun (topnInit n) values = some state ∧
      state.resultArray.length = n.toNat ∧
      state.currentEntries.toNat = min n.toNat values.length ∧
      topnView state = (topEntries n.toNat values).map some := by
  have hsigned : n.toNat < 2 ^ 31 := by
    rw [BitVec.toInt_eq_toNat_cond] at hn
    split at hn <;> omega
  obtain ⟨entries, state, hrun, h⟩ := topnStored_run (topnStored_init n) hsigned values
  refine ⟨state, hrun, h.room, ?_, h.view⟩
  have hlength := congrArg List.length h.largest
  rw [List.length_map, length_topEntries] at hlength
  rw [h.count, hlength]
  rfl

/-- Six values in a store for four. -/
theorem topn_store_four :
    ∃ state, topnRun (topnInit 4) [11, 9, 13, 10, 8, 15] = some state ∧
      state.resultArray.length = 4 ∧ state.currentEntries.toNat = 4 ∧
      topnView state = (topEntries 4 [11, 9, 13, 10, 8, 15]).map some :=
  topn_store 4 (by decide) [11, 9, 13, 10, 8, 15]

example : (topnRun (topnInit 4) [11, 9, 13, 10, 8, 15, 11]).map topnView =
    some [some 15, some 13, some 11, some 11] := by decide

end Cheetah.Host.AggregateProcessing
