import Cheetah.Host.DistinctStore
import Cheetah.Host.GroupbyStore
import Cheetah.Lib.Release
import Cheetah.Lib.Bytes

/-! The teardown of the stores of `cheetah_aggregate_processing.c`.

Both stores free, for each of their entries, the node its slot of `ptr_array` leads to and
the node behind it. The slots of the group-by store list every node, so a node with one
before it in its chain is freed through both. The slots of the distinct store list the first
node of each chain and are fewer than the entries as soon as a chain has a second one. Both
teardowns do what they should exactly when no two keys share a string. Neither frees
`ptr_array`. -/
namespace Cheetah.Host.AggregateProcessing
open Lib

/-- The blocks that are no nodes. -/
inductive Block where
  | htab | resultArray | state
  deriving DecidableEq, Repr

section Code
variable {τ : Type} (g : Indeterminate Block)

/-- `free_distinct_entry`. -/
def freeDistinctEntry (heap : Heap DistinctEntries) (past : List (Step Block)) (e : Option Nat) :
    List (Step Block) := freeEntry g heap past e

/-- `cheetah_aggregate_processing_distinct_free`. -/
def distinctFree (state : DistinctState τ) : List (Step Block) :=
  (List.range state.currentEntries.toNat).foldl
    (fun past i => freeDistinctEntry g state.heap (past ++ [.slot i]) (readSlot g state.ptrArray i))
    [.block .htab] ++ [.block .resultArray] ++ [.block .state]

/-- `free_groupby_entry`. -/
def freeGroupbyEntry (heap : Heap GroupbyEntries) (past : List (Step Block)) (e : Option Nat) :
    List (Step Block) := freeEntry g heap past e

/-- `cheetah_aggregate_processing_groupby_free`. -/
def groupbyFree (state : GroupbyState τ) : List (Step Block) :=
  (List.range state.currentEntries.toNat).foldl
    (fun past i => freeGroupbyEntry g state.heap (past ++ [.slot i]) (readSlot g state.ptrArray i))
    [.block .htab] ++ [.block .state]

end Code

/-- Different keys have different strings. -/
def NoCollision {α κ : Type} (format : α → κ) (keys : List α) : Prop :=
  ∀ k ∈ keys, ∀ l ∈ keys, format k = format l → k = l

/-- The string of a key that has a byte of 0. -/
def text {w : Nat} (key : BitVec w) : List Byte := (Bytes.image key).takeWhile (· ≠ 0)

/-- Memory that nothing defines reads as null. -/
def readsNull : Indeterminate Block := ⟨fun _ => none, fun _ _ => none⟩

/-! ### The group-by store -/

section Groupby
variable {κ : Type} [DecidableEq κ] {format : Word → κ} {calls : List (Word × Word)}
  {state : GroupbyState (Htab κ)} {g : Indeterminate Block}

theorem GroupbyStored.free_eq (h : GroupbyStored format calls state) :
    groupbyFree g state =
      freeSlots g state.heap state.ptrArray [.block .htab] (List.range state.heap.length) ++
        [.block .state] := by
  rw [← h.entries]
  rfl

theorem GroupbyStored.nodup_bins_iff (h : GroupbyStored format calls state) :
    (binsOf format state.heap).Nodup ↔ NoCollision format (calls.map Prod.fst) := by
  have hbins : binsOf format state.heap = (calls.map Prod.fst).eraseDups.map format := by
    rw [← h.keys, List.map_map]
    rfl
  rw [hbins]
  exact nodup_map_eraseDups_iff format _

/-- **The teardown of a group-by store** frees every node once, and reads none it has freed,
exactly when no node has a link. -/
theorem GroupbyStored.released_iff (h : GroupbyStored format calls state) :
    FreedOnce state.heap (groupbyFree g state) ∧ NeverStale (groupbyFree g state) ↔
      NoCollision format (calls.map Prod.fst) := by
  rw [h.free_eq, freedOnce_block, neverStale_block, ← h.nodup_bins_iff, h.table.nodup_bins_iff]
  constructor
  · intro hreleased x hx
    obtain ⟨a, ha⟩ := List.mem_iff_getElem?.mp hx
    cases hnext : ChainNode.next x with
    | none => rfl
    | some c =>
      have hout := next_of_freedOnce h.pointers hreleased.1 hreleased.2 ha hnext
      exact absurd (h.table.next_lt ha hnext) (Nat.not_lt.mpr hout)
  · intro hend
    have hreleased := released_all (g := g) (released_start Block.htab) h.pointers hend
    exact ⟨hreleased.freedOnce, hreleased.fresh⟩

/-- **Group-by teardown.** Whatever the strings, and whatever is read where C leaves it
open, after updates with at most `size` distinct keys the teardown frees each node once and
reads no link of a node it has freed exactly when no two keys share a string. -/
theorem groupby_freed_once_iff (hc : Hcreate) (format : Word → κ) (size : Word) (calls : List (Word × Word))
    (hroom : (calls.map Prod.fst).eraseDups.length ≤ size.toNat) :
    ∃ state : GroupbyState (Htab κ),
      groupbyRun Htab.hsearch format (groupbyInit (hc.create size.toNat) size) calls = some state ∧
      ∀ g, (FreedOnce state.heap (groupbyFree g state) ∧ NeverStale (groupbyFree g state) ↔
        NoCollision format (calls.map Prod.fst)) := by
  obtain ⟨state, hrun, h⟩ := stored_run (groupbyStored_init format hc size) calls hroom
  exact ⟨state, hrun, fun g => h.released_iff⟩

end Groupby

/-- Two keys with strings of their own, one of them given twice. -/
theorem groupby_freed_once_iff_two :
    ∃ state : GroupbyState (Htab (List Byte)),
      groupbyRun Htab.hsearch text (groupbyInit (Hcreate.unbounded.create 2) 2)
        [(1, 5), (2, 7), (1, 9)] = some state ∧
      ∀ g, (FreedOnce state.heap (groupbyFree g state) ∧ NeverStale (groupbyFree g state) ↔
        NoCollision text ([(1, 5), (2, 7), (1, 9)].map Prod.fst : List Word)) :=
  groupby_freed_once_iff Hcreate.unbounded text 2 [(1, 5), (2, 7), (1, 9)] (by decide)

/-- Two keys with the empty string: the second node is freed through the first, and again
through its own slot, after its link has been read. -/
theorem second_node_freed_twice :
    ∃ state : GroupbyState (Htab (List Byte)),
      groupbyRun Htab.hsearch text (groupbyInit (Hcreate.unbounded.create 2) 2)
        [(0x100, 5), (0x200, 7)] = some state ∧
      groupbyFree readsNull state =
        [.block .htab, .slot 0, .next 0, .free (some 1), .free (some 0),
          .slot 1, .next 1, .free none, .free (some 1), .block .state] ∧
      ¬ FreedOnce state.heap (groupbyFree readsNull state) ∧ ¬ NeverStale (groupbyFree readsNull state) := by
  refine ⟨_, rfl, by decide, ?_, ?_⟩
  · intro h
    exact absurd (h 1 (by decide)) (by decide)
  · intro h
    exact h [.block .htab, .slot 0, .next 0, .free (some 1), .free (some 0), .slot 1] (.next 1)
      [.free none, .free (some 1), .block .state] (by decide) 1 rfl (by decide)

/-! ### The distinct store -/

section Distinct
variable {τ κ : Type}

/-- No pointer has been written from slot `current_hash_bins` on. -/
structure PointersEnd (state : DistinctState τ) : Prop where
  room : state.ptrArray.length = state.size.toNat
  rest : ∀ i, state.currentHashBins.toNat ≤ i → state.ptrArray.read i = none

theorem pointersEnd_init (htab : τ) (size : Word) : PointersEnd (distinctInit htab size) where
  room := by simp [distinctInit, Buffer.malloc]
  rest i _ := Buffer.read_malloc _ i

variable {H : Hsearch τ κ}

theorem PointersEnd.update {key : κ} {state state' : DistinctState τ} {value : Value} (h : PointersEnd state)
    (hupdate : distinctUpdate H key state value = some state') : PointersEnd state' := by
  rcases distinctUpdate_cases hupdate with
    ⟨rfl, _⟩ | ⟨_, _, hsize, ⟨_, _, hbins, hptrs⟩ | ⟨_, _, hbins, hwrite⟩⟩
  · exact h
  · refine ⟨?_, fun i hi => ?_⟩
    · rw [hptrs, hsize, h.room]
    · rw [hbins] at hi
      rw [hptrs]
      exact h.rest i hi
  · obtain ⟨hlt, hlen⟩ := Buffer.lt_of_write hwrite
    rw [h.room] at hlt
    refine ⟨?_, fun i hi => ?_⟩
    · rw [hlen, hsize, h.room]
    · rw [hbins, toNat_succ hlt] at hi
      rw [Buffer.read_write hwrite, if_neg (by omega)]
      exact h.rest i (by omega)

theorem PointersEnd.run {format : Value → κ} {state state' : DistinctState τ} (h : PointersEnd state)
    {values : List Value} (hrun : distinctRun H format state values = some state') : PointersEnd state' := by
  induction values generalizing state with
  | nil =>
    rw [← Option.some.inj hrun]
    exact h
  | cons v rest ih =>
    obtain ⟨next, hupdate, hrest⟩ := Option.bind_eq_some_iff.mp hrun
    exact ih (h.update hupdate) hrest

variable [DecidableEq κ] {format : Value → κ} {values : List Value} {state : DistinctState (Htab κ)}
  {g : Indeterminate Block}

theorem DistinctStored.free_eq (h : DistinctStored format values state) :
    distinctFree g state =
      freeSlots g state.heap state.ptrArray [.block .htab] (List.range state.heap.length) ++
        [.block .resultArray] ++ [.block .state] := by
  rw [h.length_heap, ← h.entries]
  rfl

theorem DistinctStored.nodup_bins_iff (h : DistinctStored format values state) :
    (binsOf format state.heap).Nodup ↔ NoCollision format values := by
  have hbins : binsOf format state.heap = values.eraseDups.map format := by
    rw [← h.nodes, List.map_map]
    rfl
  rw [hbins]
  exact nodup_map_eraseDups_iff format values

/-- **The teardown of a distinct store** reads written slots only, and frees every node once,
exactly when every chain is one node. -/
theorem DistinctStored.released_iff (h : DistinctStored format values state) (hptrs : PointersEnd state) :
    OnlyWritten state.ptrArray (distinctFree g state) ∧ FreedOnce state.heap (distinctFree g state) ↔
      NoCollision format values := by
  rw [h.free_eq, onlyWritten_block, onlyWritten_block, freedOnce_block, freedOnce_block, ← h.nodup_bins_iff]
  constructor
  · intro hreleased
    -- the slots that are read are as many as the nodes, the written ones as many as the bins
    have hslots : ¬ state.currentHashBins.toNat < state.heap.length := by
      intro hlt
      have hread := hreleased.1 _ (slot_mem_freeSlots g state.heap state.ptrArray [.block .htab]
        (List.mem_range.mpr hlt))
      rw [hptrs.rest _ (Nat.le_refl _)] at hread
      cases hread
    apply nodup_of_length_le_eraseDups
    rw [← h.table.bins, List.length_map, ← h.bins, binsOf, List.length_map]
    exact Nat.not_lt.mp hslots
  · intro hnodup
    have hholds := h.pointers
    rw [h.table.heads_eq_range hnodup] at hholds
    have hreleased := released_all (g := g) (released_start Block.htab) hholds
      (h.table.nodup_bins_iff.mp hnodup)
    exact ⟨hreleased.onlyWritten hholds, hreleased.freedOnce⟩

/-- **Distinct teardown.** Whatever the strings, and whatever is read where C leaves it open,
after updates with at most `size` distinct values the teardown reads only slots that have
been written and frees each node once exactly when no two values share a string. -/
theorem distinct_freed_once_iff (hc : Hcreate) (format : Value → κ) (size : Word) (values : List Value)
    (hroom : values.eraseDups.length ≤ size.toNat) :
    ∃ state : DistinctState (Htab κ),
      distinctRun Htab.hsearch format (distinctInit (hc.create size.toNat) size) values = some state ∧
      ∀ g, (OnlyWritten state.ptrArray (distinctFree g state) ∧ FreedOnce state.heap (distinctFree g state) ↔
        NoCollision format values) := by
  obtain ⟨state, hrun, h⟩ := distinctStored_run (distinctStored_init format hc size) values hroom
  have hptrs := (pointersEnd_init (hc.create size.toNat : Htab κ) size).run hrun
  exact ⟨state, hrun, fun g => h.released_iff hptrs⟩

end Distinct

/-- Two values with strings of their own, one of them given twice. -/
theorem distinct_freed_once_iff_two :
    ∃ state : DistinctState (Htab (List Byte)),
      distinctRun Htab.hsearch text (distinctInit (Hcreate.unbounded.create 2) 2) [1, 2, 1] = some state ∧
      ∀ g, (OnlyWritten state.ptrArray (distinctFree g state) ∧ FreedOnce state.heap (distinctFree g state) ↔
        NoCollision text ([1, 2, 1] : List Value)) :=
  distinct_freed_once_iff Hcreate.unbounded text 2 [1, 2, 1] (by decide)

/-- Three values with the empty string: two slots are read that nothing was written to, and
the third node of the chain is never freed. -/
theorem third_node_not_freed :
    ∃ state : DistinctState (Htab (List Byte)),
      distinctRun Htab.hsearch text (distinctInit (Hcreate.unbounded.create 3) 3)
        [0x100, 0x200, 0x300] = some state ∧
      distinctFree readsNull state =
        [.block .htab, .slot 0, .next 0, .free (some 1), .free (some 0), .slot 1, .slot 2,
          .block .resultArray, .block .state] ∧
      ¬ OnlyWritten state.ptrArray (distinctFree readsNull state) ∧
      ¬ FreedOnce state.heap (distinctFree readsNull state) := by
  refine ⟨_, rfl, by decide, ?_, ?_⟩
  · intro h
    exact absurd (h 1 (by decide)) (by decide)
  · intro h
    exact absurd (h 2 (by decide)) (by decide)

end Cheetah.Host.AggregateProcessing
