import Cheetah.Host.Hsearch
import Cheetah.Lib.Buffer

/-! The group-by store of `cheetah_aggregate_processing.c`.

A node holds a key and the largest value seen for it. Nodes of keys with the same
string form a chain under one entry of the hash table, and `ptr_array` lists every
node; an update changes a node through its chain only. `Stored` is the invariant
that ties the two views to the calls made. -/
namespace Cheetah.Host.AggregateProcessing
open Lib

/-- `struct cheetah_aggregate_processing_groupby_entries`. -/
structure GroupbyEntries where
  key : Word
  value : Word
  next : Option Nat
  deriving DecidableEq, Repr

instance : ChainNode GroupbyEntries Word where
  key := GroupbyEntries.key
  next := GroupbyEntries.next
  setNext := fun e p => {e with next := p}
  key_setNext := fun _ _ => rfl
  next_setNext := fun _ _ => rfl

/-- `struct cheetah_aggregate_processing_groupby_state`, with the nodes its pointers lead to. -/
structure GroupbyState (τ : Type) where
  currentEntries : Word
  currentHashBins : Word
  size : Word
  htab : τ
  ptrArray : Buffer Nat
  heap : Heap GroupbyEntries

section Update
variable {τ κ : Type}

/-- `cheetah_aggregate_processing_groupby_init`, given the table `hcreate_r` makes. -/
def groupbyInit (htab : τ) (size : Word) : GroupbyState τ where
  currentEntries := 0
  currentHashBins := 0
  size := size
  htab := htab
  ptrArray := Buffer.malloc size.toNat
  heap := []

/-- `cheetah_aggregate_processing_groupby_update`; `formattedKey` is the string
`hsearch_r` is given. No result when an array is accessed out of bounds. The
assertions are compiled out, so a failed `ENTER` changes nothing else. -/
def groupbyUpdate (H : Hsearch τ κ) (formattedKey : κ) (state : GroupbyState τ) (key value : Word) :
    Option (GroupbyState τ) :=
  match H.find state.htab formattedKey with
  | some head => do
    let (bin, binPrev) ← walk key state.heap (state.heap.length + 1) (some head) none
    match bin with
    | none =>
      let prev ← binPrev
      let last ← state.heap[prev]?
      let (node, heap) := malloc state.heap ⟨key, value, none⟩
      let ptrArray ← state.ptrArray.write state.currentEntries.toNat node
      some { state with
        heap := heap.set prev {last with next := some node}
        ptrArray := ptrArray
        currentEntries := state.currentEntries + 1 }
    | some bin =>
      let node ← state.heap[bin]?
      if node.value < value then some {state with heap := state.heap.set bin {node with value := value}}
      else some state
  | none => do
    let (node, heap) := malloc state.heap ⟨key, value, none⟩
    let ptrArray ← state.ptrArray.write state.currentEntries.toNat node
    some { state with
      heap := heap
      htab := (H.enter state.htab formattedKey node).getD state.htab
      ptrArray := ptrArray
      currentEntries := state.currentEntries + 1
      currentHashBins := state.currentHashBins + 1 }

/-- A sequence of updates; `format` is the string of a key. -/
def groupbyRun (H : Hsearch τ κ) (format : Word → κ) (state : GroupbyState τ) :
    List (Word × Word) → Option (GroupbyState τ)
  | [] => some state
  | (key, value) :: rest => do
    let state ← groupbyUpdate H (format key) state key value
    groupbyRun H format state rest

variable {H : Hsearch τ κ} {formattedKey : κ} {state : GroupbyState τ} {key : Word}
  {head prev bin : Nat} {binPrev : Option Nat} {last node : GroupbyEntries} {ptrs : Buffer Nat}

theorem groupbyUpdate_new_bin (key value : Word) (hfind : H.find state.htab formattedKey = none)
    (hwrite : state.ptrArray.write state.currentEntries.toNat state.heap.length = some ptrs) :
    groupbyUpdate H formattedKey state key value = some
      { state with
        heap := state.heap ++ [⟨key, value, none⟩]
        htab := (H.enter state.htab formattedKey state.heap.length).getD state.htab
        ptrArray := ptrs
        currentEntries := state.currentEntries + 1
        currentHashBins := state.currentHashBins + 1 } := by
  simp [groupbyUpdate, hfind, malloc, hwrite]

theorem groupbyUpdate_new_key (value : Word) (hfind : H.find state.htab formattedKey = some head)
    (hwalk : walk key state.heap (state.heap.length + 1) (some head) none = some (none, some prev))
    (hlast : state.heap[prev]? = some last)
    (hwrite : state.ptrArray.write state.currentEntries.toNat state.heap.length = some ptrs) :
    groupbyUpdate H formattedKey state key value = some
      { state with
        heap := (state.heap ++ [(⟨key, value, none⟩ : GroupbyEntries)]).set prev
          {last with next := some state.heap.length}
        ptrArray := ptrs
        currentEntries := state.currentEntries + 1 } := by
  simp [groupbyUpdate, hfind, hwalk, hlast, malloc, hwrite]

theorem groupbyUpdate_repeat (value : Word) (hfind : H.find state.htab formattedKey = some head)
    (hwalk : walk key state.heap (state.heap.length + 1) (some head) none = some (some bin, binPrev))
    (hnode : state.heap[bin]? = some node) :
    groupbyUpdate H formattedKey state key value = some
      (if node.value < value then
        {state with heap := state.heap.set bin {node with value := value}} else state) := by
  by_cases hlt : node.value < value <;> simp [groupbyUpdate, hfind, hwalk, hnode, hlt]

end Update

/-! ### What a caller can see -/

section View
variable {τ κ : Type}

/-- `(ptr_array[i]->key, ptr_array[i]->value)`. -/
def groupbyEntry (state : GroupbyState τ) (i : Nat) : Option (Word × Word) := do
  let node ← state.ptrArray.read i
  let entry ← state.heap[node]?
  some (entry.key, entry.value)

/-- What `ptr_array[0 .. current_entries)` leads to. -/
def groupbyView (state : GroupbyState τ) : List (Option (Word × Word)) :=
  (List.range state.currentEntries.toNat).map (groupbyEntry state)

/-- The value a caller finds for a key. -/
def groupbyMap (state : GroupbyState τ) (key : Word) : Option Word :=
  ((groupbyView state).filterMap id).lookup key

/-- What the chain under an entry of the hash table leads to. -/
def groupbyChain (H : Hsearch τ κ) (state : GroupbyState τ) (b : κ) : Option (List (Word × Word)) :=
  (readChain state.heap (state.heap.length + 1) (H.find state.htab b)).map
    (List.map fun e => (e.key, e.value))

end View

/-! ### The invariant -/

/-- `v` is the largest value given for `k`. -/
def IsMaxOf (calls : List (Word × Word)) (k v : Word) : Prop :=
  (k, v) ∈ calls ∧ ∀ v', (k, v') ∈ calls → v' ≤ v

theorem IsMaxOf.unique {calls : List (Word × Word)} {k v w : Word} (hv : IsMaxOf calls k v)
    (hw : IsMaxOf calls k w) : v = w := BitVec.le_antisymm (hw.2 v hv.1) (hv.2 w hw.1)

/-- A call for another key does not matter. -/
theorem IsMaxOf.other {calls : List (Word × Word)} {k v k' v' : Word} (h : IsMaxOf calls k v)
    (hne : k ≠ k') : IsMaxOf (calls ++ [(k', v')]) k v := by
  refine ⟨List.mem_append_left _ h.1, fun w hw => ?_⟩
  rcases List.mem_append.mp hw with hw | hw
  · exact h.2 w hw
  · exact absurd (congrArg Prod.fst (List.mem_singleton.mp hw)) hne

/-- A call for the key with a value that is no larger does not matter. -/
theorem IsMaxOf.keep {calls : List (Word × Word)} {k v v' : Word} (h : IsMaxOf calls k v)
    (hle : v' ≤ v) : IsMaxOf (calls ++ [(k, v')]) k v := by
  refine ⟨List.mem_append_left _ h.1, fun w hw => ?_⟩
  rcases List.mem_append.mp hw with hw | hw
  · exact h.2 w hw
  · rw [show w = v' from congrArg Prod.snd (List.mem_singleton.mp hw)]
    exact hle

/-- A larger value replaces the maximum. -/
theorem IsMaxOf.raise {calls : List (Word × Word)} {k v v' : Word} (h : IsMaxOf calls k v)
    (hlt : v < v') : IsMaxOf (calls ++ [(k, v')]) k v' := by
  refine ⟨List.mem_append_right _ (List.mem_singleton.mpr rfl), fun w hw => ?_⟩
  rcases List.mem_append.mp hw with hw | hw
  · exact BitVec.le_trans (h.2 w hw) (BitVec.le_of_lt hlt)
  · rw [show w = v' from congrArg Prod.snd (List.mem_singleton.mp hw)]
    exact BitVec.le_refl _

theorem IsMaxOf.first {calls : List (Word × Word)} {k v : Word} (h : k ∉ calls.map Prod.fst) :
    IsMaxOf (calls ++ [(k, v)]) k v := by
  refine ⟨List.mem_append_right _ (List.mem_singleton.mpr rfl), fun w hw => ?_⟩
  rcases List.mem_append.mp hw with hw | hw
  · exact absurd (List.mem_map.mpr ⟨_, hw, rfl⟩) h
  · rw [show w = v from congrArg Prod.snd (List.mem_singleton.mp hw)]
    exact BitVec.le_refl _

section Invariant
variable {κ : Type} [DecidableEq κ] (format : Word → κ)

/-- The store after `calls`. The nodes are the distinct keys in order of first
occurrence, which is the order `ptr_array` lists them in. -/
structure GroupbyStored (calls : List (Word × Word)) (state : GroupbyState (Htab κ)) : Prop where
  table : ChainedTable format state.heap state.htab.entries
  keys : state.heap.map GroupbyEntries.key = (calls.map Prod.fst).eraseDups
  values : ∀ e ∈ state.heap, IsMaxOf calls e.key e.value
  pointers : state.ptrArray.Holds (List.range state.heap.length)
  entries : state.currentEntries.toNat = state.heap.length
  bins : state.currentHashBins.toNat = state.htab.entries.length
  room : state.ptrArray.length = state.size.toNat
  capacity : ∀ c, state.htab.capacity = some c → state.size.toNat ≤ c

theorem groupbyStored_init (hc : Hcreate) (size : Word) :
    GroupbyStored format [] (groupbyInit (hc.create size.toNat) size) where
  table := .nil
  keys := rfl
  values := by simp [groupbyInit]
  pointers := Buffer.holds_nil _
  entries := rfl
  bins := rfl
  room := by simp [groupbyInit, Buffer.malloc]
  capacity := hc.holds size.toNat

variable {format} {calls : List (Word × Word)} {state : GroupbyState (Htab κ)}

theorem GroupbyStored.mem_keys (h : GroupbyStored format calls state) (k : Word) :
    k ∈ calls.map Prod.fst ↔ ∃ e ∈ state.heap, e.key = k := by
  rw [← List.mem_eraseDups, ← h.keys, List.mem_map]

/-- A key that was not given has no node. -/
theorem GroupbyStored.not_mem_iff (h : GroupbyStored format calls state) {k : Word} :
    k ∉ calls.map Prod.fst ↔ ∀ e ∈ state.heap, e.key ≠ k := by
  rw [h.mem_keys]
  push Not
  rfl

/-- There is a slot for the node of a new key. -/
theorem GroupbyStored.slot (h : GroupbyStored format calls state) {k : Word} (v : Word)
    (hroom : ((calls ++ [(k, v)]).map Prod.fst).eraseDups.length ≤ state.size.toNat)
    (hnew : k ∉ calls.map Prod.fst) : state.heap.length < state.size.toNat := by
  rw [List.map_append, List.map_singleton, length_eraseDups_concat hnew, ← h.keys, List.length_map] at hroom
  exact hroom

/-- The nodes keep their maxima when a new key comes in. -/
theorem GroupbyStored.values_new (h : GroupbyStored format calls state) {k : Word}
    (hnew : k ∉ calls.map Prod.fst) (v : Word) {e : GroupbyEntries} (he : e ∈ state.heap) :
    IsMaxOf (calls ++ [(k, v)]) e.key e.value := by
  refine (h.values e he).other ?_
  intro heq
  obtain rfl := heq
  exact hnew ((h.mem_keys _).mpr ⟨e, he, rfl⟩)

/-- The pointer to the node of a new key is written to the first free slot. -/
theorem GroupbyStored.push (h : GroupbyStored format calls state)
    (hslot : state.heap.length < state.size.toNat) :
    ∃ ptrs, state.ptrArray.write state.currentEntries.toNat state.heap.length = some ptrs ∧
      ptrs.Holds (List.range (state.heap.length + 1)) ∧ ptrs.length = state.size.toNat := by
  have hfree : (List.range state.heap.length).length < state.ptrArray.length := by
    rw [List.length_range, h.room]
    exact hslot
  obtain ⟨ptrs, hwrite, hholds, hlen⟩ := h.pointers.write_end hfree state.heap.length
  refine ⟨ptrs, ?_, ?_, hlen.trans h.room⟩
  · rw [h.entries]
    rwa [List.length_range] at hwrite
  · rw [List.range_succ]
    exact hholds

theorem GroupbyStored.entries_succ (h : GroupbyStored format calls state)
    (hslot : state.heap.length < state.size.toNat) (e : GroupbyEntries) :
    (state.currentEntries + 1).toNat = (state.heap ++ [e]).length := by
  have hlt : state.currentEntries.toNat < state.size.toNat := by
    rw [h.entries]
    exact hslot
  rw [toNat_succ hlt, h.entries, List.length_append, List.length_singleton]

/-- An update for a new string keeps the invariant. -/
theorem stored_new_bin (h : GroupbyStored format calls state) (k v : Word)
    (hroom : ((calls ++ [(k, v)]).map Prod.fst).eraseDups.length ≤ state.size.toNat)
    (hfind : state.htab.find (format k) = none) :
    ∃ state', groupbyUpdate Htab.hsearch (format k) state k v = some state' ∧
      GroupbyStored format (calls ++ [(k, v)]) state' ∧ state'.size = state.size := by
  have hnew : k ∉ calls.map Prod.fst := h.not_mem_iff.mpr fun e he hk =>
    (h.table.lookup_eq_none_iff k).mp hfind e he (congrArg format hk)
  have hslot := h.slot v hroom hnew
  have hle := h.table.entries_length_le
  obtain ⟨ptrs, hwrite, hholds, hlen⟩ := h.push hslot
  have henter : Htab.hsearch.enter state.htab (format k) state.heap.length = _ :=
    Htab.enter_new hfind
      (fun c hc => Nat.lt_of_le_of_lt hle (Nat.lt_of_lt_of_le hslot (h.capacity c hc))) _
  have hupdate := groupbyUpdate_new_bin (H := Htab.hsearch) k v hfind hwrite
  rw [henter, Option.getD_some] at hupdate
  refine ⟨_, hupdate, ?_, rfl⟩
  exact {
    table := h.table.insert (x := (⟨k, v, none⟩ : GroupbyEntries)) hfind rfl
    keys := by
      rw [List.map_append, List.map_append, h.keys, List.map_singleton, List.map_singleton,
        eraseDups_concat_of_not_mem hnew]
    values := fun e he => by
      rcases List.mem_append.mp he with he | he
      · exact h.values_new hnew v he
      · rw [List.mem_singleton.mp he]
        exact .first hnew
    pointers := by
      rw [List.length_append, List.length_singleton]
      exact hholds
    entries := h.entries_succ hslot _
    bins := by
      have hlt : state.currentHashBins.toNat < state.size.toNat := by
        rw [h.bins]
        exact Nat.lt_of_le_of_lt hle hslot
      rw [toNat_succ hlt, h.bins, List.length_append, List.length_singleton]
    room := hlen
    capacity := h.capacity }

/-- An update for a new key under a string in use keeps the invariant. -/
theorem stored_new_key (h : GroupbyStored format calls state) (k v : Word) {head last : Nat}
    {y : GroupbyEntries}
    (hroom : ((calls ++ [(k, v)]).map Prod.fst).eraseDups.length ≤ state.size.toNat)
    (hfind : state.htab.find (format k) = some head)
    (hwalk : walk k state.heap (state.heap.length + 1) (some head) none = some (none, some last))
    (hlast : (positions (binsOf format state.heap) (format k)).getLast? = some last)
    (hy : state.heap[last]? = some y) (hkey : ∀ e ∈ state.heap, e.key ≠ k) :
    ∃ state', groupbyUpdate Htab.hsearch (format k) state k v = some state' ∧
      GroupbyStored format (calls ++ [(k, v)]) state' ∧ state'.size = state.size := by
  have hnew : k ∉ calls.map Prod.fst := h.not_mem_iff.mpr hkey
  have hslot := h.slot v hroom hnew
  obtain ⟨ptrs, hwrite, hholds, hlen⟩ := h.push hslot
  have hy' : (state.heap ++ [⟨k, v, none⟩])[last]? = some y := by
    rw [List.getElem?_append_left (List.getElem?_eq_some_iff.mp hy).1, hy]
  refine ⟨_, groupbyUpdate_new_key v hfind hwalk hy hwrite, ?_, rfl⟩
  exact {
    table := h.table.append (x := (⟨k, v, none⟩ : GroupbyEntries)) hlast hy hkey rfl
    keys := by
      have hsame : GroupbyEntries.key {y with next := some state.heap.length} = y.key := rfl
      rw [map_set_of_eq GroupbyEntries.key hy' hsame, List.map_append, List.map_append, h.keys,
        List.map_singleton, List.map_singleton, eraseDups_concat_of_not_mem hnew]
    values := fun e he => by
      rcases List.mem_or_eq_of_mem_set he with he | rfl
      · rcases List.mem_append.mp he with he | he
        · exact h.values_new hnew v he
        · rw [List.mem_singleton.mp he]
          exact .first hnew
      · exact h.values_new hnew v (e := y) (List.mem_of_getElem? hy)
    pointers := by
      rw [List.length_set, List.length_append, List.length_singleton]
      exact hholds
    entries := by
      rw [List.length_set]
      exact h.entries_succ hslot _
    bins := h.bins
    room := hlen
    capacity := h.capacity }

/-- A repeated key is no new one. -/
theorem GroupbyStored.keys_repeat (h : GroupbyStored format calls state) {node : GroupbyEntries}
    (hmem : node ∈ state.heap) (v : Word) :
    ((calls ++ [(node.key, v)]).map Prod.fst).eraseDups = (calls.map Prod.fst).eraseDups := by
  have hold : node.key ∈ calls.map Prod.fst := (h.mem_keys _).mpr ⟨node, hmem, rfl⟩
  rw [List.map_append, List.map_singleton, eraseDups_concat_of_mem hold]

/-- The invariant when a node takes a larger value. -/
theorem GroupbyStored.raise (h : GroupbyStored format calls state) {bin : Nat} {node : GroupbyEntries}
    (hnode : state.heap[bin]? = some node) {v : Word} (hlt : node.value < v) :
    GroupbyStored format (calls ++ [(node.key, v)])
      { state with heap := state.heap.set bin {node with value := v} } where
  table := h.table.modify hnode rfl rfl
  keys := by
    have hsame : GroupbyEntries.key {node with value := v} = node.key := rfl
    rw [map_set_of_eq GroupbyEntries.key hnode hsame, h.keys_repeat (List.mem_of_getElem? hnode), h.keys]
  values := fun e he => by
    rcases h.table.eq_or_key_ne_of_mem_set hnode he with rfl | ⟨he, hother⟩
    · exact (h.values node (List.mem_of_getElem? hnode)).raise hlt
    · exact (h.values e he).other hother
  pointers := by
    rw [List.length_set]
    exact h.pointers
  entries := by rw [List.length_set, h.entries]
  bins := h.bins
  room := h.room
  capacity := h.capacity

/-- The invariant when the value of the node is at least the new one. -/
theorem GroupbyStored.keep (h : GroupbyStored format calls state) {node : GroupbyEntries}
    (hmem : node ∈ state.heap) {v : Word} (hle : v ≤ node.value) :
    GroupbyStored format (calls ++ [(node.key, v)]) state :=
  { h with
    keys := by rw [h.keys_repeat hmem, h.keys]
    values := fun e he => by
      by_cases hk : e.key = node.key
      · rw [h.table.eq_of_key he hmem hk]
        exact (h.values node hmem).keep hle
      · exact (h.values e he).other hk }

/-- An update for a key that has a node keeps the invariant. -/
theorem stored_repeat (h : GroupbyStored format calls state) (k v : Word) {head bin : Nat}
    {binPrev : Option Nat} {node : GroupbyEntries}
    (hfind : state.htab.find (format k) = some head)
    (hwalk : walk k state.heap (state.heap.length + 1) (some head) none = some (some bin, binPrev))
    (hnode : state.heap[bin]? = some node) (hk : node.key = k) :
    ∃ state', groupbyUpdate Htab.hsearch (format k) state k v = some state' ∧
      GroupbyStored format (calls ++ [(k, v)]) state' ∧ state'.size = state.size := by
  subst hk
  have hupdate := groupbyUpdate_repeat (H := Htab.hsearch) v hfind hwalk hnode
  by_cases hlt : node.value < v
  · rw [if_pos hlt] at hupdate
    exact ⟨_, hupdate, h.raise hnode hlt, rfl⟩
  · rw [if_neg hlt] at hupdate
    exact ⟨_, hupdate, h.keep (List.mem_of_getElem? hnode) (BitVec.not_lt.mp hlt), rfl⟩

/-- **One update** keeps the invariant while there is room for the distinct keys. -/
theorem stored_update (h : GroupbyStored format calls state) (k v : Word)
    (hroom : ((calls ++ [(k, v)]).map Prod.fst).eraseDups.length ≤ state.size.toNat) :
    ∃ state', groupbyUpdate Htab.hsearch (format k) state k v = some state' ∧
      GroupbyStored format (calls ++ [(k, v)]) state' ∧ state'.size = state.size := by
  cases hfind : state.htab.find (format k) with
  | none => exact stored_new_bin h k v hroom hfind
  | some head =>
    rcases h.table.search hfind with ⟨bin, node, prev, hwalk, hnode, hk⟩ | ⟨last, y, hwalk, hlast, hy, _, hkey⟩
    · exact stored_repeat h k v hfind hwalk hnode hk
    · exact stored_new_key h k v hroom hfind hwalk hlast hy hkey

/-- **Any run** of updates with room for its distinct keys keeps the invariant. -/
theorem stored_run (h : GroupbyStored format calls state) (rest : List (Word × Word))
    (hroom : ((calls ++ rest).map Prod.fst).eraseDups.length ≤ state.size.toNat) :
    ∃ state', groupbyRun Htab.hsearch format state rest = some state' ∧
      GroupbyStored format (calls ++ rest) state' := by
  induction rest generalizing calls state with
  | nil => exact ⟨state, rfl, by rwa [List.append_nil]⟩
  | cons call rest ih =>
    obtain ⟨k, v⟩ := call
    have hone : ((calls ++ [(k, v)]).map Prod.fst).eraseDups.length ≤ state.size.toNat := by
      refine Nat.le_trans ?_ hroom
      rw [show (calls ++ (k, v) :: rest).map Prod.fst =
        (calls ++ [(k, v)]).map Prod.fst ++ rest.map Prod.fst by simp]
      exact length_eraseDups_le_of_subset (List.subset_append_left _ _)
    obtain ⟨state', hupdate, hstored, hsize⟩ := stored_update h k v hone
    obtain ⟨last, hrun, hlast⟩ := ih hstored (by rw [hsize]; simpa using hroom)
    refine ⟨last, ?_, by simpa using hlast⟩
    simp only [groupbyRun, hupdate, Option.bind_eq_bind, Option.bind_some, hrun]

/-- What the pointers lead to are the nodes, in the order they were made. -/
theorem GroupbyStored.view (h : GroupbyStored format calls state) :
    groupbyView state = (state.heap.map fun e => (e.key, e.value)).map some := by
  refine List.ext_getElem (by simp [groupbyView, h.entries]) fun i hi hi' => ?_
  have hlt : i < state.heap.length := by simpa using hi'
  have hread : state.ptrArray.read i = some i := by
    rw [h.pointers.read (by rwa [List.length_range]), List.getElem_range]
  simp [groupbyView, groupbyEntry, hread, hlt]

/-- The value found for a key is its maximum. -/
theorem GroupbyStored.map_eq_some (h : GroupbyStored format calls state) (k v : Word) :
    groupbyMap state k = some v ↔ IsMaxOf calls k v := by
  have hmap : groupbyMap state k = (state.heap.map fun e => (e.key, e.value)).lookup k := by
    rw [groupbyMap, h.view, List.filterMap_map]
    exact congrArg (List.lookup k) List.filterMap_some
  have hmax : ∀ w, groupbyMap state k = some w → IsMaxOf calls k w := by
    intro w hw
    rw [hmap, List.lookup_eq_some_iff] at hw
    obtain ⟨l₁, l₂, hl, _⟩ := hw
    have hmem : (k, w) ∈ state.heap.map fun e => (e.key, e.value) := by
      rw [hl]
      exact List.mem_append_right _ (List.mem_cons_self ..)
    obtain ⟨e, he, hkw⟩ := List.mem_map.mp hmem
    cases hkw
    exact h.values e he
  refine ⟨hmax v, fun hv => ?_⟩
  cases hw : groupbyMap state k with
  | some w => rw [(hmax w hw).unique hv]
  | none =>
    obtain ⟨e, he, hk⟩ := (h.mem_keys k).mp (List.mem_map.mpr ⟨_, hv.1, rfl⟩)
    rw [hmap, List.lookup_eq_none_iff] at hw
    have hne := hw _ (List.mem_map.mpr ⟨e, he, rfl⟩)
    simp [hk] at hne

/-- What a chain leads to are the nodes of its bin. -/
theorem GroupbyStored.chain (h : GroupbyStored format calls state) (b : κ) :
    groupbyChain Htab.hsearch state b =
      some ((state.heap.map fun e => (e.key, e.value)).filter fun e => format e.1 = b) := by
  rw [groupbyChain, show Htab.hsearch.find state.htab b = state.htab.entries.lookup b from rfl,
    h.table.readChain_eq b, Option.map_some, List.filter_map]
  rfl

/-- There is one bin for each string among the keys. -/
theorem GroupbyStored.bins_eq (h : GroupbyStored format calls state) :
    state.currentHashBins.toNat = ((state.heap.map fun e => format e.key).eraseDups).length := by
  rw [h.bins, ← List.length_map, h.table.bins]
  rfl

/-- **The group-by store.** However the strings of the keys collide, updates with at
most `size` distinct keys leave, behind `ptr_array`, every key once, in order of first
occurrence, with the largest value given for it; and behind the entries of the hash
table, the same nodes divided by string. -/
theorem groupby_store (hc : Hcreate) (format : Word → κ) (size : Word) (calls : List (Word × Word))
    (hroom : (calls.map Prod.fst).eraseDups.length ≤ size.toNat) :
    ∃ (state : GroupbyState (Htab κ)) (es : List (Word × Word)),
      groupbyRun Htab.hsearch format (groupbyInit (hc.create size.toNat) size) calls = some state ∧
      groupbyView state = es.map some ∧ es.map Prod.fst = (calls.map Prod.fst).eraseDups ∧
      (∀ e ∈ es, IsMaxOf calls e.1 e.2) ∧
      (∀ b, groupbyChain Htab.hsearch state b = some (es.filter fun e => format e.1 = b)) ∧
      state.currentHashBins.toNat = ((es.map fun e => format e.1).eraseDups).length := by
  obtain ⟨state, hrun, h⟩ := stored_run (groupbyStored_init format hc size) calls hroom
  refine ⟨state, state.heap.map fun e => (e.key, e.value), hrun, h.view, ?_, ?_, h.chain, ?_⟩
  · rw [List.map_map]
    exact h.keys
  · intro e he
    obtain ⟨node, hnode, rfl⟩ := List.mem_map.mp he
    exact h.values node hnode
  · rw [List.map_map]
    exact h.bins_eq

/-- Three keys of which two share a string, in a store for three. -/
theorem groupby_store_three :
    ∃ (state : GroupbyState (Htab Word)) (es : List (Word × Word)),
      groupbyRun Htab.hsearch (fun k : Word => k % 2) (groupbyInit (Hcreate.unbounded.create 3) 3)
        [(5, 9), (7, 1), (5, 12), (4, 3)] = some state ∧
      groupbyView state = es.map some ∧ es.map Prod.fst = [5, 7, 4] ∧
      (∀ e ∈ es, IsMaxOf [(5, 9), (7, 1), (5, 12), (4, 3)] e.1 e.2) ∧
      (∀ b, groupbyChain Htab.hsearch state b = some (es.filter fun e => e.1 % 2 = b)) ∧
      state.currentHashBins.toNat = ((es.map fun e => e.1 % 2).eraseDups).length :=
  groupby_store Hcreate.unbounded (fun k => k % 2) 3 [(5, 9), (7, 1), (5, 12), (4, 3)] (by decide)

end Invariant
end Cheetah.Host.AggregateProcessing
