import Cheetah.Host.Hsearch
import Cheetah.Lib.Buffer

/-! The distinct store of `cheetah_aggregate_processing.c`.

Each distinct value is written to `result_array` and to a node of its own. Nodes of
values with the same string form a chain under one entry of the hash table, and
`ptr_array` lists the first node of each chain. `DistinctStored` keeps the array, the
chains and the two counters in step. -/
namespace Cheetah.Host.AggregateProcessing
open Lib

/-- `uint64_t`. -/
abbrev Value := BitVec 64

/-- `struct cheetah_aggregate_processing_distinct_entries`. -/
structure DistinctEntries where
  value : Value
  next : Option Nat
  deriving DecidableEq, Repr

instance : ChainNode DistinctEntries Value where
  key := DistinctEntries.value
  next := DistinctEntries.next
  setNext := fun e p => {e with next := p}
  key_setNext := fun _ _ => rfl
  next_setNext := fun _ _ => rfl

/-- `struct cheetah_aggregate_processing_distinct_state`, with the nodes its pointers lead to. -/
structure DistinctState (τ : Type) where
  currentEntries : Word
  currentHashBins : Word
  size : Word
  htab : τ
  resultArray : Buffer Value
  ptrArray : Buffer Nat
  heap : Heap DistinctEntries

section Update
variable {τ κ : Type}

/-- `cheetah_aggregate_processing_distinct_init`, given the table `hcreate_r` makes. -/
def distinctInit (htab : τ) (size : Word) : DistinctState τ where
  currentEntries := 0
  currentHashBins := 0
  size := size
  htab := htab
  resultArray := Buffer.malloc size.toNat
  ptrArray := Buffer.malloc size.toNat
  heap := []

/-- `cheetah_aggregate_processing_distinct_update`; `key` is the string `hsearch_r` is
given. No result when an array is accessed out of bounds. The assertions are compiled
out, so a failed `ENTER` changes nothing else. -/
def distinctUpdate (H : Hsearch τ κ) (key : κ) (state : DistinctState τ) (value : Value) :
    Option (DistinctState τ) :=
  match H.find state.htab key with
  | some head => do
    let (bin, binPrev) ← walk value state.heap (state.heap.length + 1) (some head) none
    match bin with
    | none =>
      let prev ← binPrev
      let last ← state.heap[prev]?
      let (node, heap) := malloc state.heap ⟨value, none⟩
      let resultArray ← state.resultArray.write state.currentEntries.toNat value
      some { state with
        heap := heap.set prev {last with next := some node}
        resultArray := resultArray
        currentEntries := state.currentEntries + 1 }
    | some _ => some state
  | none => do
    let resultArray ← state.resultArray.write state.currentEntries.toNat value
    let (node, heap) := malloc state.heap ⟨value, none⟩
    let ptrArray ← state.ptrArray.write state.currentHashBins.toNat node
    some { state with
      heap := heap
      htab := (H.enter state.htab key node).getD state.htab
      resultArray := resultArray
      currentEntries := state.currentEntries + 1
      ptrArray := ptrArray
      currentHashBins := state.currentHashBins + 1 }

/-- A sequence of updates; `format` is the string of a value. -/
def distinctRun (H : Hsearch τ κ) (format : Value → κ) (state : DistinctState τ) :
    List Value → Option (DistinctState τ)
  | [] => some state
  | value :: rest => do
    let state ← distinctUpdate H (format value) state value
    distinctRun H format state rest

variable {H : Hsearch τ κ} {key : κ} {state : DistinctState τ} {head prev bin : Nat}
  {binPrev : Option Nat} {last : DistinctEntries} {results : Buffer Value} {ptrs : Buffer Nat}

theorem distinctUpdate_new_bin (value : Value) (hfind : H.find state.htab key = none)
    (hresult : state.resultArray.write state.currentEntries.toNat value = some results)
    (hptr : state.ptrArray.write state.currentHashBins.toNat state.heap.length = some ptrs) :
    distinctUpdate H key state value = some
      { state with
        heap := state.heap ++ [⟨value, none⟩]
        htab := (H.enter state.htab key state.heap.length).getD state.htab
        resultArray := results
        currentEntries := state.currentEntries + 1
        ptrArray := ptrs
        currentHashBins := state.currentHashBins + 1 } := by
  simp [distinctUpdate, hfind, malloc, hresult, hptr]

theorem distinctUpdate_new_value (value : Value) (hfind : H.find state.htab key = some head)
    (hwalk : walk value state.heap (state.heap.length + 1) (some head) none = some (none, some prev))
    (hlast : state.heap[prev]? = some last)
    (hresult : state.resultArray.write state.currentEntries.toNat value = some results) :
    distinctUpdate H key state value = some
      { state with
        heap := (state.heap ++ [(⟨value, none⟩ : DistinctEntries)]).set prev
          {last with next := some state.heap.length}
        resultArray := results
        currentEntries := state.currentEntries + 1 } := by
  simp [distinctUpdate, hfind, hwalk, hlast, malloc, hresult]

theorem distinctUpdate_repeat (value : Value) (hfind : H.find state.htab key = some head)
    (hwalk : walk value state.heap (state.heap.length + 1) (some head) none = some (some bin, binPrev)) :
    distinctUpdate H key state value = some state := by
  simp [distinctUpdate, hfind, hwalk]

/-- An update that has a result found the value in the chain of an entry, or wrote it; the
table and the pointers change when no entry was found. -/
theorem distinctUpdate_cases {state' : DistinctState τ} {value : Value}
    (h : distinctUpdate H key state value = some state') :
    (state' = state ∧ ∃ head bin prev, H.find state.htab key = some head ∧
      walk value state.heap (state.heap.length + 1) (some head) none = some (some bin, prev)) ∨
    (state.resultArray.write state.currentEntries.toNat value = some state'.resultArray ∧
      state'.currentEntries = state.currentEntries + 1 ∧ state'.size = state.size ∧
      ((∃ head, H.find state.htab key = some head) ∧ state'.htab = state.htab ∧
          state'.currentHashBins = state.currentHashBins ∧ state'.ptrArray = state.ptrArray ∨
        H.find state.htab key = none ∧
          state'.htab = (H.enter state.htab key state.heap.length).getD state.htab ∧
          state'.currentHashBins = state.currentHashBins + 1 ∧
          state.ptrArray.write state.currentHashBins.toNat state.heap.length = some state'.ptrArray)) := by
  unfold distinctUpdate at h
  cases hfind : H.find state.htab key with
  | some head =>
    rw [hfind] at h
    obtain ⟨⟨bin, prev⟩, hwalk, h⟩ := Option.bind_eq_some_iff.mp h
    cases bin with
    | some bin => exact .inl ⟨(Option.some.inj h).symm, head, bin, prev, rfl, hwalk⟩
    | none =>
      obtain ⟨prev, _, h⟩ := Option.bind_eq_some_iff.mp h
      obtain ⟨last, _, h⟩ := Option.bind_eq_some_iff.mp h
      obtain ⟨results, hwrite, h⟩ := Option.bind_eq_some_iff.mp h
      obtain rfl := Option.some.inj h
      exact .inr ⟨hwrite, rfl, rfl, .inl ⟨⟨head, rfl⟩, rfl, rfl, rfl⟩⟩
  | none =>
    rw [hfind] at h
    obtain ⟨results, hwrite, h⟩ := Option.bind_eq_some_iff.mp h
    obtain ⟨ptrs, hptr, h⟩ := Option.bind_eq_some_iff.mp h
    obtain rfl := Option.some.inj h
    exact .inr ⟨hwrite, rfl, rfl, .inr ⟨rfl, rfl, rfl, hptr⟩⟩

end Update

/-! ### What a caller can see -/

section View
variable {τ κ : Type}

/-- `result_array[0 .. current_entries)`. -/
def distinctView (state : DistinctState τ) : List (Option Value) :=
  (List.range state.currentEntries.toNat).map state.resultArray.read

/-- What the chain under an entry of the hash table leads to. -/
def distinctChain (H : Hsearch τ κ) (state : DistinctState τ) (b : κ) : Option (List Value) :=
  (readChain state.heap (state.heap.length + 1) (H.find state.htab b)).map
    (List.map DistinctEntries.value)

/-- `ptr_array[0 .. current_hash_bins)`. -/
def distinctHeads (state : DistinctState τ) : List (Option Nat) :=
  (List.range state.currentHashBins.toNat).map state.ptrArray.read

end View

/-! ### The invariant -/

section Invariant
variable {κ : Type} [DecidableEq κ] (format : Value → κ)

/-- The store after the updates `values`. -/
structure DistinctStored (values : List Value) (state : DistinctState (Htab κ)) : Prop where
  table : ChainedTable format state.heap state.htab.entries
  nodes : state.heap.map DistinctEntries.value = values.eraseDups
  results : state.resultArray.Holds values.eraseDups
  pointers : state.ptrArray.Holds (state.htab.entries.map Prod.snd)
  entries : state.currentEntries.toNat = values.eraseDups.length
  bins : state.currentHashBins.toNat = state.htab.entries.length
  resultRoom : state.resultArray.length = state.size.toNat
  ptrRoom : state.ptrArray.length = state.size.toNat
  capacity : ∀ c, state.htab.capacity = some c → state.size.toNat ≤ c

theorem distinctStored_init (hc : Hcreate) (size : Word) :
    DistinctStored format [] (distinctInit (hc.create size.toNat) size) where
  table := .nil
  nodes := rfl
  results := Buffer.holds_nil _
  pointers := Buffer.holds_nil _
  entries := rfl
  bins := rfl
  resultRoom := by simp [distinctInit, Buffer.malloc]
  ptrRoom := by simp [distinctInit, Buffer.malloc]
  capacity := hc.holds size.toNat

variable {format} {values : List Value} {state : DistinctState (Htab κ)}

theorem DistinctStored.mem_values (h : DistinctStored format values state) (v : Value) :
    v ∈ values ↔ ∃ e ∈ state.heap, e.value = v := by
  rw [← List.mem_eraseDups, ← h.nodes, List.mem_map]

/-- A value that was not given has no node. -/
theorem DistinctStored.not_mem_iff (h : DistinctStored format values state) {v : Value} :
    v ∉ values ↔ ∀ e ∈ state.heap, e.value ≠ v := by
  rw [h.mem_values]
  push Not
  rfl

theorem DistinctStored.length_heap (h : DistinctStored format values state) :
    state.heap.length = values.eraseDups.length := by
  rw [← h.nodes, List.length_map]

/-- A new value is written to the first free slot. -/
theorem DistinctStored.push (h : DistinctStored format values state) {v : Value} (hnew : v ∉ values)
    (hroom : (values ++ [v]).eraseDups.length ≤ state.size.toNat) :
    ∃ results, state.resultArray.write state.currentEntries.toNat v = some results ∧
      results.Holds (values ++ [v]).eraseDups ∧ results.length = state.size.toNat ∧
      (state.currentEntries + 1).toNat = (values ++ [v]).eraseDups.length := by
  rw [eraseDups_concat_of_not_mem hnew] at hroom ⊢
  rw [List.length_append, List.length_singleton] at hroom ⊢
  have hlt : state.currentEntries.toNat < state.size.toNat := by
    rw [h.entries]
    exact hroom
  have hfree : values.eraseDups.length < state.resultArray.length := by
    rw [h.resultRoom]
    exact hroom
  obtain ⟨results, hwrite, hholds, hlen⟩ := h.results.write_end hfree v
  refine ⟨results, ?_, hholds, hlen.trans h.resultRoom, ?_⟩
  · rw [h.entries]
    exact hwrite
  · rw [toNat_succ hlt, h.entries]

/-- An update for a new string keeps the invariant. -/
theorem distinctStored_new_bin (h : DistinctStored format values state) (v : Value)
    (hroom : (values ++ [v]).eraseDups.length ≤ state.size.toNat)
    (hfind : state.htab.find (format v) = none) :
    ∃ state', distinctUpdate Htab.hsearch (format v) state v = some state' ∧
      DistinctStored format (values ++ [v]) state' ∧ state'.size = state.size := by
  have hnew : v ∉ values := h.not_mem_iff.mpr fun e he hv =>
    (h.table.lookup_eq_none_iff v).mp hfind e he (congrArg format hv)
  obtain ⟨results, hresult, hholds, hresults, hentries⟩ := h.push hnew hroom
  -- there are no more bins than values, so there is a slot for the new bin too
  have hbins : state.htab.entries.length < state.size.toNat := by
    rw [length_eraseDups_concat hnew, ← h.length_heap] at hroom
    exact Nat.lt_of_le_of_lt h.table.entries_length_le hroom
  have hfree : (state.htab.entries.map Prod.snd).length < state.ptrArray.length := by
    rw [List.length_map, h.ptrRoom]
    exact hbins
  obtain ⟨ptrs, hptr, hptrs, hlen⟩ := h.pointers.write_end hfree state.heap.length
  rw [List.length_map, ← h.bins] at hptr
  have henter : Htab.hsearch.enter state.htab (format v) state.heap.length = _ :=
    Htab.enter_new hfind (fun c hc => Nat.lt_of_lt_of_le hbins (h.capacity c hc)) _
  have hupdate := distinctUpdate_new_bin (H := Htab.hsearch) v hfind hresult hptr
  rw [henter, Option.getD_some] at hupdate
  refine ⟨_, hupdate, ?_, rfl⟩
  exact {
    table := h.table.insert (x := (⟨v, none⟩ : DistinctEntries)) hfind rfl
    nodes := by
      rw [List.map_append, List.map_singleton, h.nodes, eraseDups_concat_of_not_mem hnew]
    results := hholds
    pointers := by
      rw [List.map_append, List.map_singleton]
      exact hptrs
    entries := hentries
    bins := by
      have hlt : state.currentHashBins.toNat < state.size.toNat := by
        rw [h.bins]
        exact hbins
      rw [toNat_succ hlt, h.bins, List.length_append, List.length_singleton]
    resultRoom := hresults
    ptrRoom := hlen.trans h.ptrRoom
    capacity := h.capacity }

/-- An update for a new value under a string in use keeps the invariant. -/
theorem distinctStored_new_value (h : DistinctStored format values state) (v : Value)
    {head last : Nat} {y : DistinctEntries}
    (hroom : (values ++ [v]).eraseDups.length ≤ state.size.toNat)
    (hfind : state.htab.find (format v) = some head)
    (hwalk : walk v state.heap (state.heap.length + 1) (some head) none = some (none, some last))
    (hlast : (positions (binsOf format state.heap) (format v)).getLast? = some last)
    (hy : state.heap[last]? = some y) (hvalue : ∀ e ∈ state.heap, e.value ≠ v) :
    ∃ state', distinctUpdate Htab.hsearch (format v) state v = some state' ∧
      DistinctStored format (values ++ [v]) state' ∧ state'.size = state.size := by
  have hnew : v ∉ values := h.not_mem_iff.mpr hvalue
  obtain ⟨results, hresult, hholds, hresults, hentries⟩ := h.push hnew hroom
  refine ⟨_, distinctUpdate_new_value (H := Htab.hsearch) v hfind hwalk hy hresult, ?_, rfl⟩
  exact {
    table := h.table.append (x := (⟨v, none⟩ : DistinctEntries)) hlast hy hvalue rfl
    nodes := by
      have hy' : (state.heap ++ [⟨v, none⟩])[last]? = some y := by
        rw [List.getElem?_append_left (List.getElem?_eq_some_iff.mp hy).1, hy]
      have hsame : DistinctEntries.value {y with next := some state.heap.length} = y.value := rfl
      rw [map_set_of_eq DistinctEntries.value hy' hsame, List.map_append, List.map_singleton, h.nodes,
        eraseDups_concat_of_not_mem hnew]
    results := hholds
    pointers := h.pointers
    entries := hentries
    bins := h.bins
    resultRoom := hresults
    ptrRoom := h.ptrRoom
    capacity := h.capacity }

/-- **One update** keeps the invariant while there is room for the distinct values. -/
theorem distinctStored_update (h : DistinctStored format values state) (v : Value)
    (hroom : (values ++ [v]).eraseDups.length ≤ state.size.toNat) :
    ∃ state', distinctUpdate Htab.hsearch (format v) state v = some state' ∧
      DistinctStored format (values ++ [v]) state' ∧ state'.size = state.size := by
  cases hfind : state.htab.find (format v) with
  | none => exact distinctStored_new_bin h v hroom hfind
  | some head =>
    rcases h.table.search hfind with ⟨bin, node, prev, hwalk, hnode, hv⟩ | ⟨last, y, hwalk, hlast, hy, _, hvalue⟩
    · have hold : v ∈ values := (h.mem_values v).mpr ⟨node, List.mem_of_getElem? hnode, hv⟩
      refine ⟨state, distinctUpdate_repeat (H := Htab.hsearch) v hfind hwalk, ?_, rfl⟩
      have hsame := eraseDups_concat_of_mem hold
      exact {
        h with
        nodes := h.nodes.trans hsame.symm
        results := by
          rw [hsame]
          exact h.results
        entries := by rw [hsame, h.entries] }
    · exact distinctStored_new_value h v hroom hfind hwalk hlast hy hvalue

/-- **Any run** of updates with room for its distinct values keeps the invariant. -/
theorem distinctStored_run (h : DistinctStored format values state) (rest : List Value)
    (hroom : (values ++ rest).eraseDups.length ≤ state.size.toNat) :
    ∃ state', distinctRun Htab.hsearch format state rest = some state' ∧
      DistinctStored format (values ++ rest) state' := by
  induction rest generalizing values state with
  | nil => exact ⟨state, rfl, by rwa [List.append_nil]⟩
  | cons v rest ih =>
    have hsplit : values ++ v :: rest = (values ++ [v]) ++ rest := by simp
    rw [hsplit] at hroom ⊢
    have hone : (values ++ [v]).eraseDups.length ≤ state.size.toNat :=
      Nat.le_trans (length_eraseDups_le_of_subset (List.subset_append_left _ _)) hroom
    obtain ⟨state', hupdate, hstored, hsize⟩ := distinctStored_update h v hone
    obtain ⟨last, hrun, hlast⟩ := ih hstored (by rw [hsize]; exact hroom)
    refine ⟨last, ?_, hlast⟩
    simp only [distinctRun, hupdate, Option.bind_eq_bind, Option.bind_some, hrun]

/-- `result_array` lists the distinct values. -/
theorem DistinctStored.view (h : DistinctStored format values state) :
    distinctView state = values.eraseDups.map some := by
  rw [distinctView, h.entries]
  exact h.results.map_read

/-- What a chain leads to are the values of its bin. -/
theorem DistinctStored.chain (h : DistinctStored format values state) (b : κ) :
    distinctChain Htab.hsearch state b = some (values.eraseDups.filter fun v => format v = b) := by
  rw [distinctChain, show Htab.hsearch.find state.htab b = state.htab.entries.lookup b from rfl,
    h.table.readChain_eq b, Option.map_some, ← h.nodes, List.filter_map]
  rfl

/-- `ptr_array` lists the heads of the chains. -/
theorem DistinctStored.heads (h : DistinctStored format values state) :
    distinctHeads state = ((values.map format).eraseDups).map (Htab.hsearch.find state.htab) := by
  have hbins : (binsOf format state.heap).eraseDups = (values.map format).eraseDups := by
    rw [← eraseDups_map_eraseDups format values, ← h.nodes, List.map_map]
    rfl
  have hlen : state.currentHashBins.toNat = (state.htab.entries.map Prod.snd).length := by
    rw [h.bins, List.length_map]
  rw [distinctHeads, hlen, h.pointers.map_read, ← h.table.heads, hbins]
  rfl

/-- No two bins share a head, since their chains differ. -/
theorem DistinctStored.heads_nodup (h : DistinctStored format values state) :
    (distinctHeads state).Nodup := by
  rw [h.heads]
  refine List.Nodup.map_on (fun b hb c hc heq => ?_) (nodup_eraseDups _)
  obtain ⟨v, hv, rfl⟩ := List.mem_map.mp (List.mem_eraseDups.mp hb)
  have hchains : distinctChain Htab.hsearch state (format v) = distinctChain Htab.hsearch state c := by
    rw [distinctChain, distinctChain, heq]
  rw [h.chain, h.chain, Option.some.injEq] at hchains
  have hmem : v ∈ values.eraseDups.filter fun w => format w = format v :=
    List.mem_filter.mpr ⟨List.mem_eraseDups.mpr hv, decide_eq_true rfl⟩
  rw [hchains] at hmem
  exact of_decide_eq_true (List.mem_filter.mp hmem).2

/-- **The distinct store.** However the strings of the values collide, updates with at
most `size` distinct values leave every value once in `result_array`, in order of first
occurrence; the chains divide the same values by string, and `ptr_array` lists the head
of each chain once. -/
theorem distinct_store (hc : Hcreate) (format : Value → κ) (size : Word) (values : List Value)
    (hroom : values.eraseDups.length ≤ size.toNat) :
    ∃ state : DistinctState (Htab κ),
      distinctRun Htab.hsearch format (distinctInit (hc.create size.toNat) size) values = some state ∧
      distinctView state = values.eraseDups.map some ∧
      (∀ b, distinctChain Htab.hsearch state b = some (values.eraseDups.filter fun v => format v = b)) ∧
      distinctHeads state = ((values.map format).eraseDups).map (Htab.hsearch.find state.htab) ∧
      (distinctHeads state).Nodup := by
  obtain ⟨state, hrun, h⟩ := distinctStored_run (distinctStored_init format hc size) values hroom
  exact ⟨state, hrun, h.view, h.chain, h.heads, h.heads_nodup⟩

/-- Three values of which two share a string, in a store for three. -/
theorem distinct_store_three :
    ∃ state : DistinctState (Htab Value),
      distinctRun Htab.hsearch (fun v => v % 2) (distinctInit (Hcreate.unbounded.create 3) 3)
        [10, 11, 10, 13] = some state ∧
      distinctView state = [some 10, some 11, some 13] ∧
      (∀ b, distinctChain Htab.hsearch state b =
        some (([10, 11, 10, 13] : List Value).eraseDups.filter fun v => v % 2 = b)) ∧
      distinctHeads state = [0, 1].map (Htab.hsearch.find state.htab) ∧
      (distinctHeads state).Nodup :=
  distinct_store Hcreate.unbounded (fun v => v % 2) 3 [10, 11, 10, 13] (by decide)

end Invariant
end Cheetah.Host.AggregateProcessing
