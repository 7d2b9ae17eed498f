import Cheetah.Host.DistinctStore
import Cheetah.Host.GroupbyStore

/-! The capacity of the stores of `cheetah_aggregate_processing.c`.

Neither store compares its counters with `size` before it writes. A run that `Respects` the
size stays inside the arrays and leaves the state alone where there is no room; the runs of
the stores do exactly when their values, or keys, fit. -/
namespace Cheetah.Host.AggregateProcessing
open Lib

/-! ### Respecting a size -/

section Respects
variable {σ α : Type} (update : σ → α → Option σ) (entries : σ → Nat) (unstorable : σ → α → Prop)
  (size : Nat)

/-- Every update of a run has a result, none counts more entries than `size`, and one that
cannot be stored changes nothing. -/
def Respects : σ → List α → Prop
  | s, [] => entries s ≤ size
  | s, a :: rest =>
    entries s ≤ size ∧ ∃ s', update s a = some s' ∧ (unstorable s a → s' = s) ∧ Respects s' rest

variable {update entries unstorable size}

/-- A run respects a size exactly when its inputs fit, if an invariant holds of every state
while they do, and there is no result once they do not. -/
theorem respects_iff (I : List α → σ → Prop) (fits : List α → Prop)
    (hmono : ∀ l m, fits (l ++ m) → fits l)
    (hentries : ∀ l s, I l s → fits l ∧ entries s ≤ size)
    (hstep : ∀ l s a, I l s → fits (l ++ [a]) →
      ¬ unstorable s a ∧ ∃ s', update s a = some s' ∧ I (l ++ [a]) s')
    (hover : ∀ l s a, I l s → ¬ fits (l ++ [a]) → update s a = none)
    {l : List α} {s : σ} (h : I l s) (rest : List α) :
    Respects update entries unstorable size s rest ↔ fits (l ++ rest) := by
  obtain ⟨hfits, hle⟩ := hentries l s h
  induction rest generalizing l s with
  | nil =>
    rw [List.append_nil]
    exact ⟨fun _ => hfits, fun _ => hle⟩
  | cons a rest ih =>
    have hsplit : l ++ a :: rest = (l ++ [a]) ++ rest := by simp
    by_cases hone : fits (l ++ [a])
    · obtain ⟨hstorable, s', hupdate, h'⟩ := hstep l s a h hone
      obtain ⟨hfits', hle'⟩ := hentries _ s' h'
      rw [hsplit, ← ih h' hfits' hle']
      constructor
      · intro hrun
        obtain ⟨_, t, ht, _, hrest⟩ := hrun
        rw [hupdate] at ht
        rwa [Option.some.inj ht]
      · intro hrest
        exact ⟨hle, s', hupdate, fun hun => absurd hun hstorable, hrest⟩
    · constructor
      · intro hrun
        obtain ⟨_, t, ht, _⟩ := hrun
        rw [hover l s a h hone] at ht
        cases ht
      · intro hall
        rw [hsplit] at hall
        exact absurd (hmono _ _ hall) hone

end Respects

/-! ### The distinct store -/

section Distinct
variable {τ κ : Type}

/-- A value without a node for which there is no slot, or whose string the hash table does
not take. -/
def DistinctUnstorable (H : Hsearch τ κ) (format : Value → κ) (state : DistinctState τ) (value : Value) :
    Prop :=
  (∀ e ∈ state.heap, e.value ≠ value) ∧
    (state.size.toNat ≤ state.currentEntries.toNat ∨
      H.find state.htab (format value) = none ∧
        (state.size.toNat ≤ state.currentHashBins.toNat ∨
          H.enter state.htab (format value) state.heap.length = none))

/-- A run of the distinct store that respects its size. -/
abbrev DistinctRespects (H : Hsearch τ κ) (format : Value → κ) (size : Word) (state : DistinctState τ)
    (values : List Value) : Prop :=
  Respects (fun state value => distinctUpdate H (format value) state value)
    (fun state => state.currentEntries.toNat) (DistinctUnstorable H format) size.toNat state values

variable [DecidableEq κ] {format : Value → κ} {values : List Value} {state : DistinctState (Htab κ)}

theorem DistinctStored.le_size (h : DistinctStored format values state) :
    values.eraseDups.length ≤ state.size.toNat := by
  rw [← h.resultRoom]
  exact h.results.length_le

/-- A new value that fits has a slot, and its string a place in the table. -/
theorem DistinctStored.storable (h : DistinctStored format values state) {v : Value}
    (hroom : (values ++ [v]).eraseDups.length ≤ state.size.toNat) :
    ¬ DistinctUnstorable Htab.hsearch format state v := by
  intro hun
  obtain ⟨hnone, hfull⟩ := hun
  rw [length_eraseDups_concat (h.not_mem_iff.mpr hnone)] at hroom
  have hbins := h.table.entries_length_le
  rw [h.length_heap] at hbins
  rcases hfull with hentries | ⟨hfind, hptrs | henter⟩
  · rw [h.entries] at hentries
    omega
  · rw [h.bins] at hptrs
    omega
  · have hentered : Htab.hsearch.enter state.htab (format v) state.heap.length = _ :=
      Htab.enter_new hfind (fun c hc => by have := h.capacity c hc; omega) _
    rw [hentered] at henter
    cases henter

/-- Without a slot for its value, an update writes behind `result_array`. -/
theorem DistinctStored.overrun (h : DistinctStored format values state) {v : Value}
    (hroom : ¬ (values ++ [v]).eraseDups.length ≤ state.size.toNat) :
    distinctUpdate Htab.hsearch (format v) state v = none := by
  have hnew : v ∉ values := by
    intro hold
    rw [eraseDups_concat_of_mem hold] at hroom
    exact hroom h.le_size
  have hvalue := h.not_mem_iff.mp hnew
  have hwrite : state.resultArray.write state.currentEntries.toNat v = none := by
    rw [length_eraseDups_concat hnew] at hroom
    refine if_neg ?_
    rw [h.resultRoom, h.entries]
    omega
  cases hfind : state.htab.find (format v) with
  | none =>
    have hfind' : Htab.hsearch.find state.htab (format v) = none := hfind
    simp [distinctUpdate, hfind', hwrite]
  | some head =>
    have hfind' : Htab.hsearch.find state.htab (format v) = some head := hfind
    rcases h.table.search hfind with ⟨bin, node, prev, _, hnode, hv⟩ | ⟨last, y, hwalk, _, _, _, _⟩
    · exact absurd hv (hvalue node (List.mem_of_getElem? hnode))
    · simp [distinctUpdate, hfind', hwalk, malloc, hwrite]

/-- The distinct store respects its size exactly when its values fit. -/
theorem distinctRespects_iff (h : DistinctStored format values state) (rest : List Value) :
    DistinctRespects Htab.hsearch format state.size state rest ↔
      (values ++ rest).eraseDups.length ≤ state.size.toNat := by
  refine respects_iff (fun values s => DistinctStored format values s ∧ s.size = state.size)
    (fun values => values.eraseDups.length ≤ state.size.toNat)
    (fun l m hall => Nat.le_trans (length_eraseDups_le_of_subset (List.subset_append_left _ _)) hall)
    ?_ ?_ ?_ ⟨h, rfl⟩ rest
  · intro l s hs
    obtain ⟨hs, hsize⟩ := hs
    have hle := hs.le_size
    rw [hsize] at hle
    exact ⟨hle, by rw [hs.entries]; exact hle⟩
  · intro l s v hs hroom
    obtain ⟨hs, hsize⟩ := hs
    rw [← hsize] at hroom
    obtain ⟨s', hupdate, hs', hsize'⟩ := distinctStored_update hs v hroom
    exact ⟨hs.storable hroom, s', hupdate, hs', hsize'.trans hsize⟩
  · intro l s v hs hroom
    obtain ⟨hs, hsize⟩ := hs
    rw [← hsize] at hroom
    exact hs.overrun hroom

end Distinct

/-! ### The group-by store -/

section Groupby
variable {τ κ : Type}

/-- A key without a node for which there is no slot, or whose string the hash table does
not take. -/
def GroupbyUnstorable (H : Hsearch τ κ) (format : Word → κ) (state : GroupbyState τ) (call : Word × Word) :
    Prop :=
  (∀ e ∈ state.heap, e.key ≠ call.1) ∧
    (state.size.toNat ≤ state.currentEntries.toNat ∨
      H.find state.htab (format call.1) = none ∧
        H.enter state.htab (format call.1) state.heap.length = none)

/-- A run of the group-by store that respects its size. -/
abbrev GroupbyRespects (H : Hsearch τ κ) (format : Word → κ) (size : Word) (state : GroupbyState τ)
    (calls : List (Word × Word)) : Prop :=
  Respects (fun state call => groupbyUpdate H (format call.1) state call.1 call.2)
    (fun state => state.currentEntries.toNat) (GroupbyUnstorable H format) size.toNat state calls

variable [DecidableEq κ] {format : Word → κ} {calls : List (Word × Word)} {state : GroupbyState (Htab κ)}

theorem GroupbyStored.length_heap (h : GroupbyStored format calls state) :
    state.heap.length = (calls.map Prod.fst).eraseDups.length := by
  rw [← h.keys, List.length_map]

theorem GroupbyStored.le_size (h : GroupbyStored format calls state) :
    (calls.map Prod.fst).eraseDups.length ≤ state.size.toNat := by
  have hle := h.pointers.length_le
  rwa [List.length_range, h.room, h.length_heap] at hle

/-- A new key that fits has a slot, and its string a place in the table. -/
theorem GroupbyStored.storable (h : GroupbyStored format calls state) {k v : Word}
    (hroom : ((calls ++ [(k, v)]).map Prod.fst).eraseDups.length ≤ state.size.toNat) :
    ¬ GroupbyUnstorable Htab.hsearch format state (k, v) := by
  intro hun
  obtain ⟨hnone, hfull⟩ := hun
  have hslot := h.slot v hroom (h.not_mem_iff.mpr hnone)
  have hbins := h.table.entries_length_le
  rcases hfull with hentries | ⟨hfind, henter⟩
  · rw [h.entries] at hentries
    omega
  · have hentered : Htab.hsearch.enter state.htab (format k) state.heap.length = _ :=
      Htab.enter_new hfind (fun c hc => by have := h.capacity c hc; omega) _
    rw [hentered] at henter
    cases henter

/-- Without a slot for its key, an update writes behind `ptr_array`. -/
theorem GroupbyStored.overrun (h : GroupbyStored format calls state) {k v : Word}
    (hroom : ¬ ((calls ++ [(k, v)]).map Prod.fst).eraseDups.length ≤ state.size.toNat) :
    groupbyUpdate Htab.hsearch (format k) state k v = none := by
  rw [List.map_append, List.map_singleton] at hroom
  have hnew : k ∉ calls.map Prod.fst := by
    intro hold
    rw [eraseDups_concat_of_mem hold] at hroom
    exact hroom h.le_size
  have hkey := h.not_mem_iff.mp hnew
  have hwrite : state.ptrArray.write state.currentEntries.toNat state.heap.length = none := by
    rw [length_eraseDups_concat hnew, ← h.length_heap] at hroom
    refine if_neg ?_
    rw [h.room, h.entries]
    omega
  cases hfind : state.htab.find (format k) with
  | none =>
    have hfind' : Htab.hsearch.find state.htab (format k) = none := hfind
    simp [groupbyUpdate, hfind', malloc, hwrite]
  | some head =>
    have hfind' : Htab.hsearch.find state.htab (format k) = some head := hfind
    rcases h.table.search hfind with ⟨bin, node, prev, _, hnode, hk⟩ | ⟨last, y, hwalk, _, _, _, _⟩
    · exact absurd hk (hkey node (List.mem_of_getElem? hnode))
    · simp [groupbyUpdate, hfind', hwalk, malloc, hwrite]

/-- The group-by store respects its size exactly when its keys fit. -/
theorem groupbyRespects_iff (h : GroupbyStored format calls state) (rest : List (Word × Word)) :
    GroupbyRespects Htab.hsearch format state.size state rest ↔
      ((calls ++ rest).map Prod.fst).eraseDups.length ≤ state.size.toNat := by
  refine respects_iff (fun calls s => GroupbyStored format calls s ∧ s.size = state.size)
    (fun calls => (calls.map Prod.fst).eraseDups.length ≤ state.size.toNat) ?_ ?_ ?_ ?_ ⟨h, rfl⟩ rest
  · intro l m hall
    rw [List.map_append] at hall
    exact Nat.le_trans (length_eraseDups_le_of_subset (List.subset_append_left _ _)) hall
  · intro l s hs
    obtain ⟨hs, hsize⟩ := hs
    have hle := hs.le_size
    rw [hsize] at hle
    exact ⟨hle, by rw [hs.entries, hs.length_heap]; exact hle⟩
  · intro l s call hs hroom
    obtain ⟨hs, hsize⟩ := hs
    rw [← hsize] at hroom
    obtain ⟨s', hupdate, hs', hsize'⟩ := stored_update hs call.1 call.2 hroom
    exact ⟨hs.storable hroom, s', hupdate, hs', hsize'.trans hsize⟩
  · intro l s call hs hroom
    obtain ⟨hs, hsize⟩ := hs
    rw [← hsize] at hroom
    exact hs.overrun hroom

end Groupby

/-! ### Both -/

section Capacity
variable {κ κ' : Type} [DecidableEq κ] [DecidableEq κ']

/-- **Capacity.** However strings collide and whatever the hash table has room for, a run of
either store from its start respects the size exactly when there are no more distinct
values, or keys, than `size`. -/
theorem capacity_respected_iff (hc : Hcreate) (format : Value → κ) (formatKey : Word → κ') (size : Word)
    (values : List Value) (calls : List (Word × Word)) :
    (DistinctRespects Htab.hsearch format size (distinctInit (hc.create size.toNat) size) values ↔
      values.eraseDups.length ≤ size.toNat) ∧
    (GroupbyRespects Htab.hsearch formatKey size (groupbyInit (hc.create size.toNat) size) calls ↔
      (calls.map Prod.fst).eraseDups.length ≤ size.toNat) :=
  ⟨distinctRespects_iff (distinctStored_init format hc size) values,
    groupbyRespects_iff (groupbyStored_init formatKey hc size) calls⟩

/-- Two values, or keys, for stores of one. -/
theorem second_entry_overruns :
    distinctRun Htab.hsearch id (distinctInit (Hcreate.unbounded.create 1) 1) [1, 2] = none ∧
    ¬ DistinctRespects Htab.hsearch id 1 (distinctInit (Hcreate.unbounded.create 1) 1) [1, 2] ∧
    groupbyRun Htab.hsearch id (groupbyInit (Hcreate.unbounded.create 1) 1) [(1, 5), (2, 5)] = none ∧
    ¬ GroupbyRespects Htab.hsearch id 1 (groupbyInit (Hcreate.unbounded.create 1) 1) [(1, 5), (2, 5)] := by
  refine ⟨by decide, ?_, by decide, ?_⟩
  · intro h
    exact absurd ((distinctRespects_iff (distinctStored_init id Hcreate.unbounded 1) [1, 2]).mp h)
      (by decide)
  · intro h
    exact absurd
      ((groupbyRespects_iff (groupbyStored_init id Hcreate.unbounded 1) [(1, 5), (2, 5)]).mp h) (by decide)

end Capacity
end Cheetah.Host.AggregateProcessing
