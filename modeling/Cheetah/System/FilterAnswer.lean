import Cheetah.System.Completion
import Cheetah.Query.Frames
import Cheetah.DataPlane.Filtering

/-! Filtering over a whole deployment, and the script that checks it.

`cheetah_filtering.p4` remembers nothing. In every state the master has received rows that
pass and no others, and once everything has arrived it has received all of them.

`filter_offline_validator.py` counts in the datasets what should have come, but it compares
numbers with a sign and looks at every row, where the switch compares words and is sent
whole batches. `filter_validated_iff` says on which datasets the two agree. -/
namespace Cheetah.System
open Lib Host Host.StreamReceiver Host.ControlFlow Host.Master
open DataPlane (cheetahBits FlowId)
open DataPlane.Filtering (Passes)
open Query.Frames (Layout)

/-! ### The switch -/

section Switch
variable {κ : Type} {c : Config} {n : Nat} {d : Deployment c κ DataPlane.Filtering.Registers n}
variable {filterConstant : DataPlane.Word} {filterRules pruneRules : List FlowId}

/-- What `cheetah_filtering.p4` takes off a frame. -/
def filterHeader (frame : List Byte) : Option DataPlane.Filtering.Header :=
  DataPlane.Filtering.extractCheetah (cheetahBits frame)

/-- The header of a row. -/
def filterHeaderOf (row : Row c) : DataPlane.Filtering.Header :=
  ⟨row.flowId.setWidth 16, row.rowId, row.value.setWidth 32⟩

/-- The master is built for filtering, and the switch runs `cheetah_filtering.p4`. -/
structure RunsFilter (d : Deployment c κ DataPlane.Filtering.Registers n) (filterConstant : DataPlane.Word)
    (filterRules pruneRules : List FlowId) : Prop where
  layout : Layout c false 32
  query : d.query = .filter
  switch : d.switch = (DataPlane.Filtering.switch filterConstant filterRules pruneRules).comap filterHeader

theorem filterHeader_eq (hc : Layout c false 32) {frame : List Byte} {row : Row c}
    (h : unpackPayload c frame = some row) : filterHeader frame = some (filterHeaderOf row) := by
  rw [filterHeader, DataPlane.Filtering.extractCheetah,
    Query.Frames.extractOne_of_unpackPayload hc.readable hc.useKey hc.valueBits h]
  rfl

/-- No frame changes the register. -/
theorem filter_fixed (hd : RunsFilter d filterConstant filterRules pruneRules)
    (r : DataPlane.Filtering.Registers) (frame : List Byte) : d.switch.step r frame = r := by
  rw [hd.switch]
  show ((filterHeader frame).map _).getD r = r
  cases filterHeader frame with
  | none => rfl
  | some h => exact (DataPlane.Filtering.switch_packet filterConstant filterRules pruneRules r h).1

/-- A frame comes out when its row passes. -/
theorem filter_drops_eq (hd : RunsFilter d filterConstant filterRules pruneRules)
    (r : DataPlane.Filtering.Registers) {frame : List Byte} {row : Row c}
    (h : unpackPayload c frame = some row) :
    d.switch.drops r frame = !decide (Passes filterConstant filterRules pruneRules (filterHeaderOf row)) := by
  have hdrops :=
    (DataPlane.Filtering.switch_packet filterConstant filterRules pruneRules r (filterHeaderOf row)).2
  rw [hd.switch]
  show ((filterHeader frame).map _).getD true = _
  rw [filterHeader_eq hd.layout h, Option.map_some, Option.getD_some, Bool.eq_iff_iff, hdrops]
  simp

/-- What has come out of the switch is what passes of what it has read. -/
theorem filter_forwarded (hd : RunsFilter d filterConstant filterRules pruneRules) {frames : List (List Byte)}
    (hframes : ∀ frame ∈ frames, ∃ row, unpackPayload c frame = some row) :
    d.switch.forwarded d.registers frames = frames.filter fun frame =>
      (unpackPayload c frame).any fun row =>
        Passes filterConstant filterRules pruneRules (filterHeaderOf row) := by
  rw [(d.switch.forwarded_of_fixed (filter_fixed hd d.registers) frames).2]
  refine List.filter_congr fun frame hframe => ?_
  obtain ⟨row, hrow⟩ := hframes frame hframe
  rw [filter_drops_eq hd _ hrow, hrow, Option.any_some, Bool.not_not]

end Switch

/-! ### The master -/

section Master
variable {κ : Type} [DecidableEq κ] {c : Config} {n : Nat} {d : Deployment c κ DataPlane.Filtering.Registers n}
variable {s : State c κ DataPlane.Filtering.Registers n}
variable {filterConstant : DataPlane.Word} {filterRules pruneRules : List FlowId}

theorem filter_fits (hd : RunsFilter d filterConstant filterRules pruneRules) : UpdatesFit d := by
  intro rows _
  rw [hd.query, updateRows_counted d.format (show QueryType.filter.counted = true from rfl)]
  rfl

/-- The rows of the frames that came out are the rows that pass. -/
theorem rowsOf_forwarded (hd : RunsFilter d filterConstant filterRules pruneRules)
    (hs : (system d InFlight.Clear).Reached s) :
    rowsOf c (d.switch.forwarded d.registers s.read) = (rowsOf c s.read).filter fun o =>
      o.any (fun row => Passes filterConstant filterRules pruneRules (filterHeaderOf row)) = true := by
  rw [filter_forwarded hd (read_rows hd.layout.readable.unpackedBits hs), rowsOf_eq_map, rowsOf_eq_map,
    Multiset.filter_map, Multiset.filter_coe]
  simp only [Function.comp_apply, Bool.decide_eq_true]

/-- Every row the master has gone through passes. -/
theorem passes_of_mem_rowsIn (hd : RunsFilter d filterConstant filterRules pruneRules)
    (hs : (system d InFlight.Clear).Reached s) {row : Row c} (h : row ∈ rowsIn c s.bursts.flatten) :
    Passes filterConstant filterRules pruneRules (filterHeaderOf row) := by
  obtain ⟨frame, hframe, hrow⟩ := (mem_rowsIn hd.layout.readable.unpackedBits hs row).mp h
  have hmem : some row ∈ rowsOf c (d.switch.forwarded d.registers s.read) :=
    List.mem_map.mpr ⟨frame, received_forwarded (reached_inv hs) hframe, hrow⟩
  rw [rowsOf_forwarded hd hs] at hmem
  simpa using (Multiset.mem_filter.mp hmem).2

/-- Once everything has arrived, the master has gone through the rows that pass. -/
theorem rowsIn_drained (hd : RunsFilter d filterConstant filterRules pruneRules)
    (hs : (system d InFlight.Clear).Reached s) (hdrained : Drained d s) :
    ((rowsIn c s.bursts.flatten : List (Row c)) : Multiset (Row c)) =
      (allRows d : Multiset (Row c)).filter fun row =>
        Passes filterConstant filterRules pruneRules (filterHeaderOf row) := by
  have hbits := hd.layout.readable.unpackedBits
  have hinv := reached_inv hs
  have hrows := wires_rows hbits hs hdrained.handed hdrained.queue
  rw [hinv.wires, hdrained.upstream, hdrained.lostUp, Multiset.coe_nil, zero_add, zero_add,
    ← rowsOf_eq_map] at hrows
  refine Multiset.map_injective (Option.some_injective _) ?_
  calc ((rowsIn c s.bursts.flatten : List (Row c)) : Multiset (Row c)).map some
      = rowsOf c (received s.bursts) := (rowsOf_received hbits hs).symm
    _ = rowsOf c (d.switch.forwarded d.registers s.read) := by
        rw [rowsOf_eq_map, rowsOf_eq_map, forwarded_of_drained hinv hdrained]
    _ = ((allRows d : Multiset (Row c)).map some).filter fun o =>
          o.any (fun row => Passes filterConstant filterRules pruneRules (filterHeaderOf row)) = true := by
        rw [rowsOf_forwarded hd hs, hrows]
    _ = ((allRows d : Multiset (Row c)).filter fun row =>
          Passes filterConstant filterRules pruneRules (filterHeaderOf row)).map some := by
        rw [Multiset.filter_map]
        exact congrArg _ (Multiset.filter_congr fun row _ => by simp)

/-- **Filtering over the deployment**, in any run in which no packet is rewritten before it
is read. The rows the master counts were handed over and pass, each at most once, whatever
is in flight or lost. Once everything handed over has arrived they are all rows that
pass. -/
theorem filter_answer (hd : RunsFilter d filterConstant filterRules pruneRules)
    (hs : (system d InFlight.Clear).Reached s) :
    s.master.packetsReceived = BitVec.ofNat 64 (rowsIn c s.bursts.flatten).length ∧
      ((rowsIn c s.bursts.flatten : List (Row c)) : Multiset (Row c)) ≤
        (∑ i, ((handed d s i : List (Row c)) : Multiset (Row c))).filter
          (fun row => Passes filterConstant filterRules pruneRules (filterHeaderOf row)) ∧
      (Drained d s → ((rowsIn c s.bursts.flatten : List (Row c)) : Multiset (Row c)) =
        (allRows d : Multiset (Row c)).filter fun row =>
          Passes filterConstant filterRules pruneRules (filterHeaderOf row)) := by
  refine ⟨?_, ?_, rowsIn_drained hd hs⟩
  · rw [(reached_inv hs).master.packetsReceived, length_rowsIn]
  · exact Multiset.le_filter.mpr ⟨rowsIn_le hd.layout.readable.unpackedBits hs,
      fun row hrow => passes_of_mem_rowsIn hd hs hrow⟩

end Master

/-! ### The script -/

/-- `filter_offline_validator.py`, given what `int` makes of a field; `none` is an
exception. -/
def offlineCount {Field : Type} (int : Field → Option Int) (rows : List (List Field)) : Option Nat :=
  rows.foldlM (fun count row => do
    let value ← int (← row.getLast?)
    some (if value < 50 then count + 1 else count)) 0

/-- A file whose last column holds the numbers a dataset was loaded with. -/
structure Column {Field : Type} {c : Config} (int : Field → Option Int) (file : List (List Field))
    (sim : MemorySim c) (column : List Int) : Prop where
  read : file.map (fun row => row.getLast?.bind int) = column.map some
  range : ∀ v ∈ column, -2 ^ 31 ≤ v ∧ v < 2 ^ 31
  values : sim.valueArr = column.map (BitVec.ofInt c.valueBits)

section Counting
variable {α : Type} {p q : α → Bool}

theorem countP_take_le (h : ∀ v, p v = true → q v = true) (l : List α) (m : Nat) :
    (l.take m).countP p ≤ l.countP q :=
  Nat.le_trans (List.countP_mono_left fun v _ => h v) ((List.take_sublist m l).countP_le)

/-- When the first `m` have as many of a kind as the whole list has of a wider one. -/
theorem countP_take_eq_iff (h : ∀ v, p v = true → q v = true) (l : List α) (m : Nat) :
    (l.take m).countP p = l.countP q ↔ ∀ k v, l[k]? = some v → q v = true → p v = true ∧ k < m := by
  induction l generalizing m with
  | nil => simp
  | cons x rest ih =>
    cases m with
    | zero =>
      rw [List.take_zero, List.countP_nil, eq_comm, List.countP_eq_zero]
      simp only [Nat.not_lt_zero, and_false, imp_false]
      exact ⟨fun hnone k v hk => hnone v (List.mem_of_getElem? hk),
        fun hnone v hv => (List.mem_iff_getElem?.mp hv).elim fun k hk => hnone k v hk⟩
    | succ m =>
      have hle := countP_take_le h rest m
      have hsplit : (∀ k v, (x :: rest)[k]? = some v → q v = true → p v = true ∧ k < m + 1) ↔
          (q x = true → p x = true) ∧ ∀ k v, rest[k]? = some v → q v = true → p v = true ∧ k < m := by
        constructor
        · intro hall
          exact ⟨fun hq => (hall 0 x rfl hq).1,
            fun k v hk hq => ⟨(hall (k + 1) v hk hq).1, Nat.lt_of_succ_lt_succ (hall (k + 1) v hk hq).2⟩⟩
        · intro hboth k v hk hq
          cases k with
          | zero =>
            obtain rfl := Option.some.inj hk
            exact ⟨hboth.1 hq, Nat.succ_pos m⟩
          | succ k => exact ⟨(hboth.2 k v hk hq).1, Nat.succ_lt_succ (hboth.2 k v hk hq).2⟩
      rw [hsplit, ← ih m, List.take_succ_cons, List.countP_cons, List.countP_cons]
      have hx := h x
      by_cases hp : p x = true
      · simp [hp, hx hp]
      · by_cases hq : q x = true
        · simp only [hp, hq]
          simp only [Bool.false_eq_true, if_false, if_true, imp_false, not_true, false_and, iff_false]
          omega
        · simp [hp, hq]

end Counting

section Script
variable {Field : Type} {int : Field → Option Int} {c : Config} {file : List (List Field)} {column : List Int}

/-- It counts the numbers below 50. -/
theorem offlineCount_eq (h : file.map (fun row => row.getLast?.bind int) = column.map some) :
    offlineCount int file = some (column.countP fun v => v < 50) := by
  suffices hfrom : ∀ n, file.foldlM (fun count row => do
      let value ← int (← row.getLast?)
      some (if value < 50 then count + 1 else count)) n = some (n + column.countP fun v => v < 50) by
    rw [offlineCount, hfrom, Nat.zero_add]
  induction file generalizing column with
  | nil =>
    intro n
    obtain rfl := List.map_eq_nil_iff.mp h.symm
    rfl
  | cons row rest ih =>
    intro n
    cases column with
    | nil => cases h
    | cons v column =>
      obtain ⟨hrow, hrest⟩ := List.cons.inj h
      obtain ⟨field, hlast, hint⟩ := Option.bind_eq_some_iff.mp hrow
      simp only [Option.bind_eq_bind] at ih ⊢
      simp only [List.foldlM_cons, hlast, hint, Option.bind_eq_bind, Option.bind_some]
      rw [ih hrest, List.countP_cons]
      by_cases hv : v < 50
      · simp [hv, Nat.add_assoc, Nat.add_comm]
      · simp [hv]

/-- The values of the rows are those of the array. -/
theorem map_value_rows (sim : MemorySim c) : sim.rows.map Row.value = sim.valueArr := by
  refine List.ext_getElem (by rw [List.length_map, sim.length_rows, sim.length_valueArr]) fun k hk _ => ?_
  simp [MemorySim.rows]

/-- A number as the switch sees it. -/
theorem ofInt_lt_fifty {v : Int} (hlow : -2 ^ 31 ≤ v) (hhigh : v < 2 ^ 31) :
    BitVec.ofInt 32 v < (50 : DataPlane.Word) ↔ 0 ≤ v ∧ v < 50 := by
  rw [BitVec.lt_def, BitVec.toNat_ofInt, show (50 : DataPlane.Word).toNat = 50 from rfl]
  omega

/-- What the switch passes of the first rows of a dataset. -/
theorem countP_passes (hc : Layout c false 32) {filterRules pruneRules : List FlowId} {sim : MemorySim c}
    (h : Column int file sim column) (m : Nat)
    (hflows : ∀ row ∈ sim.rows.take m, (filterHeaderOf row).flowId ∈ filterRules ∧
      (filterHeaderOf row).flowId ∈ pruneRules) :
    (sim.rows.take m).countP (fun row => Passes 50 filterRules pruneRules (filterHeaderOf row)) =
      (column.take m).countP fun v => 0 ≤ v ∧ v < 50 := by
  have hrow : ∀ row ∈ sim.rows.take m, decide (Passes 50 filterRules pruneRules (filterHeaderOf row)) =
      decide ((row.value.setWidth 32 : DataPlane.Word) < 50) := by
    intro row hrow
    obtain ⟨hfilter, hprune⟩ := hflows row hrow
    simp only [Passes, hfilter, hprune, not_true, or_false]
    rfl
  have hvalue : ∀ v ∈ column.take m, decide (((BitVec.ofInt c.valueBits v).setWidth 32 : DataPlane.Word) < 50) =
      decide (0 ≤ v ∧ v < 50) := by
    intro v hv
    obtain ⟨hlow, hhigh⟩ := h.range v (List.mem_of_mem_take hv)
    have hwidth : ((BitVec.ofInt c.valueBits v).setWidth 32 : DataPlane.Word) = BitVec.ofInt 32 v := by
      rw [hc.valueBits, BitVec.setWidth_eq]
    rw [hwidth]
    exact decide_eq_decide.mpr (ofInt_lt_fifty hlow hhigh)
  calc (sim.rows.take m).countP (fun row => Passes 50 filterRules pruneRules (filterHeaderOf row))
      = (sim.rows.take m).countP fun row => (row.value.setWidth 32 : DataPlane.Word) < 50 :=
        List.countP_congr fun row hm => by rw [hrow row hm]
    _ = ((sim.rows.take m).map Row.value).countP fun v => (v.setWidth 32 : DataPlane.Word) < 50 := by
        rw [List.countP_map]
        rfl
    _ = (column.take m).countP fun v => ((BitVec.ofInt c.valueBits v).setWidth 32 : DataPlane.Word) < 50 := by
        rw [List.map_take, map_value_rows, h.values, ← List.map_take, List.countP_map]
        rfl
    _ = (column.take m).countP fun v => 0 ≤ v ∧ v < 50 :=
        List.countP_congr fun v hm => by rw [hvalue v hm]

end Script

section Validated
variable {Field κ : Type} [DecidableEq κ] {c : Config} {n : Nat}
variable {d : Deployment c κ DataPlane.Filtering.Registers n}
variable {s : State c κ DataPlane.Filtering.Registers n} {filterRules pruneRules : List FlowId}
variable {int : Field → Option Int} {file : Fin n → List (List Field)} {column : Fin n → List Int}

/-- **Where the script agrees.** With `FILTER_CONSTANT` 50 and an entry for every flow, the
script never counts fewer rows than the master has received once everything has arrived. It
counts as many exactly when no number below 50 is negative, and none is behind the last
whole batch of its dataset. -/
theorem filter_validated_iff (hd : RunsFilter d 50 filterRules pruneRules)
    (hflows : ∀ row ∈ allRows d, (filterHeaderOf row).flowId ∈ filterRules ∧
      (filterHeaderOf row).flowId ∈ pruneRules)
    (hcolumn : ∀ i, Column int (file i) (d.sim i) (column i))
    (hs : (system d InFlight.Clear).Reached s) (hdrained : Drained d s) :
    ∃ counts : Fin n → Nat, (∀ i, offlineCount int (file i) = some (counts i)) ∧
      (rowsIn c s.bursts.flatten).length ≤ ∑ i, counts i ∧
      ((rowsIn c s.bursts.flatten).length = ∑ i, counts i ↔
        ∀ i k v, (column i)[k]? = some v → v < 50 →
          0 ≤ v ∧ k < batchSize * ((d.sim i).entryCount / batchSize)) := by
  have hlength : (rowsIn c s.bursts.flatten).length =
      ∑ i, ((column i).take (batchSize * ((d.sim i).entryCount / batchSize))).countP fun v => 0 ≤ v ∧ v < 50 := by
    have hcard := congrArg Multiset.card (rowsIn_drained hd hs hdrained)
    rw [Multiset.coe_card, ← Multiset.countP_eq_card_filter, Multiset.coe_countP, allRows, List.countP_flatMap,
      ← Fin.sum_univ_def] at hcard
    rw [hcard]
    refine Finset.sum_congr rfl fun i _ => countP_passes hd.layout (hcolumn i) _ fun row hrow => hflows row ?_
    exact List.mem_flatMap.mpr ⟨i, List.mem_finRange i, hrow⟩
  have hweaker : ∀ v : Int, decide (0 ≤ v ∧ v < 50) = true → decide (v < 50) = true := by
    intro v hv
    exact decide_eq_true (of_decide_eq_true hv).2
  have hle : ∀ i ∈ Finset.univ,
      (((column i).take (batchSize * ((d.sim i).entryCount / batchSize))).countP fun v => 0 ≤ v ∧ v < 50) ≤
        (column i).countP fun v => v < 50 := fun i _ => countP_take_le hweaker _ _
  refine ⟨fun i => (column i).countP fun v => v < 50, fun i => offlineCount_eq (hcolumn i).read, ?_, ?_⟩
  · rw [hlength]
    exact Finset.sum_le_sum hle
  · rw [hlength, Finset.sum_eq_sum_iff_of_le hle]
    refine forall_congr' fun i => ?_
    rw [forall_prop_of_true (Finset.mem_univ i), countP_take_eq_iff hweaker]
    refine forall₃_congr fun k v _ => ?_
    rw [decide_eq_true_iff, decide_eq_true_iff]
    exact ⟨fun hall hv => ⟨(hall hv).1.1, (hall hv).2⟩, fun hall hv => ⟨⟨(hall hv).1, hv⟩, (hall hv).2⟩⟩

end Validated

/-! ### A worker with a column -/

/-- A negative number, 31 from 0 on, and one behind the batch. -/
def signed : List Int := -1 :: (List.range 32).map Int.ofNat

def oneFilter : Deployment valuesOnly Word DataPlane.Filtering.Registers 1 where
  nodes := ControlMessage.shippedNodes
  query := .filter
  format := ⟨id, fun value => value.setWidth 32⟩
  queries := ⟨none, none, none⟩
  switch := (DataPlane.Filtering.switch 50 [1] [1]).comap filterHeader
  registers := ⟨0⟩
  workerNodes := 1
  workerId := fun _ => 1
  state := fun _ => zeroState
  pool := fun _ => zeroPool
  port := fun _ => wholePort
  sim := fun _ => columnSim valuesOnly signed (by decide)

theorem oneFilter_runs : RunsFilter oneFilter 50 [1] [1] := ⟨⟨⟨rfl, rfl⟩, rfl, rfl⟩, rfl, rfl⟩

theorem oneFilter_flows : ∀ row ∈ allRows oneFilter,
    (filterHeaderOf row).flowId ∈ ([1] : List FlowId) ∧ (filterHeaderOf row).flowId ∈ ([1] : List FlowId) := by
  intro row hrow
  obtain ⟨i, _, hi⟩ := List.mem_flatMap.mp hrow
  obtain ⟨hflow, _⟩ := columnSim_rows (List.mem_of_mem_take hi)
  have hone : (filterHeaderOf row).flowId = 1 := by
    rw [filterHeaderOf, hflow]
    rfl
  exact ⟨List.mem_singleton.mpr hone, List.mem_singleton.mpr hone⟩

/-- The master receives what passes of 32 rows. -/
theorem filter_answer_one :
    ∃ s, (system oneFilter InFlight.Clear).Reached s ∧ Drained oneFilter s ∧
      s.master.packetsReceived = BitVec.ofNat 64 (rowsIn valuesOnly s.bursts.flatten).length ∧
      ((rowsIn valuesOnly s.bursts.flatten : List (Row valuesOnly)) : Multiset (Row valuesOnly)) =
        (allRows oneFilter : Multiset (Row valuesOnly)).filter fun row =>
          Passes 50 [1] [1] (filterHeaderOf row) := by
  obtain ⟨s, hs, hdrained, _⟩ := reach_drained (d := oneFilter) rfl (fun _ => wholePort_progresses)
    (Function.injective_of_subsingleton _) (filter_fits oneFilter_runs)
  obtain ⟨hcount, _, hall⟩ := filter_answer oneFilter_runs hs
  exact ⟨s, hs, hdrained, hcount, hall hdrained⟩

/-- The script counts the number below 0 and the one behind the batch too. -/
theorem filter_validated_iff_one :
    ∃ s, ∃ counts : Fin 1 → Nat, (system oneFilter InFlight.Clear).Reached s ∧ Drained oneFilter s ∧
      (∀ i : Fin 1, offlineCount some (signed.map fun v => [v]) = some (counts i)) ∧
      (rowsIn valuesOnly s.bursts.flatten).length ≤ ∑ i, counts i ∧
      ((rowsIn valuesOnly s.bursts.flatten).length = ∑ i, counts i ↔
        ∀ (_ : Fin 1) k v, signed[k]? = some v → v < 50 →
          0 ≤ v ∧ k < batchSize * (signed.length / batchSize)) := by
  obtain ⟨s, hs, hdrained, _⟩ := reach_drained (d := oneFilter) rfl (fun _ => wholePort_progresses)
    (Function.injective_of_subsingleton _) (filter_fits oneFilter_runs)
  have hcolumn : ∀ i, Column some (signed.map fun v => [v]) (oneFilter.sim i) signed :=
    fun _ => ⟨by decide, by decide, rfl⟩
  obtain ⟨counts, hcounts, hle, hiff⟩ := filter_validated_iff oneFilter_runs oneFilter_flows hcolumn hs hdrained
  exact ⟨s, counts, hs, hdrained, hcounts, hle, hiff⟩

end Cheetah.System
