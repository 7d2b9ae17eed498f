import Cheetah.System.Completion
import Cheetah.Query.Frames
import Cheetah.Query.DistinctOrder

/-! DISTINCT over a whole deployment.

The frames of several workers reach the switch in no particular order. The master lists
only values that were sent, each once. When the values of the datasets are told apart in
their slots, the order does not matter: once everything has arrived, all of them are
listed. -/
namespace Cheetah.System
open Lib Host Host.StreamReceiver Host.ControlFlow Host.Master Host.AggregateProcessing
open DataPlane (cheetahBits)
open Query.Frames (Layout)
open Query.Distinct (ToldApart)

/-! ### The switch -/

section Switch
variable {ι κ : Type} [DecidableEq ι] {c : Config} {n : Nat}
variable {d : Deployment c κ (DataPlane.Distinct.Registers ι) n} {s : State c κ (DataPlane.Distinct.Registers ι) n}

/-- What `cheetah_distinct.p4` takes off a frame. -/
def distinctHeader (frame : List Byte) : Option DataPlane.Distinct.Header :=
  DataPlane.Distinct.extractCheetah (cheetahBits frame)

/-- The header of a row. -/
def distinctHeaderOf (row : Row c) : DataPlane.Distinct.Header :=
  ⟨row.flowId.setWidth 16, row.rowId, row.value.extractLsb' 32 32, row.value.extractLsb' 0 32⟩

/-- The master is built for DISTINCT, with room for `size` values, and the switch runs
`cheetah_distinct.p4`. -/
structure RunsDistinct (d : Deployment c κ (DataPlane.Distinct.Registers ι) n)
    (lruCacheHash : DataPlane.Word → DataPlane.Word → ι) (hc : Hcreate) (size : Word) : Prop where
  layout : Layout c false 64
  query : d.query = .distinct
  queries : d.queries.distinctState = some (distinctInit (hc.create size.toNat) size)
  switch : d.switch = (DataPlane.Distinct.switch lruCacheHash).comap distinctHeader
  registers : d.registers = DataPlane.Distinct.Registers.zero

theorem distinctHeader_eq (hc : Layout c false 64) (frame : List Byte) (row : Row c)
    (h : unpackPayload c frame = some row) : distinctHeader frame = some (distinctHeaderOf row) := by
  rw [distinctHeader, DataPlane.Distinct.extractCheetah,
    Query.Frames.extractTwo_of_unpackPayload_wide hc.readable hc.useKey hc.valueBits h]
  rfl

/-- The halves of the header are those of the value the master is given. -/
theorem value_distinctHeaderOf (row : Row c) : (distinctHeaderOf row).value = distinctCall row := by
  apply BitVec.eq_of_getLsbD_eq
  intro i hi
  simp only [DataPlane.Distinct.Header.value, distinctHeaderOf, distinctCall, BitVec.getLsbD_append,
    BitVec.getLsbD_extractLsb', BitVec.getLsbD_setWidth, hi, decide_true, Bool.true_and]
  by_cases hlow : i < 32
  · simp [hlow]
  · simp [hlow, show i - 32 < 32 from by omega, show 32 + (i - 32) = i from by omega]

end Switch

/-! ### The master -/

section Master
variable {ι κ : Type} [DecidableEq ι] [DecidableEq κ] {c : Config} {n : Nat}
variable {d : Deployment c κ (DataPlane.Distinct.Registers ι) n} {s : State c κ (DataPlane.Distinct.Registers ι) n}
variable {lruCacheHash : DataPlane.Word → DataPlane.Word → ι} {hc : Hcreate} {size : Word}

/-- The updates of any of the rows have a result when there is room for all values. -/
theorem distinct_updates (hd : RunsDistinct d lruCacheHash hc size)
    (hroom : ((allRows d).map distinctCall).eraseDups.length ≤ size.toNat)
    {rows : List (Row c)} (hrows : rows ⊆ allRows d) :
    ∃ state, updateRows d.format d.query (d.queries, 0) rows =
        some ({d.queries with distinctState := some state}, 0) ∧
      DistinctStored d.format.value (rows.map distinctCall) state := by
  have hqueries : d.queries =
      {d.queries with distinctState := some (distinctInit (hc.create size.toNat) size)} := by
    rw [← hd.queries]
  obtain ⟨state, hrun, hstored⟩ := distinctStored_run (distinctStored_init d.format.value hc size)
    (rows.map distinctCall) (by
      rw [List.nil_append]
      exact Nat.le_trans (length_eraseDups_le_of_subset (List.map_subset _ hrows)) hroom)
  rw [List.nil_append] at hstored
  refine ⟨state, ?_, hstored⟩
  rw [hqueries, hd.query, updateRows_distinct, hrun, Option.map_some]

theorem distinct_fits (hd : RunsDistinct d lruCacheHash hc size)
    (hroom : ((allRows d).map distinctCall).eraseDups.length ≤ size.toNat) : UpdatesFit d := by
  intro rows hle
  obtain ⟨state, hupdates, _⟩ := distinct_updates hd hroom (Multiset.coe_le.mp hle).subset
  rw [hupdates]
  rfl

/-- The store holds the values the master was given. -/
theorem distinct_stored (hd : RunsDistinct d lruCacheHash hc size)
    (hroom : ((allRows d).map distinctCall).eraseDups.length ≤ size.toNat)
    (hs : (system d InFlight.Clear).Reached s) :
    ∃ state, s.master.queries.distinctState = some state ∧
      DistinctStored d.format.value ((rowsIn c s.bursts.flatten).map distinctCall) state := by
  obtain ⟨state, hupdates, hstored⟩ :=
    distinct_updates hd hroom (rowsIn_subset hd.layout.readable.unpackedBits hs)
  exact ⟨state, by rw [queries_eq (reached_inv hs) hupdates], hstored⟩

/-- Among values that are told apart, what comes out of the switch has them all. -/
theorem forwarded_values (hd : RunsDistinct d lruCacheHash hc size)
    (hflow : ∀ row ∈ allRows d, (distinctHeaderOf row).flowId = 1)
    (happart : ToldApart lruCacheHash ((allRows d).map distinctHeaderOf))
    (hs : (system d InFlight.Clear).Reached s) (hdrained : Drained d s) {row : Row c} (hrow : row ∈ allRows d) :
    ∃ row' ∈ rowsIn c s.bursts.flatten, distinctCall row' = distinctCall row := by
  have hheader := distinctHeader_eq hd.layout
  have hbits := hd.layout.readable.unpackedBits
  have hread := mem_read_headers hheader hbits hs hdrained
  have hsub : s.read.filterMap distinctHeader ⊆ (allRows d).map distinctHeaderOf := fun p hp => (hread p).mpr hp
  have hflow' : ∀ p ∈ s.read.filterMap distinctHeader, p.flowId = 1 := by
    intro p hp
    obtain ⟨row, hrow, rfl⟩ := List.mem_map.mp (hsub hp)
    exact hflow row hrow
  have hnone := (happart.mono hsub).noFalseMatch
  obtain ⟨q, hq, hvalue⟩ := hnone.covers hflow' _ ((hread _).mp (List.mem_map.mpr ⟨row, hrow, rfl⟩))
  rw [← Pruner.forwarded_comap, ← hd.switch, ← hd.registers] at hq
  obtain ⟨row', hrow', rfl⟩ := List.mem_map.mp ((mem_forwarded_headers hheader hbits hs hdrained q).mpr hq)
  rw [value_distinctHeaderOf, value_distinctHeaderOf] at hvalue
  exact ⟨row', hrow', hvalue⟩

/-- **DISTINCT over the deployment**, in any run in which no packet is rewritten before it
is read. Whatever is in flight or lost, the master lists no value twice and none that was
not sent by a worker. Once everything handed over has arrived it lists every value of the
rows of all whole batches, in whatever order they came, if the values are told apart in
their slots. -/
theorem distinct_answer (hd : RunsDistinct d lruCacheHash hc size)
    (hroom : ((allRows d).map distinctCall).eraseDups.length ≤ size.toNat)
    (hflow : ∀ row ∈ allRows d, (distinctHeaderOf row).flowId = 1)
    (hs : (system d InFlight.Clear).Reached s) :
    ∃ state, s.master.queries.distinctState = some state ∧ (distinctView state).Nodup ∧
      (∀ v, some v ∈ distinctView state → ∃ i, ∃ row ∈ handed d s i, distinctCall row = v) ∧
      (Drained d s → ToldApart lruCacheHash ((allRows d).map distinctHeaderOf) →
        ∀ v, some v ∈ distinctView state ↔ ∃ row ∈ allRows d, distinctCall row = v) := by
  have hbits := hd.layout.readable.unpackedBits
  obtain ⟨state, hstate, hstored⟩ := distinct_stored hd hroom hs
  refine ⟨state, hstate, ?_, fun v hv => ?_, fun hdrained happart v => ?_⟩
  · rw [hstored.view]
    exact (nodup_eraseDups _).map (Option.some_injective _)
  · rw [Query.Distinct.mem_distinctView hstored] at hv
    obtain ⟨row, hrow, rfl⟩ := List.mem_map.mp hv
    obtain ⟨i, _, hi⟩ := Multiset.mem_sum.mp (Multiset.mem_of_le (rowsIn_le hbits hs) hrow)
    exact ⟨i, row, hi, rfl⟩
  · rw [Query.Distinct.mem_distinctView hstored, List.mem_map]
    constructor
    · intro hsome
      obtain ⟨row, hrow, hv⟩ := hsome
      exact ⟨row, rowsIn_subset hbits hs hrow, hv⟩
    · intro hsome
      obtain ⟨row, hrow, rfl⟩ := hsome
      exact forwarded_values hd hflow happart hs hdrained hrow

end Master

/-! ### One slot -/

/-- A layout without keys, with wide values. -/
def wideValues : Config := ⟨true, false, true, false⟩

/-- One worker, and a switch with one slot. -/
def oneDistinct : Deployment wideValues Value (DataPlane.Distinct.Registers Unit) 1 where
  nodes := ControlMessage.shippedNodes
  query := .distinct
  format := ⟨fun key => key.setWidth 64, id⟩
  queries := ⟨some (distinctInit (Hcreate.unbounded.create 32) 32), none, none⟩
  switch := (DataPlane.Distinct.switch fun _ _ => ()).comap distinctHeader
  registers := DataPlane.Distinct.Registers.zero
  workerNodes := 1
  workerId := fun _ => 1
  state := fun _ => zeroState
  pool := fun _ => zeroPool
  port := fun _ => wholePort
  sim := fun _ => columnSim wideValues upTo32 thirtyTwo_fits

theorem oneDistinct_runs : RunsDistinct oneDistinct (fun _ _ => ()) Hcreate.unbounded 32 :=
  ⟨⟨⟨rfl, rfl⟩, rfl, rfl⟩, rfl, rfl, rfl, rfl⟩

theorem oneDistinct_rows {row : Row wideValues} (h : row ∈ allRows oneDistinct) :
    row.flowId = 1 ∧ ∃ v ∈ upTo32, row.value = BitVec.ofInt 64 v := by
  obtain ⟨i, _, hi⟩ := List.mem_flatMap.mp h
  exact columnSim_rows (List.mem_of_mem_take hi)

theorem oneDistinct_room : ((allRows oneDistinct).map distinctCall).eraseDups.length ≤ (32 : Word).toNat := by
  refine Nat.le_trans (length_eraseDups_le _) ?_
  rw [List.length_map]
  exact Nat.le_of_eq (by simp [allRows, oneDistinct, columnSim, upTo32, batchSize])

/-- The lower halves of the values are 1 to 32. -/
theorem oneDistinct_apart :
    ToldApart (fun _ _ => ()) ((allRows oneDistinct).map distinctHeaderOf) := by
  have hpair : ∀ p ∈ (allRows oneDistinct).map distinctHeaderOf,
      ∃ v ∈ upTo32, p.pair = (0, BitVec.ofInt 32 v) := by
    intro p hp
    obtain ⟨row, hrow, rfl⟩ := List.mem_map.mp hp
    obtain ⟨_, v, hv, hvalue⟩ := oneDistinct_rows hrow
    refine ⟨v, hv, ?_⟩
    have hhalves : ∀ v ∈ upTo32, ((BitVec.ofInt 64 v).extractLsb' 32 32, (BitVec.ofInt 64 v).extractLsb' 0 32) =
        ((0 : Word), BitVec.ofInt 32 v) := by decide
    rw [← hhalves v hv]
    simp only [DataPlane.Distinct.Header.pair, distinctHeaderOf, hvalue]
    rfl
  refine fun _ => ⟨.lo, fun p hp q hq _ _ heq => ?_, fun p hp _ => ?_, fun p hp _ => ?_⟩
  · obtain ⟨v, hv, hpv⟩ := hpair p hp
    obtain ⟨w, hw, hqw⟩ := hpair q hq
    rw [hpv, hqw] at heq ⊢
    exact congrArg (Prod.mk 0) heq
  · obtain ⟨v, hv, hpv⟩ := hpair p hp
    have hne : ∀ v ∈ upTo32, BitVec.ofInt 32 v ≠ 0 := by decide
    rw [hpv]
    exact hne v hv
  · obtain ⟨v, hv, hpv⟩ := hpair p hp
    have htop : ∀ v ∈ upTo32, BitVec.ofInt 32 v &&& 0x80000000 ≠ 0x80000000 := by decide
    rw [hpv]
    exact htop v hv

/-- All 32 values share the slot, and all are listed. -/
theorem distinct_answer_one :
    ∃ s state, (system oneDistinct InFlight.Clear).Reached s ∧ Drained oneDistinct s ∧
      s.master.queries.distinctState = some state ∧ (distinctView state).Nodup ∧
      ∀ v, some v ∈ distinctView state ↔ ∃ row ∈ allRows oneDistinct, distinctCall row = v := by
  obtain ⟨s, hs, hdrained, _⟩ := reach_drained (d := oneDistinct) rfl (fun _ => wholePort_progresses)
    (Function.injective_of_subsingleton _) (distinct_fits oneDistinct_runs oneDistinct_room)
  have hflow : ∀ row ∈ allRows oneDistinct, (distinctHeaderOf row).flowId = 1 := by
    intro row hrow
    rw [distinctHeaderOf, (oneDistinct_rows hrow).1]
    rfl
  obtain ⟨state, hstate, hnodup, _, hall⟩ := distinct_answer oneDistinct_runs oneDistinct_room hflow hs
  exact ⟨s, state, hs, hdrained, hstate, hnodup, hall hdrained oneDistinct_apart⟩

end Cheetah.System
