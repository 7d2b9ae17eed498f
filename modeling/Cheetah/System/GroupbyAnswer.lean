import Cheetah.System.Completion
import Cheetah.Query.Frames
import Cheetah.Query.Groupby

/-! GROUP BY over a whole deployment.

The workers' frames reach the switch in any order, and the master receives them in bursts
of any size. What the master's store says of a key is at any time a value some worker sent,
and the largest there is once everything handed over has arrived. -/
namespace Cheetah.System
open Lib Host Host.StreamReceiver Host.ControlFlow Host.Master Host.AggregateProcessing
open DataPlane (cheetahBits)
open DataPlane.Groupby (Sketch)
open Query.Frames (Layout)

/-! ### The switch -/

section Switch
variable {ι κ : Type} [DecidableEq ι] {c : Config} {n : Nat}
variable {d : Deployment c κ (DataPlane.Groupby.Registers ι) n} {s : State c κ (DataPlane.Groupby.Registers ι) n}

/-- What `cheetah_groupby.p4` takes off a frame. -/
def groupbyHeader (frame : List Byte) : Option DataPlane.Groupby.Header :=
  DataPlane.Groupby.extractCheetah (cheetahBits frame)

/-- The master is built for GROUP BY, with room for `size` keys, and the switch runs
`cheetah_groupby.p4`. -/
structure RunsGroupby (d : Deployment c κ (DataPlane.Groupby.Registers ι) n)
    (hash : Sketch → Word → ι) (hc : Hcreate)
    (size : Word) : Prop where
  layout : Layout c true 32
  query : d.query = .groupby
  queries : d.queries.groupbyState = some (groupbyInit (hc.create size.toNat) size)
  switch : d.switch = (DataPlane.Groupby.switch hash).comap groupbyHeader
  registers : d.registers = DataPlane.Groupby.Registers.zero

/-- The header of a row. -/
def groupbyHeaderOf (row : Row c) : DataPlane.Groupby.Header :=
  ⟨row.flowId.setWidth 16, row.rowId, row.key.setWidth 32, row.value.setWidth 32⟩

theorem groupbyHeader_eq (hc : Layout c true 32) (frame : List Byte) (row : Row c)
    (h : unpackPayload c frame = some row) : groupbyHeader frame = some (groupbyHeaderOf row) := by
  rw [groupbyHeader, DataPlane.Groupby.extractCheetah,
    Query.Frames.extractTwo_of_unpackPayload hc.readable hc.useKey hc.valueBits h]
  rfl

/-- The update of a row is the one of the header the switch sees. -/
theorem call_groupbyHeaderOf (row : Row c) : Query.Groupby.call (groupbyHeaderOf row) = groupbyCall row := rfl

theorem mem_calls {rows : List (Row c)} {headers : List DataPlane.Groupby.Header}
    (h : ∀ p, p ∈ rows.map groupbyHeaderOf ↔ p ∈ headers) (x : Word × Word) :
    x ∈ rows.map groupbyCall ↔ x ∈ headers.map Query.Groupby.call := by
  simp only [List.mem_map, ← h, exists_exists_and_eq_and, call_groupbyHeaderOf]

/-- Every update is given, or one with a larger value for its key, whatever became of the
other frames: what the switch passed on stands for all it has read. -/
theorem read_covered {hash : Sketch → Word → ι} {hc : Hcreate} {size : Word} (hd : RunsGroupby d hash hc size)
    {k v : Word} :
    IsMaxOf (((d.switch.forwarded d.registers s.read).filterMap groupbyHeader).map Query.Groupby.call) k v ↔
      IsMaxOf ((s.read.filterMap groupbyHeader).map Query.Groupby.call) k v := by
  rw [hd.switch, hd.registers, Pruner.forwarded_comap]
  exact Query.Groupby.isMaxOf_forwarded ((DataPlane.Groupby.switch hash).forwarded_subset _ _)
    (DataPlane.Groupby.run_covers hash _).2 k v

/-- Nothing is dropped before there is anything in the cells. -/
theorem groupby_passes {hash : Sketch → Word → ι} {hc : Hcreate} {size : Word} (hd : RunsGroupby d hash hc size)
    {frame : List Byte} {row : Row c} (h : unpackPayload c frame = some row) :
    d.switch.drops d.registers frame = false := by
  rw [hd.switch, hd.registers]
  show ((groupbyHeader frame).map ((DataPlane.Groupby.switch hash).drops _)).getD true = false
  rw [groupbyHeader_eq hd.layout frame row h, Option.map_some, Option.getD_some, Bool.eq_false_iff]
  intro hdrop
  obtain ⟨q, hq, _⟩ := DataPlane.Groupby.beaten_of_drops hash DataPlane.Groupby.covered_zero hdrop
  cases hq

end Switch

/-- The shipped layout with GROUP BY: one worker with 32 rows, a master with room for as
many keys, and a switch with a cell for every key. -/
def oneWorker : Deployment shipped Word (DataPlane.Groupby.Registers Word) 1 where
  nodes := ControlMessage.shippedNodes
  query := .groupby
  format := ⟨id, fun value => value.setWidth 32⟩
  queries := ⟨none, some (groupbyInit (Hcreate.unbounded.create 32) 32), none⟩
  switch := (DataPlane.Groupby.switch fun _ key => key).comap groupbyHeader
  registers := DataPlane.Groupby.Registers.zero
  workerNodes := 1
  workerId := fun _ => 1
  state := fun _ => zeroState
  pool := fun _ => zeroPool
  port := fun _ => wholePort
  sim := fun _ => countingSim 32 (by decide)

theorem oneWorker_runs : RunsGroupby oneWorker (fun _ key => key) Hcreate.unbounded 32 where
  layout := ⟨⟨rfl, rfl⟩, rfl, rfl⟩
  query := rfl
  queries := rfl
  switch := rfl
  registers := rfl

theorem oneWorker_length : (allRows oneWorker).length = 32 := by
  simp [allRows, oneWorker, countingSim, batchSize]

theorem oneWorker_room : ((allRows oneWorker).map fun row => (groupbyCall row).1).eraseDups.length ≤
    (32 : Word).toNat := by
  refine Nat.le_trans (length_eraseDups_le _) ?_
  rw [List.length_map, oneWorker_length]
  decide

/-! ### The master -/

section Master
variable {ι κ : Type} [DecidableEq ι] [DecidableEq κ] {c : Config} {n : Nat}
variable {d : Deployment c κ (DataPlane.Groupby.Registers ι) n} {s : State c κ (DataPlane.Groupby.Registers ι) n}
variable {hash : Sketch → Word → ι} {hc : Hcreate} {size : Word}

theorem isMaxOf_congr {a b : List (Word × Word)} (h : ∀ x, x ∈ a ↔ x ∈ b) (k v : Word) :
    IsMaxOf a k v ↔ IsMaxOf b k v := by
  simp only [IsMaxOf, h]

/-- The updates of any of the rows have a result when there is room for all keys. -/
theorem groupby_updates (hd : RunsGroupby d hash hc size)
    (hroom : ((allRows d).map fun row => (groupbyCall row).1).eraseDups.length ≤ size.toNat)
    {rows : List (Row c)} (hrows : rows ⊆ allRows d) :
    ∃ state, updateRows d.format d.query (d.queries, 0) rows =
        some ({d.queries with groupbyState := some state}, 0) ∧
      GroupbyStored d.format.key (rows.map groupbyCall) state := by
  have hqueries : d.queries =
      {d.queries with groupbyState := some (groupbyInit (hc.create size.toNat) size)} := by
    rw [← hd.queries]
  have hkeys : (rows.map groupbyCall).map Prod.fst ⊆ (allRows d).map fun row => (groupbyCall row).1 := by
    rw [List.map_map]
    exact List.map_subset _ hrows
  obtain ⟨state, hrun, hstored⟩ := stored_run (groupbyStored_init d.format.key hc size)
    (rows.map groupbyCall) (by
      rw [List.nil_append]
      exact Nat.le_trans (length_eraseDups_le_of_subset hkeys) hroom)
  rw [List.nil_append] at hstored
  refine ⟨state, ?_, hstored⟩
  rw [hqueries, hd.query, updateRows_groupby, hrun, Option.map_some]

theorem groupby_fits (hd : RunsGroupby d hash hc size)
    (hroom : ((allRows d).map fun row => (groupbyCall row).1).eraseDups.length ≤ size.toNat) :
    UpdatesFit d := by
  intro rows hle
  obtain ⟨state, hupdates, _⟩ := groupby_updates hd hroom (Multiset.coe_le.mp hle).subset
  rw [hupdates]
  rfl

/-- The store holds what the master was given. -/
theorem groupby_stored (hd : RunsGroupby d hash hc size)
    (hroom : ((allRows d).map fun row => (groupbyCall row).1).eraseDups.length ≤ size.toNat)
    (hs : (system d InFlight.Clear).Reached s) :
    ∃ state, s.master.queries.groupbyState = some state ∧
      GroupbyStored d.format.key ((rowsIn c s.bursts.flatten).map groupbyCall) state := by
  obtain ⟨state, hupdates, hstored⟩ :=
    groupby_updates hd hroom (rowsIn_subset hd.layout.readable.unpackedBits hs)
  exact ⟨state, by rw [queries_eq (reached_inv hs) hupdates], hstored⟩

/-- **GROUP BY over the deployment**, in any run in which no packet is rewritten before it
is read. Whatever is still in flight or lost, each value in the master's store was sent by
a worker for its key. Once everything handed over has arrived, the store has the maximum
of every key over the rows of all whole batches. -/
theorem groupby_answer (hd : RunsGroupby d hash hc size)
    (hroom : ((allRows d).map fun row => (groupbyCall row).1).eraseDups.length ≤ size.toNat)
    (hs : (system d InFlight.Clear).Reached s) :
    ∃ state, s.master.queries.groupbyState = some state ∧
      (∀ k v, groupbyMap state k = some v → ∃ i, ∃ row ∈ handed d s i, groupbyCall row = (k, v)) ∧
      (Drained d s → ∀ k v, groupbyMap state k = some v ↔ IsMaxOf ((allRows d).map groupbyCall) k v) := by
  have hbits := hd.layout.readable.unpackedBits
  obtain ⟨state, hstate, hstored⟩ := groupby_stored hd hroom hs
  refine ⟨state, hstate, fun k v hv => ?_, fun hdrained k v => ?_⟩
  · rw [hstored.map_eq_some] at hv
    obtain ⟨row, hrow, hcall⟩ := List.mem_map.mp hv.1
    obtain ⟨i, _, hi⟩ := Multiset.mem_sum.mp (Multiset.mem_of_le (rowsIn_le hbits hs) hrow)
    exact ⟨i, row, hi, hcall⟩
  · have hheader := groupbyHeader_eq hd.layout
    calc groupbyMap state k = some v
        ↔ IsMaxOf ((rowsIn c s.bursts.flatten).map groupbyCall) k v := hstored.map_eq_some k v
      _ ↔ IsMaxOf (((d.switch.forwarded d.registers s.read).filterMap groupbyHeader).map
            Query.Groupby.call) k v :=
          isMaxOf_congr (mem_calls (mem_forwarded_headers hheader hbits hs hdrained)) k v
      _ ↔ IsMaxOf ((s.read.filterMap groupbyHeader).map Query.Groupby.call) k v := read_covered hd
      _ ↔ IsMaxOf ((allRows d).map groupbyCall) k v :=
          (isMaxOf_congr (mem_calls (mem_read_headers hheader hbits hs hdrained)) k v).symm

end Master

/-- The worker sends its 32 rows, and all keys have their maximum. -/
theorem groupby_answer_one :
    ∃ s state, (system oneWorker InFlight.Clear).Reached s ∧ Drained oneWorker s ∧
      s.master.queries.groupbyState = some state ∧
      ∀ k v, groupbyMap state k = some v ↔ IsMaxOf ((allRows oneWorker).map groupbyCall) k v := by
  obtain ⟨s, hs, hdrained, _⟩ := reach_drained (d := oneWorker) rfl (fun _ => wholePort_progresses)
    (Function.injective_of_subsingleton _) (groupby_fits oneWorker_runs oneWorker_room)
  obtain ⟨state, hstate, _, hanswer⟩ := groupby_answer oneWorker_runs oneWorker_room hs
  exact ⟨s, state, hs, hdrained, hstate, hanswer hdrained⟩

end Cheetah.System
