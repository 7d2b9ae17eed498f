import Cheetah.System.Completion
import Cheetah.Query.Frames
import Cheetah.DataPlane.Skyline

/-! The skyline over a whole deployment.

No query of the master asks for it: the master counts the rows that come, or does with them
what its query says. In every state, a row the switch pruned lies below one that came out.
Once everything has arrived, the rows the master has gone through have the skyline of all. -/
namespace Cheetah.System
open Lib Host Host.StreamReceiver Host.ControlFlow Host.Master
open DataPlane (cheetahBits FlowId)
open DataPlane.Skyline (Below)
open Query.Frames (Layout)

/-! ### The switch -/

section Switch
variable {κ : Type} {c : Config} {n : Nat}

/-- What `cheetah_skyline.p4` takes off a frame. -/
def skylineHeader (frame : List Byte) : Option DataPlane.Skyline.Header :=
  DataPlane.Skyline.extractCheetah (cheetahBits frame)

/-- The header of a row. -/
def skylineHeaderOf (row : Row c) : DataPlane.Skyline.Header :=
  ⟨row.flowId.setWidth 16, row.rowId, row.key.setWidth 32, row.value.setWidth 32⟩

/-- The point of a row: its key and its value. -/
def pointOf (row : Row c) : DataPlane.Word × DataPlane.Word := (skylineHeaderOf row).point

/-- The switch runs `cheetah_skyline.p4`. -/
structure RunsSkyline (d : Deployment c κ DataPlane.Skyline.Registers n) (rules : List FlowId) : Prop where
  layout : Layout c true 32
  switch : d.switch = (DataPlane.Skyline.switch rules).comap skylineHeader
  registers : d.registers = DataPlane.Skyline.Registers.zero

theorem skylineHeader_eq (hc : Layout c true 32) (frame : List Byte) (row : Row c)
    (h : unpackPayload c frame = some row) : skylineHeader frame = some (skylineHeaderOf row) := by
  rw [skylineHeader, DataPlane.Skyline.extractCheetah,
    Query.Frames.extractTwo_of_unpackPayload hc.readable hc.useKey hc.valueBits h]
  rfl

/-- The headers that came out of the switch. -/
theorem skyline_forwarded {d : Deployment c κ DataPlane.Skyline.Registers n} {rules : List FlowId}
    (hd : RunsSkyline d rules) (frames : List (List Byte)) :
    (d.switch.forwarded d.registers frames).filterMap skylineHeader =
      (DataPlane.Skyline.switch rules).forwarded DataPlane.Skyline.Registers.zero
        (frames.filterMap skylineHeader) := by
  rw [hd.switch, hd.registers, Pruner.forwarded_comap]

end Switch

/-! ### The rows -/

section Rows
variable {κ : Type} [DecidableEq κ] {c : Config} {n : Nat} {d : Deployment c κ DataPlane.Skyline.Registers n}
variable {s : State c κ DataPlane.Skyline.Registers n} {rules : List FlowId}

/-- The switch has read headers of flows that it has rules for. -/
theorem skyline_hit (hd : RunsSkyline d rules) (hflows : ∀ row ∈ allRows d, (skylineHeaderOf row).flowId ∈ rules)
    (hs : (system d InFlight.Clear).Reached s) : ∀ h ∈ s.read.filterMap skylineHeader, h.flowId ∈ rules := by
  intro h hread
  have hle := read_headers_le hd.layout.readable.unpackedBits hs fun frame _ => skylineHeader_eq hd.layout frame
  obtain ⟨row, hrow, rfl⟩ := Multiset.mem_map.mp (Multiset.mem_of_le hle (Multiset.mem_coe.mpr hread))
  exact hflows row hrow

/-- A row that was pruned lies below one that came out. -/
theorem pruned_below (hd : RunsSkyline d rules) (hflows : ∀ row ∈ allRows d, (skylineHeaderOf row).flowId ∈ rules)
    (hs : (system d InFlight.Clear).Reached s) {row : Row c}
    (hrow : some row ∈ rowsOf c (d.switch.dropped d.registers s.read)) :
    ∃ row', some row' ∈ rowsOf c (d.switch.forwarded d.registers s.read) ∧
      Below (pointOf row) (pointOf row') := by
  have hbits := hd.layout.readable.unpackedBits
  obtain ⟨frame, hframe, hunpack⟩ := List.mem_map.mp hrow
  have hdropped : skylineHeaderOf row ∈ (DataPlane.Skyline.switch rules).dropped DataPlane.Skyline.Registers.zero
      (s.read.filterMap skylineHeader) := by
    rw [← Pruner.dropped_comap, ← hd.switch, ← hd.registers]
    exact List.mem_filterMap.mpr ⟨frame, hframe, skylineHeader_eq hd.layout frame row hunpack⟩
  obtain ⟨q, hq, hbelow⟩ := DataPlane.Skyline.dropped_below (skyline_hit hd hflows hs) _ hdropped
  rw [← skyline_forwarded hd] at hq
  obtain ⟨frame', hframe', hheader⟩ := List.mem_filterMap.mp hq
  obtain ⟨row', hrow'⟩ := read_rows hbits hs frame' (d.switch.forwarded_subset _ _ hframe')
  rw [skylineHeader_eq hd.layout frame' row' hrow'] at hheader
  refine ⟨row', List.mem_map.mpr ⟨frame', hframe', hrow'⟩, ?_⟩
  rw [← Option.some.inj hheader] at hbelow
  exact hbelow

/-- **The skyline over the deployment**, in any run in which no packet is rewritten before it
is read. A row that was pruned lies below one that came out, whatever is in flight or lost.
Once everything handed over has arrived, the rows the master has gone through have the
maximal points of the rows of all whole batches. -/
theorem skyline_answer (hd : RunsSkyline d rules)
    (hflows : ∀ row ∈ allRows d, (skylineHeaderOf row).flowId ∈ rules)
    (hs : (system d InFlight.Clear).Reached s) :
    (∀ row, some row ∈ rowsOf c (d.switch.dropped d.registers s.read) →
      ∃ row', some row' ∈ rowsOf c (d.switch.forwarded d.registers s.read) ∧
        Below (pointOf row) (pointOf row')) ∧
    (Drained d s → maxima Below ((rowsIn c s.bursts.flatten : Multiset (Row c)).map pointOf) =
      maxima Below ((allRows d : Multiset (Row c)).map pointOf)) := by
  refine ⟨fun row hrow => pruned_below hd hflows hs hrow, fun hdrained => ?_⟩
  have hbits := hd.layout.readable.unpackedBits
  have hheader := skylineHeader_eq hd.layout
  have hpoint : ∀ rows : Multiset (Row c),
      rows.map pointOf = (rows.map skylineHeaderOf).map DataPlane.Skyline.Header.point := by
    intro rows
    rw [Multiset.map_map]
    rfl
  rw [hpoint, hpoint, ← forwarded_headers hheader hbits hs hdrained, ← read_headers hheader hbits hs hdrained,
    skyline_forwarded hd]
  exact Pruner.maxima_forwarded Below _ DataPlane.Skyline.Header.point _ _
    (DataPlane.Skyline.dropped_below (skyline_hit hd hflows hs))

end Rows

/-! ### A diagonal -/

/-- 32 points, the largest first. -/
def diagonalSim : MemorySim shipped :=
  numberedSim 32 (fun k => ⟨1#_, BitVec.ofNat _ (32 - k), BitVec.ofNat _ (32 - k), BitVec.ofNat _ k⟩)
    thirtyTwo_fits

/-- One worker, and a master that counts. -/
def oneSkyline : Deployment shipped Word DataPlane.Skyline.Registers 1 where
  nodes := ControlMessage.shippedNodes
  query := .filter
  format := ⟨id, fun value => value.setWidth 32⟩
  queries := ⟨none, none, none⟩
  switch := (DataPlane.Skyline.switch [1]).comap skylineHeader
  registers := DataPlane.Skyline.Registers.zero
  workerNodes := 1
  workerId := fun _ => 1
  state := fun _ => zeroState
  pool := fun _ => zeroPool
  port := fun _ => wholePort
  sim := fun _ => diagonalSim

theorem oneSkyline_runs : RunsSkyline oneSkyline [1] := ⟨⟨⟨rfl, rfl⟩, rfl, rfl⟩, rfl, rfl⟩

theorem oneSkyline_fits : UpdatesFit oneSkyline := by
  intro rows _
  rw [updateRows_counted oneSkyline.format (show oneSkyline.query.counted = true from rfl)]
  rfl

/-- One point is left of them. -/
theorem skyline_answer_one :
    ∃ s, (system oneSkyline InFlight.Clear).Reached s ∧ Drained oneSkyline s ∧
      maxima Below ((rowsIn shipped s.bursts.flatten : Multiset (Row shipped)).map pointOf) = {(32, 32)} := by
  obtain ⟨s, hs, hdrained, _⟩ := reach_drained (d := oneSkyline) rfl (fun _ => wholePort_progresses)
    (Function.injective_of_subsingleton _) oneSkyline_fits
  refine ⟨s, hs, hdrained, ((skyline_answer oneSkyline_runs (by decide) hs).2 hdrained).trans ?_⟩
  decide

end Cheetah.System
