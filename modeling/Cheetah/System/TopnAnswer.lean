import Cheetah.System.Completion
import Cheetah.Query.Frames
import Cheetah.Query.TopnOrder

/-! TOP N over a whole deployment.

The master has no store for this query: it counts the rows that come. Whether the largest
values are among them depends on the order in which the frames reach the switch, and any
order can occur. So the answer is right in every run exactly when the values of all whole
batches together are not perilous. -/
namespace Cheetah.System
open Lib Host Host.StreamReceiver Host.ControlFlow Host.Master
open DataPlane (cheetahBits)
open Query.Frames (Layout)
open Query.Topn (KeepsLargest Perilous)

/-! ### The switch -/

section Switch
variable {κ : Type} {c : Config} {n : Nat}

/-- What `cheetah_topn.p4` takes off a frame. -/
def topnHeader (frame : List Byte) : Option DataPlane.Topn.Header :=
  DataPlane.Topn.extractCheetah (cheetahBits frame)

/-- The header of a row. -/
def topnHeaderOf (row : Row c) : DataPlane.Topn.Header :=
  ⟨row.flowId.setWidth 16, row.rowId, row.value.setWidth 32⟩

/-- The value of a row, as the switch compares it. -/
def topnValueOf (row : Row c) : Nat := (topnHeaderOf row).value.toNat

/-- The master is built for TOP N, and the switch runs `cheetah_topn.p4`, with `preset` in its
minimum register. -/
structure RunsTopn (d : Deployment c κ DataPlane.Topn.Registers n)
    (cheetahTopnValue preset : DataPlane.Word) : Prop where
  layout : Layout c false 32
  query : d.query = .topn
  switch : d.switch = (DataPlane.Topn.switch cheetahTopnValue).comap topnHeader
  registers : d.registers = DataPlane.Topn.Registers.init preset

theorem topnHeader_eq (hc : Layout c false 32) (frame : List Byte) (row : Row c)
    (h : unpackPayload c frame = some row) : topnHeader frame = some (topnHeaderOf row) := by
  rw [topnHeader, DataPlane.Topn.extractCheetah,
    Query.Frames.extractOne_of_unpackPayload hc.readable hc.useKey hc.valueBits h]
  rfl

theorem map_value_headers (rows : List (Row c)) :
    (rows.map topnHeaderOf).map (·.value.toNat) = rows.map topnValueOf := List.map_map

end Switch

/-! ### The master -/

section Master
variable {κ : Type} [DecidableEq κ] {c : Config} {n : Nat} {d : Deployment c κ DataPlane.Topn.Registers n}
variable {s : State c κ DataPlane.Topn.Registers n} {cheetahTopnValue preset : DataPlane.Word}

theorem topn_fits (hd : RunsTopn d cheetahTopnValue preset) : UpdatesFit d := by
  intro rows _
  rw [hd.query, updateRows_counted d.format (show QueryType.topn.counted = true from rfl)]
  rfl

/-- Whether the rows the master has counted have the largest values is a matter of the order
in which the switch has read the headers. -/
theorem keepsLargest_read_iff (hd : RunsTopn d cheetahTopnValue preset)
    (hs : (system d InFlight.Clear).Reached s) (hdrained : Drained d s) :
    largest cheetahTopnValue.toNat ((rowsIn c s.bursts.flatten).map topnValueOf : Multiset Nat) =
        largest cheetahTopnValue.toNat ((allRows d).map topnValueOf : Multiset Nat) ↔
      KeepsLargest cheetahTopnValue preset (s.read.filterMap topnHeader) := by
  have hbits := hd.layout.readable.unpackedBits
  have hheader := topnHeader_eq hd.layout
  -- the values of the headers that came out, and of those that went in
  have hforwarded := congrArg (Multiset.map fun h : DataPlane.Topn.Header => h.value.toNat)
    (forwarded_headers hheader hbits hs hdrained)
  rw [hd.switch, hd.registers, Pruner.forwarded_comap, Multiset.map_coe, Multiset.map_coe, Multiset.map_coe,
    map_value_headers] at hforwarded
  have hread := congrArg (Multiset.map fun h : DataPlane.Topn.Header => h.value.toNat)
    (read_headers hheader hbits hs hdrained)
  rw [Multiset.map_coe, Multiset.map_coe, Multiset.map_coe, map_value_headers] at hread
  rw [KeepsLargest, hforwarded, hread]

/-- Any order of the rows can be the one in which the switch reads them. -/
theorem reach_headers (hd : RunsTopn d cheetahTopnValue preset) (hports : ∀ i, (d.port i).Progresses)
    (hids : Function.Injective d.workerId) {headers : List DataPlane.Topn.Header}
    (hperm : headers.Perm ((allRows d).map topnHeaderOf)) :
    ∃ s, (system d InFlight.Clear).Reached s ∧ Drained d s ∧ s.read.filterMap topnHeader = headers := by
  have hbits := hd.layout.readable.unpackedBits
  obtain ⟨order, rfl, horder⟩ : ∃ order : List (Row c), headers = order.map topnHeaderOf ∧
      order.Perm (allRows d) :=
    (congrFun₂ (List.eq_map_comp_perm topnHeaderOf) _ _).mpr hperm
  obtain ⟨s, hs, hdrained, _, _, _, hread, _⟩ := reach_order hbits hports hids (topn_fits hd) horder
  refine ⟨s, hs, hdrained, ?_⟩
  rw [filterMap_header (read_rows hbits hs) fun frame _ => topnHeader_eq hd.layout frame, hread,
    List.filterMap_map, ← List.filterMap_eq_map]
  rfl

/-- **TOP N over the deployment.** The rows the master has counted once everything has arrived
have the largest values of the rows of all whole batches, in every run in which no packet is
rewritten before it is read, exactly when the values are not perilous. -/
theorem topn_answer_iff (hd : RunsTopn d cheetahTopnValue preset) (hpos : 0 < cheetahTopnValue.toNat)
    (hvalue : cheetahTopnValue.toNat ≤ 2 ^ 31) (hpreset : preset.toNat < 2 ^ 30)
    (hports : ∀ i, (d.port i).Progresses) (hids : Function.Injective d.workerId)
    (hflows : ∀ row ∈ allRows d, (topnHeaderOf row).flowId = 1)
    (hvalues : ∀ row ∈ allRows d, topnValueOf row < 2 ^ 31) :
    (∀ s, (system d InFlight.Clear).Reached s → Drained d s →
      largest cheetahTopnValue.toNat ((rowsIn c s.bursts.flatten).map topnValueOf : Multiset Nat) =
        largest cheetahTopnValue.toNat ((allRows d).map topnValueOf : Multiset Nat)) ↔
      ¬ Perilous cheetahTopnValue.toNat preset.toNat ((allRows d).map topnValueOf) := by
  have hflow : ∀ p ∈ (allRows d).map topnHeaderOf, p.flowId = 1 := List.forall_mem_map.mpr hflows
  have hbound : ∀ p ∈ (allRows d).map topnHeaderOf, p.value.toNat < 2 ^ 31 := List.forall_mem_map.mpr hvalues
  constructor
  · intro hall h
    rw [← map_value_headers] at h
    obtain ⟨headers, hperm, hlost⟩ := Query.Topn.loses_of_perilous hpos hvalue hpreset hflow hbound h
    obtain ⟨s, hs, hdrained, rfl⟩ := reach_headers hd hports hids hperm
    exact hlost ((keepsLargest_read_iff hd hs hdrained).mp (hall s hs hdrained))
  · intro h s hs hdrained
    have hread := read_headers (topnHeader_eq hd.layout) hd.layout.readable.unpackedBits hs hdrained
    rw [← map_value_headers] at h
    rw [keepsLargest_read_iff hd hs hdrained]
    exact Query.Topn.keepsLargest_of_safe hvalue hpreset hflow hbound h (Multiset.coe_eq_coe.mp hread).subperm

end Master

/-! ### One worker -/

/-- The largest of the numbers from 1 to 32 is asked for. -/
def oneTopn : Deployment valuesOnly Word DataPlane.Topn.Registers 1 where
  nodes := ControlMessage.shippedNodes
  query := .topn
  format := ⟨id, fun value => value.setWidth 32⟩
  queries := ⟨none, none, none⟩
  switch := (DataPlane.Topn.switch 1).comap topnHeader
  registers := DataPlane.Topn.Registers.init DataPlane.Topn.minPreset
  workerNodes := 1
  workerId := fun _ => 1
  state := fun _ => zeroState
  pool := fun _ => zeroPool
  port := fun _ => wholePort
  sim := fun _ => columnSim valuesOnly upTo32 thirtyTwo_fits

theorem oneTopn_runs : RunsTopn oneTopn 1 DataPlane.Topn.minPreset := ⟨⟨⟨rfl, rfl⟩, rfl, rfl⟩, rfl, rfl, rfl⟩

theorem oneTopn_values : (allRows oneTopn).map topnValueOf = (List.range 32).map (· + 1) := by decide

theorem oneTopn_perilous :
    Perilous 1 DataPlane.Topn.minPreset.toNat ((allRows oneTopn).map topnValueOf) := by
  rw [oneTopn_values]
  decide

/-- It is lost in some run. -/
theorem topn_answer_iff_one :
    ∃ s, (system oneTopn InFlight.Clear).Reached s ∧ Drained oneTopn s ∧
      largest 1 ((rowsIn valuesOnly s.bursts.flatten).map topnValueOf : Multiset Nat) ≠
        largest 1 ((allRows oneTopn).map topnValueOf : Multiset Nat) := by
  have hbound : ∀ row ∈ allRows oneTopn, topnValueOf row < 2 ^ 31 := by
    intro row hrow
    have hmem := List.mem_map_of_mem (f := topnValueOf) hrow
    rw [oneTopn_values] at hmem
    obtain ⟨k, hk, heq⟩ := List.mem_map.mp hmem
    have hk := List.mem_range.mp hk
    omega
  have hiff := topn_answer_iff oneTopn_runs (by decide) (by decide) (by decide) (fun _ => wholePort_progresses)
    (Function.injective_of_subsingleton _) (by decide) hbound
  by_contra hnone
  refine hiff.mp (fun s hs hdrained => ?_) oneTopn_perilous
  by_contra hlost
  exact hnone ⟨s, hs, hdrained, hlost⟩

end Cheetah.System
