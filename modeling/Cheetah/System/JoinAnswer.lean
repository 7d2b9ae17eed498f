import Cheetah.System.Completion
import Cheetah.Query.Frames
import Cheetah.Query.JoinOrder

/-! JOIN over the deployment that is shipped.

The frames of both tables reach the switch in any order. If the Bloom filters tell the
primary rows apart, which is what filters are for, no primary row gets to the master: what
it pairs are secondary rows. -/
namespace Cheetah.System
open Lib Lib.Bytes Host Host.StreamReceiver Host.ControlFlow Host.Master Host.Join
open DataPlane (cheetahBits)
open Query.Join (Alone Tables)

/-! ### The switch -/

section Switch
variable {ι κ : Type} [DecidableEq ι] {n : Nat}

/-- What `cheetah_join.p4` takes off a frame; the UDP header is behind 34 bytes. -/
def joinHeader (frame : List Byte) : Option DataPlane.Join.Header := do
  let (dstPort, _) ← BitFields.field 16 (BitFields.wireBits (frame.drop 36))
  DataPlane.Join.extractCheetah dstPort (cheetahBits frame)

/-- The header of a row that is sent to port 4242. -/
def joinHeaderOf (row : Row shipped) : DataPlane.Join.Header :=
  ⟨4242, row.flowId, row.rowId, row.key, row.value⟩

/-- The shipped master, with a table of `hcreate_r`, and a switch with `cheetah_join.p4`. -/
structure RunsJoin (d : Deployment shipped κ (DataPlane.Join.Registers ι) n)
    (hash : DataPlane.Join.Bloom → DataPlane.Word → ι) (hc : Hcreate) : Prop where
  query : d.query = .join
  queries : shippedQueries hc = some d.queries
  switch : d.switch = (DataPlane.Join.switch hash).comap joinHeader
  registers : d.registers = DataPlane.Join.Registers.zero
  port : ∀ i, (d.state i).udpDestinationPort = 4242

/-- The header of a frame with its headers and a row. -/
theorem joinHeader_eq {state : ConnectionState} {frame : List Byte} {row : Row shipped}
    (hheaded : Headed state frame) (hport : state.udpDestinationPort = 4242)
    (h : unpackPayload shipped frame = some row) : joinHeader frame = some (joinHeaderOf row) := by
  have hslice := hheaded.udp (2, image (cpuToBe state.udpDestinationPort)) (by simp [udpFields])
  rw [length_image, hport] at hslice
  have hdrop : frame.drop 36 = image (byteSwap (4242 : BitVec 16)) ++ frame.drop 38 := by
    rw [show (38 : Nat) = 36 + 2 from rfl, ← List.drop_drop]
    conv_lhs => rw [← List.take_append_drop 2 (frame.drop 36)]
    exact congrArg (· ++ _) hslice
  have hfield : BitFields.field 16 (BitFields.wireBits (frame.drop 36)) =
      some (4242, BitFields.wireBits (frame.drop 38)) := by
    rw [hdrop]
    exact BitFields.field_image (by decide) _ _
  rw [joinHeader, hfield]
  show DataPlane.Join.extractCheetah 4242 (cheetahBits frame) = _
  rw [DataPlane.Join.extractCheetah, Query.Frames.extractTwo_of_unpackPayload ⟨rfl, rfl⟩ rfl rfl h]
  exact congrArg some (congrArg₂ _ (BitVec.setWidth_eq _) (BitVec.setWidth_eq _))

end Switch

/-! ### The master -/

section Master
variable {ι κ : Type} [DecidableEq ι] [DecidableEq κ] {n : Nat}
variable {d : Deployment shipped κ (DataPlane.Join.Registers ι) n}
variable {s : State shipped κ (DataPlane.Join.Registers ι) n}
variable {hash : DataPlane.Join.Bloom → DataPlane.Word → ι} {hc : Hcreate}

theorem wires_joinHeader (hd : RunsJoin d hash hc) (hs : (system d InFlight.Clear).Reached s) :
    ∀ frame ∈ s.wires, ∀ row, unpackPayload shipped frame = some row →
      joinHeader frame = some (joinHeaderOf row) := by
  intro frame hframe row hrow
  obtain ⟨i, hwhole⟩ := wires_whole rfl hs hframe
  exact joinHeader_eq hwhole.headed (hd.port i) hrow

/-- The rows that come out of the switch are secondary ones. -/
theorem secondary_of_forwarded (hd : RunsJoin d hash hc) (htables : Tables ((allRows d).map joinHeaderOf))
    (halone : Alone hash ((allRows d).map joinHeaderOf)) (hs : (system d InFlight.Clear).Reached s)
    {frame : List Byte} (h : frame ∈ d.switch.forwarded d.registers s.read) {row : Row shipped}
    (hrow : unpackPayload shipped frame = some row) : tableOf row = .secondary := by
  have hwire : frame ∈ s.wires := by
    rw [(reached_inv hs).wires]
    exact Multiset.mem_add.mpr (.inr (d.switch.forwarded_subset d.registers s.read h))
  have hheader := wires_joinHeader hd hs frame hwire row hrow
  have hmem : joinHeaderOf row ∈ Query.Join.forwarded hash (s.read.filterMap joinHeader) := by
    rw [Query.Join.forwarded, ← Pruner.forwarded_comap, ← hd.switch, ← hd.registers]
    exact List.mem_filterMap.mpr ⟨frame, h, hheader⟩
  have hflow := Query.Join.forwarded_secondary htables halone
    (read_headers_le rfl hs (wires_joinHeader hd hs)) hmem
  have hsecond : row.flowId.setWidth 16 ≠ 1 := by
    rw [show row.flowId.setWidth 16 = (2 : BitVec 16) from hflow]
    decide
  exact if_neg hsecond

/-- What the master does with any rows. -/
theorem join_updates (hd : RunsJoin d hash hc) (rows : List (Row shipped)) :
    if Fits d.format.key (hc.capacity 40000) 100000 (rows.map joinCall) then
      ∃ joinState, updateRows d.format d.query (d.queries, 0) rows =
          some (⟨none, none, some joinState⟩, BitVec.ofNat 64 rows.length) ∧
        joinView joinState = (produced d.format.key (rows.map joinCall)).map some
    else updateRows d.format d.query (d.queries, 0) rows = none := by
  obtain ⟨queries, hqueries, hupdates⟩ := @shipped_updates κ _ shipped hc d.format
  obtain rfl := Option.some.inj (hqueries.symm.trans hd.queries)
  rw [hd.query]
  exact hupdates rows

/-- The updates have a result when there is room for the entries of any of the rows; the table
then has room for their keys. -/
theorem join_fits (hd : RunsJoin d hash hc) (hroom : (allRows d).length * (allRows d).length ≤ 100000) :
    UpdatesFit d := by
  intro rows hle
  have hlength : (rows.map joinCall).length ≤ (allRows d).length := by
    rw [List.length_map]
    exact Multiset.card_le_card hle
  have hentries := Nat.le_trans (@Query.Join.length_produced_le_mul κ _ d.format.key (rows.map joinCall))
    (Nat.mul_le_mul hlength hlength)
  have hfew : (allRows d).length ≤ 40000 := by
    by_contra hmany
    have hsquare := Nat.mul_le_mul (Nat.lt_of_not_le hmany) (Nat.lt_of_not_le hmany)
    omega
  have hkeys : ∀ n, hc.capacity 40000 = some n →
      ((rows.map joinCall).map fun c => d.format.key c.key).eraseDups.length ≤ n := by
    intro n hn
    refine Nat.le_trans (length_eraseDups_le _) ?_
    rw [List.length_map]
    exact Nat.le_trans (Nat.le_trans hlength hfew) (hc.holds 40000 n hn)
  have hupdates := join_updates hd rows
  rw [if_pos ⟨Nat.le_trans hentries hroom, hkeys⟩] at hupdates
  obtain ⟨_, hupdates, _⟩ := hupdates
  rw [hupdates]
  rfl

/-- The master's store holds what the hash join outputs for its rows. -/
theorem join_stored (hd : RunsJoin d hash hc) (hs : (system d InFlight.Clear).Reached s) :
    ∃ state, s.master.queries.joinState = some state ∧
      joinView state =
        (produced d.format.key ((rowsIn shipped s.bursts.flatten).map joinCall)).map some := by
  have hupdates := join_updates hd (rowsIn shipped s.bursts.flatten)
  split at hupdates
  · obtain ⟨state, hupdates, hview⟩ := hupdates
    exact ⟨state, by rw [queries_eq (reached_inv hs) hupdates], hview⟩
  · cases hupdates.symm.trans (reached_inv hs).master.updates

/-- **JOIN over the shipped deployment**, in any run in which no packet is rewritten before
it is read. When every primary row has a bit of its own in one of the first five filters,
the switch passes no primary row on, in whatever order the frames come, and every entry of
the master's store pairs two secondary rows with one key. -/
theorem join_answer (hd : RunsJoin d hash hc) (htables : Tables ((allRows d).map joinHeaderOf))
    (halone : Alone hash ((allRows d).map joinHeaderOf)) (hs : (system d InFlight.Clear).Reached s) :
    (∀ frame ∈ d.switch.forwarded d.registers s.read, ∀ row, unpackPayload shipped frame = some row →
        tableOf row = .secondary) ∧
      ∃ state, s.master.queries.joinState = some state ∧
        ∀ p t, some ⟨p, t⟩ ∈ joinView state → ∃ a ∈ allRows d, ∃ b ∈ allRows d,
          tableOf a = .secondary ∧ tableOf b = .secondary ∧ a.key = b.key ∧ a.rowId = p ∧ b.rowId = t := by
  have hforwarded : ∀ frame ∈ d.switch.forwarded d.registers s.read, ∀ row,
      unpackPayload shipped frame = some row → tableOf row = .secondary :=
    fun frame hframe row hrow => secondary_of_forwarded hd htables halone hs hframe hrow
  have hsecondary : ∀ row ∈ rowsIn shipped s.bursts.flatten, tableOf row = .secondary := by
    intro row hmem
    obtain ⟨frame, hframe, hrow⟩ := (mem_rowsIn rfl hs row).mp hmem
    exact hforwarded frame (received_forwarded (reached_inv hs) hframe) row hrow
  have hall := rowsIn_subset rfl hs
  obtain ⟨state, hstate, hview⟩ := join_stored hd hs
  refine ⟨hforwarded, state, hstate, fun p t hmem => ?_⟩
  rw [hview, List.mem_map_of_injective (Option.some_injective _)] at hmem
  obtain ⟨_, hcall, _, hcall', hkey, rfl, rfl, _⟩ := Query.Join.mem_produced hmem
  obtain ⟨a, ha, rfl⟩ := List.mem_map.mp hcall
  obtain ⟨b, hb, rfl⟩ := List.mem_map.mp hcall'
  refine ⟨a, hall ha, b, hall hb, hsecondary a ha, hsecondary b hb, ?_, rfl, rfl⟩
  exact (BitVec.setWidth_eq a.key).symm.trans (hkey.trans (BitVec.setWidth_eq b.key))

end Master

/-! ### Two tables of 16 rows -/

/-- Keys 0 to 15, each in a primary and in a secondary row. -/
def tablesSim : MemorySim shipped :=
  numberedSim 32 (fun k => ⟨BitVec.ofNat _ (1 + k % 2), BitVec.ofNat _ (k / 2), 0#_, BitVec.ofNat _ k⟩)
    thirtyTwo_fits

/-- One worker, and filters with a bit for every key. -/
def oneJoin : Deployment shipped Word (DataPlane.Join.Registers Word) 1 where
  nodes := ControlMessage.shippedNodes
  query := .join
  format := ⟨id, fun value => value.setWidth 32⟩
  queries := ⟨none, none, some ⟨Buffer.malloc 100000, 100000, 0, Hcreate.least.create 40000, []⟩⟩
  switch := (DataPlane.Join.switch fun _ key => key).comap joinHeader
  registers := DataPlane.Join.Registers.zero
  workerNodes := 1
  workerId := fun _ => 1
  state := fun _ => zeroState
  pool := fun _ => zeroPool
  port := fun _ => wholePort
  sim := fun _ => tablesSim

theorem oneJoin_runs : RunsJoin oneJoin (fun _ key => key) Hcreate.least := ⟨rfl, rfl, rfl, rfl, fun _ => rfl⟩

theorem oneJoin_tables : Tables ((allRows oneJoin).map joinHeaderOf) := ⟨by decide, by decide⟩

theorem oneJoin_alone : Alone (fun _ key => key) ((allRows oneJoin).map joinHeaderOf) := by
  have hone : ∀ h ∈ (allRows oneJoin).map joinHeaderOf, ((allRows oneJoin).map joinHeaderOf).countP
      (Query.Join.sharing (fun _ key => key) .one (DataPlane.Join.index (fun _ key => key) .one h.key)) ≤ 1 := by
    decide
  exact fun h hmem _ => ⟨.one, by decide, hone h hmem⟩

/-- All 32 rows are sent, and 16 of them should have been paired. -/
theorem join_answer_one :
    ∃ s, (system oneJoin InFlight.Clear).Reached s ∧ Drained oneJoin s ∧
      (∀ frame ∈ oneJoin.switch.forwarded oneJoin.registers s.read, ∀ row,
        unpackPayload shipped frame = some row → tableOf row = .secondary) ∧
      ∃ state, s.master.queries.joinState = some state ∧
        ∀ p t, some ⟨p, t⟩ ∈ joinView state → ∃ a ∈ allRows oneJoin, ∃ b ∈ allRows oneJoin,
          tableOf a = .secondary ∧ tableOf b = .secondary ∧ a.key = b.key ∧ a.rowId = p ∧ b.rowId = t := by
  obtain ⟨s, hs, hdrained, _⟩ := reach_drained (d := oneJoin) rfl (fun _ => wholePort_progresses)
    (Function.injective_of_subsingleton _) (join_fits oneJoin_runs (by decide))
  exact ⟨s, hs, hdrained, join_answer oneJoin_runs oneJoin_tables oneJoin_alone hs⟩

end Cheetah.System
