import Cheetah.System.Protocol
import Cheetah.Host.Master
import Cheetah.Host.InFlight
import Cheetah.Lib.Pruning

/-! The master, its workers, the switch and the script, together.

Every party runs its own code and takes a step when it likes: the master a turn of its
loop, a worker a step of `InFlight`, the switch a frame. Frames wait on the way to the
switch, where the workers' frames mix, and on the way to the master; control messages wait
for whoever is at their address. Any of them may get lost. A port is never closed here and
no socket is ever missing: the worker closes its port after its ack, and the script has a
socket once it runs. `inv_step` says what every step keeps: where each frame is, and what
the master has made of those it was given. -/
namespace Cheetah.System
open Lib Host Host.ControlMessage Host.StreamReceiver Host.ControlFlow Host.Master Protocol

/-! ### Parties -/

/-- A build of the master and of `n` workers, and the program on the switch. -/
structure Deployment (c : Config) (κ R : Type) (n : Nat) where
  nodes : Nodes
  query : QueryType
  format : Formats κ
  /-- The states the master has made before its loop. -/
  queries : Queries κ
  /-- What the program makes of a frame. -/
  switch : Pruner (List Byte) R
  registers : R
  /-- `CHEETAH_WORKER_NODES` of `control_flow_constants.py`. -/
  workerNodes : Nat
  /-- `CHEETAH_WORKER_ID` of each worker. -/
  workerId : Fin n → Int
  state : Fin n → ConnectionState
  pool : Fin n → Mempool
  port : Fin n → FastPacketStream.Port
  sim : Fin n → MemorySim c

structure State (c : Config) (κ R : Type) (n : Nat) where
  master : MasterState c κ
  phase : Fin n → Phase
  worker : Fin n → InFlight.State
  /-- Datagrams on the control network. -/
  control : List Datagram
  /-- Frames between the workers and the switch. -/
  upstream : List (List Byte)
  registers : R
  /-- Frames between the switch and the master. -/
  downstream : List (List Byte)
  /-- Turns of the loop of `receive_ack_end.py`. -/
  counted : Nat
  /-- What the switch has read, what the master has received and what got lost, so far. -/
  read : List (List Byte)
  bursts : List (List RxMbuf)
  lostUp : List (List Byte)
  lostDown : List (List Byte)

inductive Act (n : Nat) where
  /-- The master's loop, with the burst it receives. -/
  | turn (burst : List RxMbuf)
  /-- `cheetah_control_message_await_query` returns with datagram `j`. -/
  | query (i : Fin n) (j : Nat)
  /-- It returns at once. -/
  | skip (i : Fin n)
  /-- The loops of `cheetah_control_flow_worker`, or its port. -/
  | work (i : Fin n) (a : InFlight.Act)
  /-- `cheetah_control_message_send_ack`, after the loops. -/
  | ack (i : Fin n)
  /-- The switch reads frame `j` of those that wait for it. -/
  | switch (j : Nat)
  /-- `receive_ack_end.py` receives datagram `j`. -/
  | count (j : Nat)
  /-- A datagram or a frame gets lost. -/
  | loseControl (j : Nat)
  | loseUp (j : Nat)
  | loseDown (j : Nat)

section Steps
variable {c : Config} {κ R : Type} [DecidableEq κ] {n : Nat} (d : Deployment c κ R n)

/-- One step of one party, or of the network. -/
def step (s : State c κ R n) : Act n → Option (State c κ R n)
  | .turn burst =>
    if burst.length ≤ receiverBatchSize ∧ burst.map (fun mbuf => mbuf.frame) <+: s.downstream then do
      let master ← turn d.format d.nodes d.query s.master burst
      some { s with
        master := master
        control := s.control ++ master.sent.drop s.master.sent.length
        downstream := s.downstream.drop burst.length
        bursts := s.bursts ++ [burst] }
    else none
  | .query i j => do
    -- whatever the datagram says, the worker goes on
    let datagram ← s.control[j]?
    if s.phase i = .waiting ∧ awaitAddress d.nodes (d.workerId i) = some datagram.dest then
      some {s with phase := Function.update s.phase i .streaming, control := s.control.eraseIdx j}
    else none
  | .skip i =>
    if s.phase i = .waiting ∧ awaitAddress d.nodes (d.workerId i) = none then
      some {s with phase := Function.update s.phase i .streaming}
    else none
  | .work i a =>
    if s.phase i = .streaming ∨ a = .transmit then do
      let worker ← InFlight.step c (d.port i) (d.sim i) (s.worker i) a
      some { s with
        worker := Function.update s.worker i worker
        upstream := s.upstream ++ worker.wire.drop (s.worker i).wire.length }
    else none
  | .ack i =>
    if s.phase i = .streaming ∧ (s.worker i).batch = (d.sim i).entryCount / batchSize then
      some {s with phase := Function.update s.phase i .done, control := s.control ++ [sendAck]}
    else none
  | .switch j => do
    let frame ← s.upstream[j]?
    some { s with
      upstream := s.upstream.eraseIdx j
      registers := d.switch.step s.registers frame
      downstream := s.downstream ++ if d.switch.drops s.registers frame then [] else [frame]
      read := s.read ++ [frame] }
  | .count j => do
    let datagram ← s.control[j]?
    if s.master.scripts ≠ 0 ∧ s.counted < d.workerNodes ∧ datagram.dest = ackAddress then
      some {s with control := s.control.eraseIdx j, counted := s.counted + 1}
    else none
  | .loseControl j => do
    let _ ← s.control[j]?
    some {s with control := s.control.eraseIdx j}
  | .loseUp j => do
    let frame ← s.upstream[j]?
    some {s with upstream := s.upstream.eraseIdx j, lostUp := s.lostUp ++ [frame]}
  | .loseDown j => do
    let frame ← s.downstream[j]?
    some {s with downstream := s.downstream.eraseIdx j, lostDown := s.lostDown ++ [frame]}

/-- Before any step, with the workers' packets made. -/
def initial (worker : Fin n → InFlight.State) : State c κ R n where
  master := Master.start c d.queries
  phase := fun _ => .waiting
  worker := worker
  control := []
  upstream := []
  registers := d.registers
  downstream := []
  counted := 0
  read := []
  bursts := []
  lostUp := []
  lostDown := []

/-- The runs in which the steps of every worker meet `Q`. -/
def system (Q : InFlight.State → InFlight.Act → Prop) : Transitions (State c κ R n) where
  start s := ∃ worker, (∀ i, InFlight.start c (d.state i) (d.pool i) = some (worker i)) ∧
    s = initial d worker
  next s s' := ∃ a, (∀ i b, a = .work i b → Q (s.worker i) b) ∧ step d s a = some s'

end Steps

section Ends
variable {c : Config} {κ R : Type} {n : Nat}

/-- The worker's loops are over: every whole batch is with its port. -/
def HandedOver (d : Deployment c κ R n) (s : State c κ R n) (i : Fin n) : Prop :=
  (s.worker i).batch = (d.sim i).entryCount / batchSize

instance (s : State c κ R n) : DecidablePred (HandedOver d s) := fun _ => inferInstanceAs (Decidable (_ = _))

/-- Everything is handed over and received. -/
structure Drained (d : Deployment c κ R n) (s : State c κ R n) : Prop where
  handed : ∀ i, HandedOver d s i
  queue : ∀ i, (s.worker i).queue = []
  upstream : s.upstream = []
  downstream : s.downstream = []
  lostUp : s.lostUp = []
  lostDown : s.lostDown = []

/-- The rows of all whole batches. -/
def allRows (d : Deployment c κ R n) : List (Row c) :=
  (List.finRange n).flatMap fun i => (d.sim i).rows.take (batchSize * ((d.sim i).entryCount / batchSize))

end Ends

/-- The frames of some bursts. -/
def received (bursts : List (List RxMbuf)) : List (List Byte) := bursts.flatten.map fun mbuf => mbuf.frame

theorem received_concat (bursts : List (List RxMbuf)) (burst : List RxMbuf) :
    received (bursts ++ [burst]) = received bursts ++ burst.map fun mbuf => mbuf.frame := by
  rw [received, List.flatten_append, List.flatten_singleton, List.map_append, received]

/-! ### Datasets -/

/-- A layout without keys. -/
def valuesOnly : Config := ⟨true, false, false, false⟩

/-- The numbers from 1 to 32. -/
def upTo32 : List Int := (List.range 32).map fun k => (k : Int) + 1

theorem thirtyTwo_fits : 32 ≤ memoryEntryCount := by decide

/-- The first `n` of a sequence of rows. -/
def numberedSim {c : Config} (n : Nat) (row : Nat → Row c) (h : n ≤ memoryEntryCount) : MemorySim c where
  rowIdArr := (List.range n).map fun k => (row k).rowId
  valueArr := (List.range n).map fun k => (row k).value
  keyArr := (List.range n).map fun k => (row k).key
  flowIdArr := (List.range n).map fun k => (row k).flowId
  entryCount := n
  length_rowIdArr := by simp
  length_valueArr := by simp
  length_keyArr := by simp
  length_flowIdArr := by simp
  entryCount_le := h

section Column
variable (c : Config) (column : List Int)

/-- A dataset of flow 1 with a column of values. -/
def columnSim (h : column.length ≤ memoryEntryCount) : MemorySim c where
  rowIdArr := (List.range column.length).map (BitVec.ofNat _)
  valueArr := column.map (BitVec.ofInt _)
  keyArr := List.replicate column.length 0
  flowIdArr := List.replicate column.length 1
  entryCount := column.length
  length_rowIdArr := by simp
  length_valueArr := by simp
  length_keyArr := by simp
  length_flowIdArr := by simp
  entryCount_le := h

variable {c column}

theorem columnSim_rows {h : column.length ≤ memoryEntryCount} {row : Row c}
    (hrow : row ∈ (columnSim c column h).rows) :
    row.flowId = 1 ∧ ∃ v ∈ column, row.value = BitVec.ofInt c.valueBits v := by
  obtain ⟨k, rfl⟩ := List.mem_ofFn.mp hrow
  obtain ⟨v, hv, heq⟩ := List.mem_map.mp (List.get_mem (column.map (BitVec.ofInt c.valueBits))
    (k.cast (columnSim c column h).length_valueArr.symm))
  refine ⟨?_, v, hv, heq.symm⟩
  simp [columnSim]

end Column

/-! ### Steps -/

section Cases
variable {c : Config} {κ R : Type} [DecidableEq κ] {n : Nat} {d : Deployment c κ R n}
variable {s s' : State c κ R n}

theorem step_turn {burst : List RxMbuf} (h : step d s (.turn burst) = some s') :
    ∃ master, burst.length ≤ receiverBatchSize ∧ burst.map (fun mbuf => mbuf.frame) <+: s.downstream ∧
      turn d.format d.nodes d.query s.master burst = some master ∧
      s' = { s with
        master := master
        control := s.control ++ master.sent.drop s.master.sent.length
        downstream := s.downstream.drop burst.length
        bursts := s.bursts ++ [burst] } := by
  rw [step] at h
  split at h
  · rename_i hguard
    obtain ⟨master, hturn, hs⟩ := Option.bind_eq_some_iff.mp h
    exact ⟨master, hguard.1, hguard.2, hturn, (Option.some.inj hs).symm⟩
  · cases h

theorem step_query {i : Fin n} {j : Nat} (h : step d s (.query i j) = some s') :
    ∃ datagram, s.control[j]? = some datagram ∧ s.phase i = .waiting ∧
      awaitAddress d.nodes (d.workerId i) = some datagram.dest ∧
      s' = {s with phase := Function.update s.phase i .streaming, control := s.control.eraseIdx j} := by
  obtain ⟨datagram, hj, h⟩ := Option.bind_eq_some_iff.mp h
  split at h
  · rename_i hguard
    exact ⟨datagram, hj, hguard.1, hguard.2, (Option.some.inj h).symm⟩
  · cases h

theorem step_skip {i : Fin n} (h : step d s (.skip i) = some s') :
    s.phase i = .waiting ∧ awaitAddress d.nodes (d.workerId i) = none ∧
      s' = {s with phase := Function.update s.phase i .streaming} := by
  rw [step] at h
  split at h
  · rename_i hguard
    exact ⟨hguard.1, hguard.2, (Option.some.inj h).symm⟩
  · cases h

theorem step_work {i : Fin n} {a : InFlight.Act} (h : step d s (.work i a) = some s') :
    ∃ worker, (s.phase i = .streaming ∨ a = .transmit) ∧
      InFlight.step c (d.port i) (d.sim i) (s.worker i) a = some worker ∧
      s' = { s with
        worker := Function.update s.worker i worker
        upstream := s.upstream ++ worker.wire.drop (s.worker i).wire.length } := by
  rw [step] at h
  split at h
  · rename_i hguard
    obtain ⟨worker, hstep, hs⟩ := Option.bind_eq_some_iff.mp h
    exact ⟨worker, hguard, hstep, (Option.some.inj hs).symm⟩
  · cases h

theorem step_ack {i : Fin n} (h : step d s (.ack i) = some s') :
    s.phase i = .streaming ∧ (s.worker i).batch = (d.sim i).entryCount / batchSize ∧
      s' = {s with phase := Function.update s.phase i .done, control := s.control ++ [sendAck]} := by
  rw [step] at h
  split at h
  · rename_i hguard
    exact ⟨hguard.1, hguard.2, (Option.some.inj h).symm⟩
  · cases h

theorem step_switch {j : Nat} (h : step d s (.switch j) = some s') :
    ∃ frame, s.upstream[j]? = some frame ∧
      s' = { s with
        upstream := s.upstream.eraseIdx j
        registers := d.switch.step s.registers frame
        downstream := s.downstream ++ if d.switch.drops s.registers frame then [] else [frame]
        read := s.read ++ [frame] } := by
  obtain ⟨frame, hj, h⟩ := Option.bind_eq_some_iff.mp h
  exact ⟨frame, hj, (Option.some.inj h).symm⟩

theorem step_count {j : Nat} (h : step d s (.count j) = some s') :
    ∃ datagram, s.control[j]? = some datagram ∧ s.master.scripts ≠ 0 ∧ s.counted < d.workerNodes ∧
      datagram.dest = ackAddress ∧
      s' = {s with control := s.control.eraseIdx j, counted := s.counted + 1} := by
  obtain ⟨datagram, hj, h⟩ := Option.bind_eq_some_iff.mp h
  split at h
  · rename_i hguard
    exact ⟨datagram, hj, hguard.1, hguard.2.1, hguard.2.2, (Option.some.inj h).symm⟩
  · cases h

theorem step_loseControl {j : Nat} (h : step d s (.loseControl j) = some s') :
    ∃ datagram, s.control[j]? = some datagram ∧ s' = {s with control := s.control.eraseIdx j} := by
  obtain ⟨datagram, hj, h⟩ := Option.bind_eq_some_iff.mp h
  exact ⟨datagram, hj, (Option.some.inj h).symm⟩

theorem step_loseUp {j : Nat} (h : step d s (.loseUp j) = some s') :
    ∃ frame, s.upstream[j]? = some frame ∧
      s' = {s with upstream := s.upstream.eraseIdx j, lostUp := s.lostUp ++ [frame]} := by
  obtain ⟨frame, hj, h⟩ := Option.bind_eq_some_iff.mp h
  exact ⟨frame, hj, (Option.some.inj h).symm⟩

theorem step_loseDown {j : Nat} (h : step d s (.loseDown j) = some s') :
    ∃ frame, s.downstream[j]? = some frame ∧
      s' = {s with downstream := s.downstream.eraseIdx j, lostDown := s.lostDown ++ [frame]} := by
  obtain ⟨frame, hj, h⟩ := Option.bind_eq_some_iff.mp h
  exact ⟨frame, hj, (Option.some.inj h).symm⟩

end Cases
end Cheetah.System
