import Cheetah.System.GroupbyAnswer

/-! How long a run can get.

A row has a fixed number of steps before it: its packet is rewritten, read by the port, read
by the switch and received. So has a batch, a datagram and a worker. `work` counts those of a
state, and every step but an empty turn of the master is one of them, whoever takes it and
whatever gets lost. -/
namespace Cheetah.System
open Lib Host Host.ControlMessage Host.StreamReceiver Host.ControlFlow Host.Master Protocol

/-- The frames the master receives in a turn; any other step counts once. -/
def Act.amount {n : Nat} : Act n → Nat
  | .turn burst => burst.length
  | _ => 1

/-- The steps before a worker's packets: each row is rewritten, queued, read by the port and
the switch and received, and each batch is sent. -/
def loopWork {c : Config} (sim : MemorySim c) (w : InFlight.State) : Nat :=
  (4 * batchSize + 1) * (sim.entryCount / batchSize - w.batch) - w.packet + 3 * w.queue.length

section Work
variable {c : Config} {κ R : Type} {n : Nat} (d : Deployment c κ R n) (s : State c κ R n)

/-- The steps before a worker besides: it begins, acknowledges, and its acknowledgement is
taken from the network. With an address it begins with a datagram, which is counted there. -/
def phaseWork (i : Fin n) : Phase → Nat
  | .waiting => if awaitAddress d.nodes (d.workerId i) = none then 3 else 2
  | .streaming => 2
  | .done => 0

def workerWork (i : Fin n) (phase : Phase) (w : InFlight.State) : Nat := phaseWork d i phase + loopWork (d.sim i) w

/-- The datagrams the master has not sent. -/
def offloadWork : Nat := if s.master.offloaded then 0 else (offloadAddresses d.nodes).length

/-- The steps before a state. -/
def work : Nat :=
  offloadWork d s + s.control.length + ∑ i, workerWork d i (s.phase i) (s.worker i) + 2 * s.upstream.length +
    s.downstream.length

/-- The frames the master does not have to receive. -/
def spared : Nat := (d.switch.dropped d.registers s.read).length + s.lostUp.length

/-- The steps before a deployment, if every frame is to be received. -/
def totalWork : Nat :=
  (offloadAddresses d.nodes).length +
    ∑ i, (phaseWork d i .waiting + (4 * batchSize + 1) * ((d.sim i).entryCount / batchSize))

end Work

/-! ### A worker -/

section Worker
variable {c : Config} {port : FastPacketStream.Port} {sim : MemorySim c} {w w' : InFlight.State}

theorem loopWork_step {a : InFlight.Act} (hinv : InFlight.Inv sim w)
    (h : InFlight.step c port sim w a = some w') :
    loopWork sim w' + 2 * (w'.wire.drop w.wire.length).length + 1 = loopWork sim w := by
  have hsize : batchSize = 32 := rfl
  have hrow : 4 * batchSize + 1 = 129 := rfl
  rcases inFlight_step h with ⟨_, hguard, mem, rfl⟩ | ⟨hguard, _, clones, calls, _, hsend, rfl⟩ |
    ⟨_, cl, rest, frame, hqueue, _, rfl⟩
  · simp only [loopWork, hrow, List.drop_length, List.length_nil]
    omega
  · obtain ⟨hdirect, _⟩ := FastPacketStream.send_clones hinv.crafted (by rw [hinv.packetCount]; decide) hsend
    have hlen : clones.length = batchSize := by
      rw [← List.length_map Clone.direct, hdirect, List.length_range, hinv.packetCount]
    simp only [loopWork, hrow, List.drop_length, List.length_nil, List.length_append, hlen]
    omega
  · simp only [loopWork, hrow, hqueue, List.drop_left', List.length_cons, List.length_nil]
    omega

/-- Nothing is done at the start. -/
theorem loopWork_start {state : ConnectionState} {pool : Mempool} (h : InFlight.start c state pool = some w) :
    loopWork sim w = (4 * batchSize + 1) * (sim.entryCount / batchSize) := by
  obtain ⟨w, hw, _, hqueue, _, hbatch, hpacket⟩ := InFlight.start_spec c state pool sim
  obtain rfl := Option.some.inj (hw.symm.trans h)
  rw [loopWork, hqueue, hbatch, hpacket, Nat.sub_zero, Nat.sub_zero, List.length_nil, Nat.mul_zero, Nat.add_zero]

end Worker

/-! ### The deployment -/

section Steps
variable {c : Config} {κ R : Type} {n : Nat} {d : Deployment c κ R n} {s s' : State c κ R n}

/-- When one summand changes, so does the sum. -/
theorem sum_change {f g : Fin n → Nat} {i : Fin n} (h : ∀ j, j ≠ i → g j = f j) :
    ∑ j, g j + f i = ∑ j, f j + g i := by
  have hrest : ∑ j ∈ Finset.univ.erase i, g j = ∑ j ∈ Finset.univ.erase i, f j :=
    Finset.sum_congr rfl fun j hj => h j (Finset.ne_of_mem_erase hj)
  rw [← Finset.sum_erase_add _ g (Finset.mem_univ i), ← Finset.sum_erase_add _ f (Finset.mem_univ i), hrest]
  omega

theorem workerWork_phase (phase : Fin n → Phase) (worker : Fin n → InFlight.State) (i : Fin n) (p : Phase) :
    ∑ j, workerWork d j (Function.update phase i p j) (worker j) + phaseWork d i (phase i) =
      ∑ j, workerWork d j (phase j) (worker j) + phaseWork d i p := by
  have hsum := @sum_change n (fun j => workerWork d j (phase j) (worker j))
    (fun j => workerWork d j (Function.update phase i p j) (worker j)) i fun j hj => by
      rw [Function.update_of_ne hj]
  simp only [workerWork, Function.update_self] at hsum ⊢
  omega

theorem workerWork_worker (phase : Fin n → Phase) (worker : Fin n → InFlight.State) (i : Fin n)
    (w : InFlight.State) :
    ∑ j, workerWork d j (phase j) (Function.update worker i w j) + loopWork (d.sim i) (worker i) =
      ∑ j, workerWork d j (phase j) (worker j) + loopWork (d.sim i) w := by
  have hsum := @sum_change n (fun j => workerWork d j (phase j) (worker j))
    (fun j => workerWork d j (phase j) (Function.update worker i w j)) i fun j hj => by
      rw [Function.update_of_ne hj]
  simp only [workerWork, Function.update_self] at hsum ⊢
  omega

/-- The steps before a deployment that has begun none. -/
theorem work_initial {worker : Fin n → InFlight.State}
    (hworker : ∀ i, InFlight.start c (d.state i) (d.pool i) = some (worker i)) :
    work d (initial d worker) + spared d (initial d worker) = totalWork d := by
  have hworkers : ∑ i, workerWork d i ((initial d worker).phase i) ((initial d worker).worker i) =
      ∑ i, (phaseWork d i .waiting + (4 * batchSize + 1) * ((d.sim i).entryCount / batchSize)) :=
    Finset.sum_congr rfl fun i _ => congrArg (phaseWork d i .waiting + ·) (loopWork_start (hworker i))
  rw [work, hworkers, totalWork]
  rfl

variable [DecidableEq κ] {Q : InFlight.State → InFlight.Act → Prop}

/-- The master sends its datagrams in its first turn. -/
theorem turn_offloadWork (h : Inv d s) {burst : List RxMbuf} {master : MasterState c κ}
    (hran : Ran d.format d.nodes d.query d.queries (s.bursts ++ [burst]) master) :
    (master.sent.drop s.master.sent.length).length = offloadWork d s := by
  rw [hran.sent, if_neg (List.concat_ne_nil _ _), List.length_drop, h.master.sent, offloadWork, offloadQuery,
    List.length_map]
  by_cases hnil : s.bursts = []
  · rw [if_pos hnil, if_neg fun hoff => h.master.offloaded.mp hoff hnil, List.length_nil, Nat.sub_zero]
  · rw [if_neg hnil, if_pos (h.master.offloaded.mpr hnil), List.length_map, Nat.sub_self]

/-- **One step** does its part of the work, and may spare the master a frame. -/
theorem work_step (hc : c.unpackedBits = c.valueBits) (hs : (system d Q).Reached s) {a : Act n}
    (hstep : step d s a = some s') :
    a.amount + work d s' + spared d s' = work d s + spared d s ∧ spared d s ≤ spared d s' := by
  have hinv := reached_inv hs
  cases a with
  | turn burst =>
    have hran := (inv_step hinv hstep).master
    obtain ⟨master, _, hprefix, _, rfl⟩ := step_turn hstep
    have hsent := turn_offloadWork hinv hran
    have hoff : master.offloaded = true := hran.offloaded.mpr (List.concat_ne_nil _ _)
    have hlen := hprefix.length_le
    rw [List.length_map] at hlen
    simp only [work, spared, Act.amount, List.length_append, List.length_drop, hsent]
    simp only [offloadWork, hoff, if_true]
    omega
  | query i j =>
    obtain ⟨datagram, hj, hwait, haddress, rfl⟩ := step_query hstep
    have hlen := length_eraseIdx hj
    have hworkers := @workerWork_phase _ _ _ _ d s.phase s.worker i .streaming
    rw [hwait, phaseWork, haddress, if_neg (Option.some_ne_none _), phaseWork] at hworkers
    simp only [work, spared, Act.amount, offloadWork]
    omega
  | skip i =>
    obtain ⟨hwait, hnone, rfl⟩ := step_skip hstep
    have hworkers := @workerWork_phase _ _ _ _ d s.phase s.worker i .streaming
    rw [hwait, phaseWork, if_pos hnone, phaseWork] at hworkers
    simp only [work, spared, Act.amount, offloadWork]
    omega
  | work i a =>
    obtain ⟨worker, _, hwork, rfl⟩ := step_work hstep
    have hloop := loopWork_step (InFlight.reached_inv hc (reached_worker hs i)) hwork
    have hworkers := @workerWork_worker _ _ _ _ d s.phase s.worker i worker
    simp only [work, spared, Act.amount, offloadWork, List.length_append]
    omega
  | ack i =>
    obtain ⟨hstream, _, rfl⟩ := step_ack hstep
    have hworkers := @workerWork_phase _ _ _ _ d s.phase s.worker i .done
    rw [hstream, phaseWork, phaseWork] at hworkers
    simp only [work, spared, Act.amount, offloadWork, List.length_append, List.length_singleton]
    omega
  | switch j =>
    obtain ⟨frame, hj, rfl⟩ := step_switch hstep
    have hlen := length_eraseIdx hj
    have hdropped := d.switch.dropped_concat d.registers s.read frame
    rw [← hinv.registers] at hdropped
    cases hdrop : d.switch.drops s.registers frame with
    | false =>
      rw [hdrop, if_neg Bool.false_ne_true, List.append_nil] at hdropped
      simp only [work, spared, Act.amount, offloadWork, List.length_append, hdropped, Bool.false_eq_true,
        if_false, List.length_singleton]
      omega
    | true =>
      rw [hdrop, if_pos rfl] at hdropped
      simp only [work, spared, Act.amount, offloadWork, List.length_append, hdropped, if_true, List.length_nil,
        List.length_singleton]
      omega
  | count j =>
    obtain ⟨datagram, hj, _, _, _, rfl⟩ := step_count hstep
    have hlen := length_eraseIdx hj
    simp only [work, spared, Act.amount, offloadWork]
    omega
  | loseControl j =>
    obtain ⟨datagram, hj, rfl⟩ := step_loseControl hstep
    have hlen := length_eraseIdx hj
    simp only [work, spared, Act.amount, offloadWork]
    omega
  | loseUp j =>
    obtain ⟨frame, hj, rfl⟩ := step_loseUp hstep
    have hlen := length_eraseIdx hj
    simp only [work, spared, Act.amount, offloadWork, List.length_append, List.length_singleton]
    omega
  | loseDown j =>
    obtain ⟨frame, hj, rfl⟩ := step_loseDown hstep
    have hlen := length_eraseIdx hj
    simp only [work, spared, Act.amount, offloadWork]
    omega

/-- **The steps of any run are counted.** Whoever takes them, in whatever order, and whatever
gets lost, the steps taken, with the frames received for the turns, and those still to take are
all there are but those that pruned and lost frames spare. -/
theorem steps_counted (hc : c.unpackedBits = c.valueBits) {worker : Fin n → InFlight.State}
    (hworker : ∀ i, InFlight.start c (d.state i) (d.pool i) = some (worker i)) {as : List (Act n)}
    (h : as.foldlM (step d) (initial d worker) = some s) :
    (as.map Act.amount).sum + work d s + (d.switch.dropped d.registers s.read).length + s.lostUp.length =
      totalWork d := by
  suffices hrun : (system d fun _ _ => True).Reached s ∧
      (as.map Act.amount).sum + work d s + spared d s = totalWork d by
    have hcount := hrun.2
    rw [spared] at hcount
    omega
  induction as using List.reverseRecOn generalizing s with
  | nil =>
    obtain rfl := Option.some.inj h
    refine ⟨.start ⟨worker, hworker, rfl⟩, ?_⟩
    rw [List.map_nil, List.sum_nil, Nat.zero_add, work_initial hworker]
  | append_singleton as a ih =>
    rw [List.foldlM_append] at h
    obtain ⟨t, ht, hlast⟩ := Option.bind_eq_some_iff.mp h
    rw [List.foldlM_cons] at hlast
    obtain ⟨s', hstep, hs'⟩ := Option.bind_eq_some_iff.mp hlast
    obtain rfl := Option.some.inj hs'
    obtain ⟨hreached, hcount⟩ := ih ht
    obtain ⟨hone, _⟩ := work_step hc hreached hstep
    refine ⟨hreached.next ⟨a, fun _ _ _ => trivial, hstep⟩, ?_⟩
    rw [List.map_append, List.sum_append, List.map_singleton, List.sum_singleton]
    omega

/-- A state that is reached is reached by a list of steps. -/
theorem exists_acts (hs : (system d Q).Reached s) : ∃ worker as,
    (∀ i, InFlight.start c (d.state i) (d.pool i) = some (worker i)) ∧
      List.foldlM (step d) (initial d worker) as = some s := by
  induction hs with
  | start h =>
    obtain ⟨worker, hworker, rfl⟩ := h
    exact ⟨worker, [], hworker, rfl⟩
  | next _ hn ih =>
    obtain ⟨a, _, hstep⟩ := hn
    obtain ⟨worker, as, hworker, has⟩ := ih
    refine ⟨worker, as ++ [a], hworker, ?_⟩
    rw [List.foldlM_append, has, Option.bind_eq_bind, Option.bind_some, List.foldlM_cons, hstep]
    rfl

end Steps

/-- A run of one worker with 32 rows has 133 steps before it. -/
theorem steps_counted_one : ∃ worker as s, List.foldlM (step oneWorker) (initial oneWorker worker) as = some s ∧
    Drained oneWorker s ∧
    (as.map Act.amount).sum + work oneWorker s +
      (oneWorker.switch.dropped oneWorker.registers s.read).length + s.lostUp.length = 133 := by
  obtain ⟨s, hs, hdrained, _⟩ := reach_drained (d := oneWorker) rfl (fun _ => wholePort_progresses)
    (Function.injective_of_subsingleton _) (groupby_fits oneWorker_runs oneWorker_room)
  obtain ⟨worker, as, hworker, has⟩ := exists_acts hs
  have htotal : totalWork oneWorker = 133 := by
    simp [totalWork, phaseWork, oneWorker, countingSim, shippedNodes, offloadAddresses, awaitAddress, batchSize]
  exact ⟨worker, as, s, has, hdrained, (steps_counted rfl hworker has).trans htotal⟩

end Cheetah.System
