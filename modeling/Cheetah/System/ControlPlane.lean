import Cheetah.System.Conservation

/-! The control messages of a deployment are those of the protocol.

`view` forgets the frames. A turn of the master is an `offload`, a `run` or nothing, and a
worker whose id has an address begins with a datagram that the master must have sent. -/
namespace Cheetah.System
open Lib Host Host.ControlMessage Host.StreamReceiver Host.ControlFlow Host.Master Protocol

section Refinement
variable {c : Config} {κ R : Type} [DecidableEq κ] {n : Nat} {d : Deployment c κ R n}
variable {s s' : State c κ R n} {Q : InFlight.State → InFlight.Act → Prop}

/-- The acknowledgements among some datagrams. -/
def acksIn (control : List Datagram) : Nat := control.countP fun datagram => datagram.dest = ackAddress

/-- A deployment, as the protocol sees it. -/
def view (s : State c κ R n) : Protocol.State (Fin n) where
  offloaded := s.master.offloaded
  phase := s.phase
  acks := acksIn s.control
  running := s.master.started
  counted := s.counted

/-- The worker waits for the query. -/
def Addressed (d : Deployment c κ R n) (i : Fin n) : Prop := awaitAddress d.nodes (d.workerId i) ≠ none

theorem acksIn_append (a b : List Datagram) : acksIn (a ++ b) = acksIn a + acksIn b := List.countP_append

theorem acksIn_eq_zero {control : List Datagram} (h : ∀ datagram ∈ control, datagram.dest ≠ ackAddress) :
    acksIn control = 0 :=
  List.countP_eq_zero.mpr fun datagram hm => by simpa using h datagram hm

theorem acksIn_eraseIdx {control : List Datagram} {j : Nat} {datagram : Datagram}
    (h : control[j]? = some datagram) :
    acksIn control = acksIn (control.eraseIdx j) + if datagram.dest = ackAddress then 1 else 0 := by
  obtain ⟨hlt, rfl⟩ := List.getElem?_eq_some_iff.mp h
  rw [acksIn, acksIn, ← (List.getElem_cons_eraseIdx_perm hlt).countP_eq, List.countP_cons]
  simp

/-- What is not taken stays. -/
theorem mem_eraseIdx_of_dest {control : List Datagram} {j : Nat} {datagram other : Datagram}
    (h : control[j]? = some datagram) (hother : other ∈ control) (hne : other.dest ≠ datagram.dest) :
    other ∈ control.eraseIdx j := by
  obtain ⟨i, hi⟩ := List.mem_iff_getElem?.mp hother
  refine List.mem_eraseIdx_iff_getElem?.mpr ⟨i, fun hij => hne ?_, hi⟩
  rw [hij, h] at hi
  rw [Option.some.inj hi]

/-- A turn sends the query or nothing, and has offloaded it. -/
theorem turn_control {burst : List RxMbuf} {master : MasterState c κ}
    (hran : Ran d.format d.nodes d.query d.queries (s.bursts ++ [burst]) master) :
    acksIn (s.control ++ master.sent.drop s.master.sent.length) = acksIn s.control := by
  have hnone : acksIn (master.sent.drop s.master.sent.length) = 0 := acksIn_eq_zero fun datagram hm => by
    have hsent := List.mem_of_mem_drop hm
    rw [hran.sent, if_neg (List.concat_ne_nil _ _)] at hsent
    exact dest_offloadQuery hsent
  rw [acksIn_append, hnone, Nat.add_zero]

/-- The script is started when the query has been offloaded before. -/
theorem turn_started {burst : List RxMbuf} {master : MasterState c κ}
    (hturn : turn d.format d.nodes d.query s.master burst = some master)
    (hnew : master.started ≠ s.master.started) : s.master.offloaded = true ∧ master.started = true := by
  simp only [turn, Option.bind_eq_bind, Option.bind_eq_some_iff, Option.some.injEq] at hturn
  obtain ⟨_, _, _, _, rfl⟩ := hturn
  revert hnew
  dsimp only
  cases s.master.offloaded <;> cases s.master.started <;> simp

/-- **A deployment does what the protocol may do.** -/
theorem refines_protocol (d : Deployment c κ R n) (Q : InFlight.State → InFlight.Act → Prop) :
    (system d Q).Refinement (Protocol.system (Addressed d) d.workerNodes) view where
  start s hstart := by
    obtain ⟨worker, _, rfl⟩ := hstart
    rfl
  next s s' hs hn := by
    have hinv := reached_inv hs
    obtain ⟨a, _, hstep⟩ := hn
    cases a with
    | turn burst =>
      have hinv' := inv_step hinv hstep
      obtain ⟨master, _, _, hturn, rfl⟩ := step_turn hstep
      have hran : Ran d.format d.nodes d.query d.queries (s.bursts ++ [burst]) master := hinv'.master
      have hoff : master.offloaded = true := hran.offloaded.mpr (List.concat_ne_nil _ _)
      have hacks := turn_control (s := s) hran
      by_cases hstarted : master.started = s.master.started
      · left
        have hview : view { s with
            master := master
            control := s.control ++ master.sent.drop s.master.sent.length
            downstream := s.downstream.drop burst.length
            bursts := s.bursts ++ [burst] } = {view s with offloaded := true} := by
          simp only [view, hoff, hacks, hstarted]
        rw [hview]
        exact .offload _
      · obtain ⟨hbefore, hnow⟩ := turn_started hturn hstarted
        left
        have hview : view { s with
            master := master
            control := s.control ++ master.sent.drop s.master.sent.length
            downstream := s.downstream.drop burst.length
            bursts := s.bursts ++ [burst] } = {view s with running := true} := by
          simp only [view, hoff, hacks, hnow, hbefore]
        rw [hview]
        exact .run _ hbefore
    | query i j =>
      obtain ⟨datagram, hj, hwait, haddress, rfl⟩ := step_query hstep
      have hdest := awaitAddress_ne_ack haddress
      have hacks := acksIn_eraseIdx hj
      rw [if_neg hdest, Nat.add_zero] at hacks
      left
      have hview : view {s with phase := Function.update s.phase i .streaming, control := s.control.eraseIdx j} =
          {view s with phase := Function.update (view s).phase i .streaming} := by
        simp only [view, hacks]
      rw [hview]
      exact .begin _ i hwait (.inl (hinv.control datagram (List.mem_of_getElem? hj) hdest))
    | skip i =>
      obtain ⟨hwait, hnone, rfl⟩ := step_skip hstep
      exact .inl (.begin (view s) i hwait (.inr (not_not_intro hnone)))
    | work i a =>
      obtain ⟨worker, _, _, rfl⟩ := step_work hstep
      exact .inr rfl
    | ack i =>
      obtain ⟨hstream, _, rfl⟩ := step_ack hstep
      left
      have hview : view {s with phase := Function.update s.phase i .done, control := s.control ++ [sendAck]} =
          {view s with phase := Function.update (view s).phase i .done, acks := (view s).acks + 1} := by
        simp only [view, acksIn_append]
        rfl
      rw [hview]
      exact .finish _ i hstream
    | switch j =>
      obtain ⟨_, _, rfl⟩ := step_switch hstep
      exact .inr rfl
    | count j =>
      obtain ⟨datagram, hj, hscripts, hleft, hdest, rfl⟩ := step_count hstep
      have hacks := acksIn_eraseIdx hj
      rw [if_pos hdest] at hacks
      have hrunning : s.master.started = true := by
        by_contra hoff
        rw [hinv.master.scripts, if_neg hoff] at hscripts
        exact hscripts rfl
      exact .inl (.count (view s) (acksIn (s.control.eraseIdx j)) hrunning hleft hacks)
    | loseControl j =>
      obtain ⟨datagram, hj, rfl⟩ := step_loseControl hstep
      have hacks := acksIn_eraseIdx hj
      by_cases hdest : datagram.dest = ackAddress
      · rw [if_pos hdest] at hacks
        exact .inl (.lose (view s) (acksIn (s.control.eraseIdx j)) hacks)
      · rw [if_neg hdest, Nat.add_zero] at hacks
        right
        simp only [view, hacks]
    | loseUp j =>
      obtain ⟨_, _, rfl⟩ := step_loseUp hstep
      exact .inr rfl
    | loseDown j =>
      obtain ⟨_, _, rfl⟩ := step_loseDown hstep
      exact .inr rfl

end Refinement
/-! ### Workers -/

section Workers
variable {c : Config} {κ R : Type} {n : Nat} {d : Deployment c κ R n} {s : State c κ R n} {i : Fin n}

/-- A worker that waits has sent nothing; one that has acknowledged is through its loops. -/
structure Behaves (d : Deployment c κ R n) (i : Fin n) (phase : Phase) (worker : InFlight.State) : Prop where
  waiting : phase = .waiting → InFlight.start c (d.state i) (d.pool i) = some worker
  done : phase = .done → worker.batch = (d.sim i).entryCount / batchSize

theorem behaves_streaming (worker : InFlight.State) : Behaves d i .streaming worker := ⟨nofun, nofun⟩

/-- Its port sends what was queued: nothing before the first batch, and no batch is begun
after the last. -/
theorem behaves_transmit {phase : Phase} {w w' : InFlight.State} (h : Behaves d i phase w)
    (hs : InFlight.step c (d.port i) (d.sim i) w .transmit = some w') : Behaves d i phase w' := by
  rcases inFlight_step hs with ⟨ha, _⟩ | ⟨_, _, _, _, ha, _⟩ | ⟨_, cl, rest, frame, hqueue, _, rfl⟩
  · cases ha
  · cases ha
  · refine ⟨fun hwait => ?_, h.done⟩
    obtain ⟨start, hstart, _, hempty, _⟩ := InFlight.start_spec c (d.state i) (d.pool i) (d.sim i)
    obtain rfl := Option.some.inj (hstart.symm.trans (h.waiting hwait))
    rw [hempty] at hqueue
    cases hqueue

variable [DecidableEq κ] {Q : InFlight.State → InFlight.Act → Prop}

theorem reached_behaves (hs : (system d Q).Reached s) (i : Fin n) : Behaves d i (s.phase i) (s.worker i) := by
  refine hs.invariant (I := fun s => Behaves d i (s.phase i) (s.worker i)) (fun s hstart => ?_)
    fun s s' hs hold hn => ?_
  · obtain ⟨worker, hworker, rfl⟩ := hstart
    exact ⟨fun _ => hworker i, nofun⟩
  · obtain ⟨a, _, hstep⟩ := hn
    rcases step_worker hstep i with ⟨hp, hw⟩ | ⟨_, hp, _⟩ | ⟨b, _, hmay, hwork, hp⟩ | ⟨_, hbatch, hp, hw⟩
    · rwa [hp, hw]
    · rw [hp]
      exact behaves_streaming _
    · rw [hp]
      rcases hmay with hstream | rfl
      · rw [hstream]
        exact behaves_streaming _
      · exact behaves_transmit hold hwork
    · rw [hp, hw]
      exact ⟨nofun, fun _ => hbatch⟩

/-- A worker with an address rewrites no packet before the query is offloaded. -/
theorem offloaded_of_begun (hs : (system d Q).Reached s) (hi : Addressed d i)
    (hbegun : (s.worker i).batch ≠ 0 ∨ (s.worker i).packet ≠ 0) : s.master.offloaded = true := by
  have hphase : s.phase i ≠ .waiting := by
    intro hwait
    obtain ⟨w, hw, _, _, _, hbatch, hpacket⟩ := InFlight.start_spec c (d.state i) (d.pool i) (d.sim i)
    obtain rfl := Option.some.inj (hw.symm.trans ((reached_behaves hs i).waiting hwait))
    exact hbegun.elim (fun h => h hbatch) fun h => h hpacket
  exact Protocol.begun_offloaded ((refines_protocol d Q).reached hs) hi hphase

end Workers
end Cheetah.System
