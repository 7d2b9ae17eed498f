import Cheetah.System.Deployment
import Mathlib.Algebra.BigOperators.Fin
import Mathlib.Algebra.Order.Group.Multiset
import Mathlib.Tactic.Abel

/-! What every step of a deployment keeps.

No frame is copied: what the workers' ports have sent is on its way to the switch, was
read by it or got lost, and what the switch forwarded is on its way to the master, was
received or got lost. The master is where a run of its own over the bursts would be. And
the control messages of a deployment are those of the protocol: `refines_protocol`. -/
namespace Cheetah.System
open Lib Host Host.ControlMessage Host.StreamReceiver Host.ControlFlow Host.Master Protocol

/-- One summand grows. -/
theorem sum_update_add {ι M : Type*} [Fintype ι] [DecidableEq ι] [AddCommMonoid M] (f : ι → M) (i : ι)
    (x : M) : ∑ j, Function.update f i (f i + x) j = ∑ j, f j + x := by
  rw [Finset.sum_update_of_mem (Finset.mem_univ i), add_right_comm,
    ← Finset.sum_update_of_mem (Finset.mem_univ i), Function.update_eq_self]

/-- A list is one of its elements and the others. -/
theorem coe_eraseIdx {α : Type*} {l : List α} {j : Nat} {x : α} (h : l[j]? = some x) :
    (l : Multiset α) = (l.eraseIdx j : Multiset α) + {x} := by
  obtain ⟨hlt, rfl⟩ := List.getElem?_eq_some_iff.mp h
  rw [add_comm, Multiset.singleton_add, Multiset.cons_coe]
  exact Multiset.coe_eq_coe.mpr (List.getElem_cons_eraseIdx_perm hlt).symm

theorem length_eraseIdx {α : Type*} {l : List α} {j : Nat} {x : α} (h : l[j]? = some x) :
    (l.eraseIdx j).length + 1 = l.length := by
  obtain ⟨hlt, _⟩ := List.getElem?_eq_some_iff.mp h
  exact List.length_eraseIdx_add_one hlt

/-! ### A worker -/

section Worker
variable {c : Config} {port : FastPacketStream.Port} {sim : MemorySim c} {w w' : InFlight.State}

/-- **One step of a worker**, or of its port. -/
theorem inFlight_step {a : InFlight.Act} (h : InFlight.step c port sim w a = some w') :
    (a = .modify ∧ (w.batch < sim.entryCount / batchSize ∧ w.packet < batchSize) ∧
      ∃ mem, w' = {w with mem := mem, packet := w.packet + 1}) ∨
    ((w.batch < sim.entryCount / batchSize ∧ w.packet = batchSize) ∧ ∃ fuel clones calls, a = .send fuel ∧
      FastPacketStream.send port fuel w.calls w.stream w.mem = some (clones, calls) ∧
      w' = {w with calls := calls, queue := w.queue ++ clones, batch := w.batch + 1, packet := 0}) ∨
    (a = .transmit ∧ ∃ cl rest frame, w.queue = cl :: rest ∧ w.mem.read cl = some frame ∧
      w' = {w with queue := rest, wire := w.wire ++ [frame]}) := by
  cases a with
  | modify =>
    rw [InFlight.step] at h
    split at h
    · rename_i hguard
      simp only [Option.bind_eq_bind, Option.bind_eq_some_iff, Option.some.injEq] at h
      obtain ⟨_, _, mem, _, rfl⟩ := h
      exact .inl ⟨rfl, hguard, mem, rfl⟩
    · cases h
  | send fuel =>
    rw [InFlight.step] at h
    split at h
    · rename_i hguard
      simp only [Option.bind_eq_bind, Option.bind_eq_some_iff, Option.some.injEq] at h
      obtain ⟨⟨clones, calls⟩, hsend, rfl⟩ := h
      exact .inr (.inl ⟨hguard, fuel, clones, calls, rfl, hsend, rfl⟩)
    · cases h
  | transmit =>
    rw [InFlight.step] at h
    split at h
    · cases h
    · rename_i cl rest hqueue
      simp only [Option.bind_eq_bind, Option.bind_eq_some_iff, Option.some.injEq] at h
      obtain ⟨frame, hread, rfl⟩ := h
      exact .inr (.inr ⟨rfl, cl, rest, frame, hqueue, hread, rfl⟩)

/-- The port only adds frames. -/
theorem wire_step {a : InFlight.Act} (h : InFlight.step c port sim w a = some w') : w.wire <+: w'.wire := by
  rcases inFlight_step h with ⟨_, _, mem, rfl⟩ | ⟨_, _, clones, calls, _, _, rfl⟩ | ⟨_, cl, rest, frame, _, _, rfl⟩
  · exact List.prefix_refl _
  · exact List.prefix_refl _
  · exact List.prefix_append _ _

/-- No batch is begun behind the last whole one. -/
theorem reached_batch_le {state : ConnectionState} {pool : Mempool} {Q : InFlight.State → InFlight.Act → Prop}
    (hw : InFlight.Reached c port state pool sim Q w) : w.batch ≤ sim.entryCount / batchSize := by
  induction hw with
  | start h =>
    obtain ⟨w, hstart, _, _, _, hbatch, _⟩ := InFlight.start_spec c state pool sim
    obtain rfl := Option.some.inj (hstart.symm.trans h)
    rw [hbatch]
    exact Nat.zero_le _
  | step _ _ hstep ih =>
    rcases inFlight_step hstep with ⟨_, _, mem, rfl⟩ | ⟨hguard, _, clones, calls, _, _, rfl⟩ |
      ⟨_, cl, rest, frame, _, _, rfl⟩
    · exact ih
    · exact hguard.1
    · exact ih

end Worker

/-! ### The deployment -/

section Runs
variable {c : Config} {κ R : Type} [DecidableEq κ] {n : Nat} {d : Deployment c κ R n}
variable {s s' : State c κ R n} {Q : InFlight.State → InFlight.Act → Prop}

/-- The frames of all workers' ports. -/
def State.wires (s : State c κ R n) : Multiset (List Byte) := ∑ i, ((s.worker i).wire : Multiset (List Byte))

/-- What every step keeps. -/
structure Inv (d : Deployment c κ R n) (s : State c κ R n) : Prop where
  master : Ran d.format d.nodes d.query d.queries s.bursts s.master
  wires : s.wires = s.upstream + s.lostUp + s.read
  registers : s.registers = d.switch.run d.registers s.read
  forwarded : (d.switch.forwarded d.registers s.read : Multiset (List Byte)) =
    received s.bursts + s.lostDown + s.downstream
  /-- What the workers wait for was sent by the master. -/
  control : ∀ datagram ∈ s.control, datagram.dest ≠ ackAddress → s.master.offloaded = true

theorem inv_initial (worker : Fin n → InFlight.State)
    (hwire : ∀ i, (worker i).wire = []) : Inv d (initial d worker) where
  master := ran_start d.queries
  wires := by
    simp [State.wires, initial, hwire]
  registers := rfl
  forwarded := rfl
  control := nofun

/-- **One step** keeps it. -/
theorem inv_step (h : Inv d s) {a : Act n} (hs : step d s a = some s') : Inv d s' := by
  cases a with
  | turn burst =>
    obtain ⟨master, hburst, hprefix, hturn, rfl⟩ := step_turn hs
    have hran : Ran d.format d.nodes d.query d.queries (s.bursts ++ [burst]) master := by
      have hone := ran_turn h.master hburst
      split at hone
      · obtain ⟨master', hturn', hran⟩ := hone
        exact Option.some.inj (hturn'.symm.trans hturn) ▸ hran
      · rw [hone] at hturn
        cases hturn
    have hdown : s.downstream = burst.map (fun mbuf => mbuf.frame) ++ s.downstream.drop burst.length := by
      obtain ⟨rest, hrest⟩ := hprefix
      rw [← hrest, List.drop_left' (List.length_map _)]
    exact {
      master := hran
      wires := h.wires
      registers := h.registers
      forwarded := by
        dsimp only
        rw [h.forwarded, received_concat]
        nth_rewrite 1 [hdown]
        rw [← Multiset.coe_add, ← Multiset.coe_add]
        abel
      control := fun _ _ _ => hran.offloaded.mpr (List.concat_ne_nil _ _) }
  | query i j =>
    obtain ⟨datagram, hj, _, _, rfl⟩ := step_query hs
    exact {h with control := fun m hm => h.control m (List.mem_of_mem_eraseIdx hm)}
  | skip i =>
    obtain ⟨_, _, rfl⟩ := step_skip hs
    exact {h with}
  | work i a =>
    obtain ⟨worker, _, hwork, rfl⟩ := step_work hs
    obtain ⟨more, hmore⟩ := wire_step hwork
    refine {h with wires := ?_}
    have hwires : (fun j => ((Function.update s.worker i worker j).wire : Multiset (List Byte))) =
        Function.update (fun j => ((s.worker j).wire : Multiset (List Byte))) i
          (((s.worker i).wire : Multiset (List Byte)) + more) := by
      funext j
      by_cases hj : j = i
      · rw [hj, Function.update_self, Function.update_self, ← hmore, Multiset.coe_add]
      · rw [Function.update_of_ne hj, Function.update_of_ne hj]
    rw [State.wires, hwires, sum_update_add, ← hmore, List.drop_left' rfl, ← Multiset.coe_add]
    show s.wires + _ = _
    rw [h.wires]
    abel
  | ack i =>
    obtain ⟨_, _, rfl⟩ := step_ack hs
    refine {h with control := fun m hm hdest => ?_}
    rcases List.mem_append.mp hm with hm | hm
    · exact h.control m hm hdest
    · rw [List.mem_singleton.mp hm] at hdest
      exact absurd rfl hdest
  | switch j =>
    obtain ⟨frame, hj, rfl⟩ := step_switch hs
    exact {
      master := h.master
      wires := by
        show s.wires = _
        rw [h.wires, coe_eraseIdx hj, ← Multiset.coe_add, Multiset.coe_singleton]
        abel
      registers := by
        dsimp only
        rw [Pruner.run_concat, ← h.registers]
      forwarded := by
        dsimp only
        rw [Pruner.forwarded_concat, ← h.registers, ← Multiset.coe_add, ← Multiset.coe_add, h.forwarded,
          add_assoc _ _ (_ + _), add_assoc]
        show _ = (received s.bursts : Multiset (List Byte)) + _
        abel
      control := h.control }
  | count j =>
    obtain ⟨datagram, hj, _, _, _, rfl⟩ := step_count hs
    exact {h with control := fun m hm => h.control m (List.mem_of_mem_eraseIdx hm)}
  | loseControl j =>
    obtain ⟨datagram, hj, rfl⟩ := step_loseControl hs
    exact {h with control := fun m hm => h.control m (List.mem_of_mem_eraseIdx hm)}
  | loseUp j =>
    obtain ⟨frame, hj, rfl⟩ := step_loseUp hs
    refine {h with wires := ?_}
    show s.wires = _
    rw [h.wires, coe_eraseIdx hj, ← Multiset.coe_add, Multiset.coe_singleton]
    abel
  | loseDown j =>
    obtain ⟨frame, hj, rfl⟩ := step_loseDown hs
    refine {h with forwarded := ?_}
    rw [h.forwarded, coe_eraseIdx hj, ← Multiset.coe_add, Multiset.coe_singleton]
    show _ = (received s.bursts : Multiset (List Byte)) + _ + _
    abel

/-- **Any run** keeps it. -/
theorem reached_inv (hs : (system d Q).Reached s) : Inv d s := by
  refine hs.invariant (I := Inv d) (fun s hstart => ?_) fun s s' _ hold hn => ?_
  · obtain ⟨worker, hworker, rfl⟩ := hstart
    refine inv_initial worker fun i => ?_
    obtain ⟨w, hw, _, _, hwire, _⟩ := InFlight.start_spec c (d.state i) (d.pool i) (d.sim i)
    exact Option.some.inj (hw.symm.trans (hworker i)) ▸ hwire
  · obtain ⟨a, _, hstep⟩ := hn
    exact inv_step hold hstep

/-- **One step, to worker `i`**: nothing, the end of its wait, a step of its loops or of its
port, or its acknowledgement. -/
theorem step_worker {a : Act n} (hs : step d s a = some s') (i : Fin n) :
    (s'.phase i = s.phase i ∧ s'.worker i = s.worker i) ∨
    (s.phase i = .waiting ∧ s'.phase i = .streaming ∧ s'.worker i = s.worker i) ∨
    (∃ b, a = .work i b ∧ (s.phase i = .streaming ∨ b = .transmit) ∧
      InFlight.step c (d.port i) (d.sim i) (s.worker i) b = some (s'.worker i) ∧ s'.phase i = s.phase i) ∨
    (s.phase i = .streaming ∧ (s.worker i).batch = (d.sim i).entryCount / batchSize ∧
      s'.phase i = .done ∧ s'.worker i = s.worker i) := by
  cases a with
  | query j =>
    obtain ⟨_, _, hwait, _, rfl⟩ := step_query hs
    by_cases hj : i = j
    · subst hj
      exact .inr (.inl ⟨hwait, Function.update_self .., rfl⟩)
    · exact .inl ⟨Function.update_of_ne hj .., rfl⟩
  | skip j =>
    obtain ⟨hwait, _, rfl⟩ := step_skip hs
    by_cases hj : i = j
    · subst hj
      exact .inr (.inl ⟨hwait, Function.update_self .., rfl⟩)
    · exact .inl ⟨Function.update_of_ne hj .., rfl⟩
  | work j b =>
    obtain ⟨worker, hmay, hwork, rfl⟩ := step_work hs
    by_cases hj : i = j
    · subst hj
      exact .inr (.inr (.inl ⟨b, rfl, hmay, by dsimp only; rwa [Function.update_self], rfl⟩))
    · exact .inl ⟨rfl, Function.update_of_ne hj ..⟩
  | ack j =>
    obtain ⟨hstream, hbatch, rfl⟩ := step_ack hs
    by_cases hj : i = j
    · subst hj
      exact .inr (.inr (.inr ⟨hstream, hbatch, Function.update_self .., rfl⟩))
    · exact .inl ⟨Function.update_of_ne hj .., rfl⟩
  | turn => obtain ⟨_, _, _, _, rfl⟩ := step_turn hs; exact .inl ⟨rfl, rfl⟩
  | switch => obtain ⟨_, _, rfl⟩ := step_switch hs; exact .inl ⟨rfl, rfl⟩
  | count => obtain ⟨_, _, _, _, _, rfl⟩ := step_count hs; exact .inl ⟨rfl, rfl⟩
  | loseControl => obtain ⟨_, _, rfl⟩ := step_loseControl hs; exact .inl ⟨rfl, rfl⟩
  | loseUp => obtain ⟨_, _, rfl⟩ := step_loseUp hs; exact .inl ⟨rfl, rfl⟩
  | loseDown => obtain ⟨_, _, rfl⟩ := step_loseDown hs; exact .inl ⟨rfl, rfl⟩

/-- Each worker is where a run of its own would be. -/
theorem reached_worker (hs : (system d Q).Reached s) (i : Fin n) :
    InFlight.Reached c (d.port i) (d.state i) (d.pool i) (d.sim i) Q (s.worker i) := by
  refine hs.invariant (I := fun s => InFlight.Reached c (d.port i) (d.state i) (d.pool i) (d.sim i) Q
    (s.worker i)) (fun s hstart => ?_) fun s s' _ hold hn => ?_
  · obtain ⟨worker, hworker, rfl⟩ := hstart
    exact .start (hworker i)
  · obtain ⟨a, hQ, hstep⟩ := hn
    rcases step_worker hstep i with ⟨_, hw⟩ | ⟨_, _, hw⟩ | ⟨b, ha, _, hwork, _⟩ | ⟨_, _, _, hw⟩
    · exact hw ▸ hold
    · exact hw ▸ hold
    · exact hold.step (hQ i b ha) hwork
    · exact hw ▸ hold

end Runs
end Cheetah.System
