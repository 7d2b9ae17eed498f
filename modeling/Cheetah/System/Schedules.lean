import Cheetah.System.Workload

/-! Every schedule completes.

In a calm run nothing gets lost and no packet is rewritten before it is read; the parties and
their ports take their steps in any order. Each has a step to take until the query is at its
end (`productive_or_completed`), and the steps are counted, so every such run gets there. -/
namespace Cheetah.System
open Lib Host Host.ControlMessage Host.StreamReceiver Host.ControlFlow Host.Master Protocol

/-- A datagram or a frame gets lost. -/
def Act.Loses {n : Nat} : Act n → Prop
  | .loseControl _ | .loseUp _ | .loseDown _ => True
  | _ => False

section Calm
variable {c : Config} {κ R : Type} [DecidableEq κ] {n : Nat} (d : Deployment c κ R n)

/-- The steps of a calm run. -/
def CalmStep (s : State c κ R n) (a : Act n) (s' : State c κ R n) : Prop :=
  ¬a.Loses ∧ (∀ i b, a = .work i b → InFlight.Clear (s.worker i) b) ∧ step d s a = some s'

/-- The runs in which nothing gets lost and no packet is rewritten before it is read. -/
def calm : Transitions (State c κ R n) where
  start := (system d InFlight.Clear).start
  next s s' := ∃ a, CalmStep d s a s'

/-- A step that is not an empty turn of the master after its first. -/
def Productive (s s' : State c κ R n) : Prop := ∃ a, (a = .turn [] → s.bursts = []) ∧ CalmStep d s a s'

/-- What every step of a calm run keeps. -/
structure Calm (s : State c κ R n) : Prop where
  lostUp : s.lostUp = []
  lostDown : s.lostDown = []
  /-- No acknowledgement is missing. -/
  acks : s.counted + acksIn s.control = (doneWorkers (view s)).card
  counted : s.counted ≤ d.workerNodes
  /-- Who waits for the query has been sent it. -/
  asked : s.bursts ≠ [] → ∀ i, s.phase i = .waiting → ∀ a, awaitAddress d.nodes (d.workerId i) = some a →
    ∃ datagram ∈ s.control, datagram.dest = a

/-- The query is at its end. -/
structure Completed (s : State c κ R n) : Prop where
  drained : Drained d s
  done : ∀ i, s.phase i = .done
  /-- The script has counted whom it can. -/
  counted : s.master.scripts ≠ 0 → s.counted = min d.workerNodes n

/-- A calm run, with a productive step at its end. -/
def Progress (s s' : State c κ R n) : Prop := ∃ t, Relation.ReflTransGen (calm d).next s t ∧ Productive d t s'

end Calm

/-! ### What a calm run keeps -/

section Keeps
variable {c : Config} {κ R : Type} {n : Nat} {d : Deployment c κ R n} {s s' : State c κ R n}

/-- The workers that still wait when one begins have their datagrams. -/
theorem asked_begin (hids : Function.Injective d.workerId) (h : Calm d s) (hburst : s.bursts ≠ [])
    {control : List Datagram} {i : Fin n}
    (hkept : ∀ m ∈ s.control, awaitAddress d.nodes (d.workerId i) ≠ some m.dest → m ∈ control) :
    ∀ k, Function.update s.phase i .streaming k = .waiting →
      ∀ a, awaitAddress d.nodes (d.workerId k) = some a → ∃ datagram ∈ control, datagram.dest = a := by
  intro k hk a ha
  have hne : k ≠ i := by
    intro hki
    rw [hki, Function.update_self] at hk
    cases hk
  rw [Function.update_of_ne hne] at hk
  obtain ⟨datagram, hm, hdest⟩ := h.asked hburst k hk a ha
  refine ⟨datagram, hkept datagram hm fun hsame => hne ?_, hdest⟩
  rw [hdest] at hsame
  exact hids (awaitAddress_inj ha hsame)

variable [DecidableEq κ]

theorem Productive.next (h : Productive d s s') : (calm d).next s s' := by
  obtain ⟨a, _, ha⟩ := h
  exact ⟨a, ha⟩

theorem calm_system (hs : (calm d).Reached s) : (system d InFlight.Clear).Reached s := by
  induction hs with
  | start h => exact .start h
  | next _ hn ih =>
    obtain ⟨a, _, hclear, hstep⟩ := hn
    exact ih.next ⟨a, hclear, hstep⟩

/-- **One step** of a calm run keeps it. -/
theorem calm_step (hids : Function.Injective d.workerId) (hinv : Inv d s) (h : Calm d s) {a : Act n}
    (hkeeps : ¬a.Loses) (hstep : step d s a = some s') : Calm d s' := by
  cases a with
  | turn burst =>
    have hran := (inv_step hinv hstep).master
    obtain ⟨master, _, _, _, rfl⟩ := step_turn hstep
    exact {
      lostUp := h.lostUp
      lostDown := h.lostDown
      acks := by
        have hacks := turn_control (s := s) hran
        dsimp only
        rw [hacks]
        exact h.acks
      counted := h.counted
      asked := fun _ i hwait a ha => by
        by_cases hnil : s.bursts = []
        · have hsent : master.sent = offloadQuery d.nodes d.query.text := by
            rw [hran.sent, if_neg (List.concat_ne_nil _ _)]
          refine ⟨⟨a, transmitted d.query.text⟩, List.mem_append_right _ ?_, rfl⟩
          rw [hinv.master.sent, if_pos hnil, List.length_nil, List.drop_zero, hsent]
          exact List.mem_map.mpr ⟨a, mem_offloadAddresses ha, rfl⟩
        · obtain ⟨datagram, hm, hdest⟩ := h.asked hnil i hwait a ha
          exact ⟨datagram, List.mem_append_left _ hm, hdest⟩ }
  | query i j =>
    obtain ⟨datagram, hj, hwait, haddress, rfl⟩ := step_query hstep
    have hacks := acksIn_eraseIdx hj
    rw [if_neg (awaitAddress_ne_ack haddress), Nat.add_zero] at hacks
    exact {
      lostUp := h.lostUp
      lostDown := h.lostDown
      acks := by
        have hdone := @doneWorkers_begin _ _ _ (view s) i hwait
        have hold := h.acks
        rw [hacks, ← hdone] at hold
        exact hold
      counted := h.counted
      asked := fun hburst => asked_begin hids h hburst fun m hm hne => mem_eraseIdx_of_dest hj hm fun hsame =>
        hne (haddress.trans (congrArg some hsame.symm)) }
  | skip i =>
    obtain ⟨hwait, _, rfl⟩ := step_skip hstep
    exact {
      lostUp := h.lostUp
      lostDown := h.lostDown
      acks := by
        have hdone := @doneWorkers_begin _ _ _ (view s) i hwait
        have hold := h.acks
        rw [← hdone] at hold
        exact hold
      counted := h.counted
      asked := fun hburst => asked_begin hids h hburst fun m hm _ => hm }
  | work i b =>
    obtain ⟨worker, _, _, rfl⟩ := step_work hstep
    exact ⟨h.lostUp, h.lostDown, h.acks, h.counted, h.asked⟩
  | ack i =>
    obtain ⟨hstream, _, rfl⟩ := step_ack hstep
    exact {
      lostUp := h.lostUp
      lostDown := h.lostDown
      acks := by
        have hdone := @doneWorkers_finish _ _ _ (view s) i hstream (acksIn (s.control ++ [sendAck]))
        have hold := h.acks
        have hone : acksIn (s.control ++ [sendAck]) = acksIn s.control + 1 := acksIn_append _ _
        show s.counted + acksIn (s.control ++ [sendAck]) = _
        rw [hone, ← Nat.add_assoc, hold, ← hdone]
        rfl
      counted := h.counted
      asked := fun hburst k hk a ha => by
        have hne : k ≠ i := by
          intro hki
          dsimp only at hk
          rw [hki, Function.update_self] at hk
          cases hk
        dsimp only at hk
        rw [Function.update_of_ne hne] at hk
        obtain ⟨datagram, hm, hdest⟩ := h.asked hburst k hk a ha
        exact ⟨datagram, List.mem_append_left _ hm, hdest⟩ }
  | switch j =>
    obtain ⟨frame, _, rfl⟩ := step_switch hstep
    exact ⟨h.lostUp, h.lostDown, h.acks, h.counted, h.asked⟩
  | count j =>
    obtain ⟨datagram, hj, _, hleft, hack, rfl⟩ := step_count hstep
    have hacks := acksIn_eraseIdx hj
    rw [if_pos hack] at hacks
    exact {
      lostUp := h.lostUp
      lostDown := h.lostDown
      acks := by
        have hold := h.acks
        show s.counted + 1 + acksIn (s.control.eraseIdx j) = (doneWorkers (view s)).card
        omega
      counted := hleft
      asked := fun hburst k hk a ha => by
        obtain ⟨m, hm, hdest⟩ := h.asked hburst k hk a ha
        refine ⟨m, mem_eraseIdx_of_dest hj hm ?_, hdest⟩
        rw [hack, hdest]
        exact awaitAddress_ne_ack ha }
  | loseControl j => exact absurd trivial hkeeps
  | loseUp j => exact absurd trivial hkeeps
  | loseDown j => exact absurd trivial hkeeps

theorem reached_calm (hids : Function.Injective d.workerId) (hs : (calm d).Reached s) : Calm d s := by
  refine hs.invariant (I := Calm d) (fun s hstart => ?_) fun s s' hs hold hn => ?_
  · obtain ⟨worker, _, rfl⟩ := hstart
    refine ⟨rfl, rfl, ?_, Nat.zero_le _, fun hne => absurd rfl hne⟩
    simp [initial, view, doneWorkers, acksIn]
  · obtain ⟨a, hkeeps, _, hstep⟩ := hn
    exact calm_step hids (reached_inv (calm_system hs)) hold hkeeps hstep

end Keeps

/-! ### What there is to do -/

section Worker
variable {c : Config} {port : FastPacketStream.Port} {state : ConnectionState} {pool : Mempool}
variable {sim : MemorySim c} {Q : InFlight.State → InFlight.Act → Prop} {w : InFlight.State}

theorem reached_packet_le (hw : InFlight.Reached c port state pool sim Q w) : w.packet ≤ batchSize := by
  induction hw with
  | start h =>
    obtain ⟨w, hw, _, _, _, _, hpacket⟩ := InFlight.start_spec c state pool sim
    obtain rfl := Option.some.inj (hw.symm.trans h)
    rw [hpacket]
    exact Nat.zero_le _
  | step _ _ hstep ih =>
    rcases inFlight_step hstep with ⟨_, hguard, mem, rfl⟩ | ⟨_, _, clones, calls, _, _, rfl⟩ |
      ⟨_, cl, rest, frame, _, _, rfl⟩
    · exact hguard.2
    · exact Nat.zero_le _
    · exact ih

theorem modify_enabled (port : FastPacketStream.Port) (hc : c.unpackedBits = c.valueBits) (h : InFlight.Inv sim w)
    (hbatch : w.batch < sim.entryCount / batchSize) (hpacket : w.packet < batchSize) :
    ∃ w', InFlight.step c port sim w .modify = some w' := by
  have hlt : batchSize * w.batch + w.packet < sim.rows.length := by
    have hle := batch_le hbatch
    omega
  obtain ⟨mem, hmodify, _⟩ := FastPacketStream.modify_spec h.crafted hc (i := w.packet)
    (by rw [h.packetCount]; exact hpacket) sim.rows[batchSize * w.batch + w.packet]
  refine ⟨{w with mem := mem, packet := w.packet + 1}, ?_⟩
  rw [InFlight.step, if_pos ⟨hbatch, hpacket⟩, index_eq hbatch hpacket, sim.row_eq, List.getElem?_eq_getElem hlt]
  simp only [Option.bind_eq_bind, Option.bind_some, hmodify]

/-- With nothing queued, the loops go on. -/
theorem loops_enabled (hc : c.unpackedBits = c.valueBits) (hport : port.Progresses)
    (hw : InFlight.Reached c port state pool sim InFlight.Clear w) (hqueue : w.queue = [])
    (hbatch : w.batch < sim.entryCount / batchSize) :
    ∃ b w', InFlight.Clear w b ∧ InFlight.step c port sim w b = some w' := by
  rcases Nat.lt_or_eq_of_le (reached_packet_le hw) with hpacket | hpacket
  · obtain ⟨w', hstep⟩ := modify_enabled port hc (InFlight.reached_inv hc hw) hbatch hpacket
    refine ⟨.modify, w', fun cl hcl => ?_, hstep⟩
    rw [hqueue] at hcl
    cases hcl
  · obtain ⟨w', _, _, hstep⟩ := InFlight.reach_sent hc hport hw hbatch hpacket trivial
    exact ⟨.send batchSize, w', trivial, hstep⟩

end Worker

section Progress
variable {c : Config} {κ R : Type} [DecidableEq κ] {n : Nat} {d : Deployment c κ R n}
variable {s : State c κ R n} {i : Fin n}

/-- A step that is neither a worker's nor an empty turn. -/
theorem productive_of_step {a : Act n} {s' : State c κ R n} (hstep : step d s a = some s') (hturn : a ≠ .turn [])
    (hwork : ∀ i b, a ≠ .work i b) (hkeeps : ¬a.Loses) : ∃ s', Productive d s s' :=
  ⟨s', a, fun h => absurd h hturn, hkeeps, fun i b h => absurd h (hwork i b), hstep⟩

theorem productive_of_work {b : InFlight.Act} {w : InFlight.State} (hmay : s.phase i = .streaming ∨ b = .transmit)
    (hclear : InFlight.Clear (s.worker i) b)
    (hwork : InFlight.step c (d.port i) (d.sim i) (s.worker i) b = some w) : ∃ s', Productive d s s' := by
  have hstep : step d s (.work i b) = some { s with
      worker := Function.update s.worker i w
      upstream := s.upstream ++ w.wire.drop (s.worker i).wire.length } := by
    rw [step, if_pos hmay]
    simp only [hwork, Option.bind_eq_bind, Option.bind_some]
  refine ⟨_, .work i b, by simp, id, fun j b' hjb => ?_, hstep⟩
  obtain ⟨rfl, rfl⟩ := Act.work.inj hjb
  exact hclear

/-- The master's first turn. -/
theorem productive_of_first (hinv : Inv d s) (hburst : s.bursts = []) : ∃ s', Productive d s s' := by
  obtain ⟨master, _, hstep⟩ := empty_turn hinv
  exact ⟨_, .turn [], fun _ => hburst, id, by simp, hstep⟩

/-- A worker that waits can begin, once the master has sent the query. -/
theorem productive_of_waiting (h : Calm d s) (hburst : s.bursts ≠ []) (hwait : s.phase i = .waiting) :
    ∃ s', Productive d s s' := by
  cases haddress : awaitAddress d.nodes (d.workerId i) with
  | none => exact productive_of_step (skip_enabled hwait haddress) (by simp) (by simp) id
  | some a =>
    obtain ⟨datagram, hm, rfl⟩ := h.asked hburst i hwait a haddress
    obtain ⟨j, hj⟩ := List.mem_iff_getElem?.mp hm
    exact productive_of_step (query_enabled hj hwait haddress) (by simp) (by simp) id

/-- A worker in its loops can go on or acknowledge. -/
theorem productive_of_streaming (hc : c.unpackedBits = c.valueBits) (hport : (d.port i).Progresses)
    (hs : (system d InFlight.Clear).Reached s) (hstream : s.phase i = .streaming)
    (hqueue : (s.worker i).queue = []) : ∃ s', Productive d s s' := by
  have hw := reached_worker hs i
  rcases Nat.lt_or_eq_of_le (reached_batch_le hw) with hbatch | hbatch
  · obtain ⟨b, w, hclear, hstep⟩ := loops_enabled hc hport hw hqueue hbatch
    exact productive_of_work (.inl hstream) hclear hstep
  · exact productive_of_step (ack_enabled hstream hbatch) (by simp) (by simp) id

/-- **There is always something to do** until the query is at its end. -/
theorem productive_or_completed (hc : c.unpackedBits = c.valueBits) (hports : ∀ i, (d.port i).Progresses)
    (hids : Function.Injective d.workerId) (hfits : UpdatesFit d) (hs : (calm d).Reached s) :
    (∃ s', Productive d s s') ∨ Completed d s := by
  have hsystem := calm_system hs
  have hcalm := reached_calm hids hs
  by_cases hburst : s.bursts = []
  · exact .inl (productive_of_first (reached_inv hsystem) hburst)
  by_cases hwait : ∃ i, s.phase i = .waiting
  · obtain ⟨i, hwait⟩ := hwait
    exact .inl (productive_of_waiting hcalm hburst hwait)
  by_cases hqueue : ∃ i, (s.worker i).queue ≠ []
  · obtain ⟨i, hqueue⟩ := hqueue
    obtain ⟨cl, rest, hcons⟩ := List.exists_cons_of_ne_nil hqueue
    obtain ⟨frame, hstep⟩ :=
      transmit_enabled (d.port i) (InFlight.reached_inv hc (reached_worker hsystem i)) hcons
    exact .inl (productive_of_work (.inr rfl) trivial hstep)
  have hempty : ∀ i, (s.worker i).queue = [] := fun i => by
    by_contra hne
    exact hqueue ⟨i, hne⟩
  by_cases hstream : ∃ i, s.phase i = .streaming
  · obtain ⟨i, hstream⟩ := hstream
    exact .inl (productive_of_streaming hc (hports i) hsystem hstream (hempty i))
  have hdone : ∀ i, s.phase i = .done := fun i => by
    cases hphase : s.phase i with
    | waiting => exact absurd ⟨i, hphase⟩ hwait
    | streaming => exact absurd ⟨i, hphase⟩ hstream
    | done => rfl
  cases hup : s.upstream with
  | cons frame rest =>
    have hstep := @switch_enabled _ _ _ _ _ d s 0 frame (by rw [hup]; rfl)
    exact .inl (productive_of_step hstep (by simp) (by simp) id)
  | nil =>
    cases hdown : s.downstream with
    | cons frame rest =>
      obtain ⟨mbuf, s', hstep, _⟩ := receive_enabled hc hfits hsystem hdown
      exact .inl (productive_of_step hstep (by simp) (by simp) id)
    | nil =>
      by_cases hcount : s.master.scripts ≠ 0 ∧ s.counted < d.workerNodes ∧ acksIn s.control ≠ 0
      · obtain ⟨hscripts, hleft, hacks⟩ := hcount
        obtain ⟨j, _, hstep⟩ := count_enabled hscripts hleft hacks
        exact .inl (productive_of_step hstep (by simp) (by simp) id)
      · have hall : doneWorkers (view s) = Finset.univ := Finset.filter_true_of_mem fun i _ => hdone i
        have hacks := hcalm.acks
        have hle := hcalm.counted
        rw [hall, Finset.card_univ, Fintype.card_fin] at hacks
        refine .inr ⟨⟨fun i => (reached_behaves hsystem i).done (hdone i), hempty, hup, hdown, hcalm.lostUp,
          hcalm.lostDown⟩, hdone, fun hscripts => ?_⟩
        have hend : ¬(s.counted < d.workerNodes ∧ acksIn s.control ≠ 0) := fun hboth =>
          hcount ⟨hscripts, hboth⟩
        omega

end Progress

/-! ### The end -/

section Ends
variable {c : Config} {κ R : Type} [DecidableEq κ] {n : Nat} {d : Deployment c κ R n}
variable {s s' : State c κ R n} {Q : InFlight.State → InFlight.Act → Prop}

/-- Only the master's turns receive. -/
theorem bursts_step {a : Act n} (hstep : step d s a = some s') :
    (∃ burst, a = .turn burst ∧ burst.length ≤ receiverBatchSize ∧
      burst.map (fun mbuf => mbuf.frame) <+: s.downstream ∧ s'.bursts = s.bursts ++ [burst]) ∨
    (∀ burst, a ≠ .turn burst) ∧ s'.bursts = s.bursts := by
  cases a with
  | turn burst =>
    obtain ⟨_, hroom, hprefix, _, rfl⟩ := step_turn hstep
    exact .inl ⟨burst, rfl, hroom, hprefix, rfl⟩
  | query => obtain ⟨_, _, _, _, rfl⟩ := step_query hstep; exact .inr ⟨by simp, rfl⟩
  | skip => obtain ⟨_, _, rfl⟩ := step_skip hstep; exact .inr ⟨by simp, rfl⟩
  | work => obtain ⟨_, _, _, rfl⟩ := step_work hstep; exact .inr ⟨by simp, rfl⟩
  | ack => obtain ⟨_, _, rfl⟩ := step_ack hstep; exact .inr ⟨by simp, rfl⟩
  | switch => obtain ⟨_, _, rfl⟩ := step_switch hstep; exact .inr ⟨by simp, rfl⟩
  | count => obtain ⟨_, _, _, _, _, rfl⟩ := step_count hstep; exact .inr ⟨by simp, rfl⟩
  | loseControl => obtain ⟨_, _, rfl⟩ := step_loseControl hstep; exact .inr ⟨by simp, rfl⟩
  | loseUp => obtain ⟨_, _, rfl⟩ := step_loseUp hstep; exact .inr ⟨by simp, rfl⟩
  | loseDown => obtain ⟨_, _, rfl⟩ := step_loseDown hstep; exact .inr ⟨by simp, rfl⟩

/-- Nothing comes before the master's first turn, if every worker waits for the query. -/
theorem downstream_of_first (hs : (system d Q).Reached s) (haddressed : ∀ i, Addressed d i)
    (hburst : s.bursts = []) : s.downstream = [] := by
  have hinv := reached_inv hs
  have hwires : s.wires = 0 := by
    refine Finset.sum_eq_zero fun i _ => ?_
    have hwait : s.phase i = .waiting := by
      by_contra hbegun
      have hoff := Protocol.begun_offloaded ((refines_protocol d Q).reached hs) (haddressed i) hbegun
      exact hinv.master.offloaded.mp hoff hburst
    obtain ⟨w, hw, _, _, hwire, _⟩ := InFlight.start_spec c (d.state i) (d.pool i) (d.sim i)
    obtain rfl := Option.some.inj (hw.symm.trans ((reached_behaves hs i).waiting hwait))
    rw [hwire]
    rfl
  have hread : s.read = [] := by
    rw [hinv.wires, ← Multiset.coe_nil] at hwires
    exact (Multiset.coe_eq_zero _).mp (add_eq_zero.mp hwires).2
  have hnone := hinv.forwarded
  rw [hread] at hnone
  exact (Multiset.coe_eq_zero _).mp (add_eq_zero.mp hnone.symm).2

/-- So its first turn receives nothing. -/
theorem reached_bursts (haddressed : ∀ i, Addressed d i) (hs : (system d Q).Reached s) :
    (∀ burst ∈ s.bursts, burst.length ≤ receiverBatchSize) ∧
      (s.bursts = [] ∨ ∃ rest, s.bursts = [] :: rest) := by
  refine hs.invariant (I := fun s => (∀ burst ∈ s.bursts, burst.length ≤ receiverBatchSize) ∧
    (s.bursts = [] ∨ ∃ rest, s.bursts = [] :: rest)) (fun s hstart => ?_) fun s s' hs hold hn => ?_
  · obtain ⟨worker, _, rfl⟩ := hstart
    exact ⟨fun burst hburst => absurd hburst List.not_mem_nil, .inl rfl⟩
  · obtain ⟨a, _, hstep⟩ := hn
    obtain ⟨hrooms, hfirst⟩ := hold
    rcases bursts_step hstep with ⟨burst, _, hroom, hprefix, hbursts⟩ | ⟨_, hbursts⟩
    · rw [hbursts]
      refine ⟨fun b hb => ?_, .inr ?_⟩
      · rcases List.mem_append.mp hb with hb | hb
        · exact hrooms b hb
        · exact List.mem_singleton.mp hb ▸ hroom
      · rcases hfirst with hnil | ⟨rest, hrest⟩
        · rw [downstream_of_first hs haddressed hnil, List.prefix_nil, List.map_eq_nil_iff] at hprefix
          exact ⟨[], by rw [hnil, hprefix]; rfl⟩
        · exact ⟨rest ++ [burst], by rw [hrest]; rfl⟩
    · rw [hbursts]
      exact ⟨hrooms, hfirst⟩

/-- The script runs when the master has gone through a row. -/
theorem scripts_of_rows (haddressed : ∀ i, Addressed d i) (hs : (system d Q).Reached s)
    (hrows : rowsIn c s.bursts.flatten ≠ []) : s.master.scripts ≠ 0 := by
  obtain ⟨hrooms, hfirst⟩ := reached_bursts haddressed hs
  have hsome : s.bursts.flatten ≠ [] := fun hnil => hrows (by rw [hnil]; rfl)
  have hseen : Seen s.bursts := by
    rcases hfirst with hnil | ⟨rest, hrest⟩
    · rw [hnil] at hsome
      exact absurd rfl hsome
    · rw [hrest] at hsome hrooms ⊢
      exact seen_of_first_empty rest (fun burst hburst => hrooms burst (List.mem_cons_of_mem _ hburst)) hsome
  have hmaster := (reached_inv hs).master
  rw [hmaster.scripts, if_pos (hmaster.started.mpr hseen)]
  exact one_ne_zero

/-- What a calm run has before it, with the master's first turn. -/
def left (d : Deployment c κ R n) (s : State c κ R n) : Nat := work d s + if s.bursts = [] then 1 else 0

theorem left_step (hc : c.unpackedBits = c.valueBits) (hs : (calm d).Reached s) {a : Act n}
    (hstep : CalmStep d s a s') :
    left d s' ≤ left d s ∧ ((a = .turn [] → s.bursts = []) → left d s' < left d s) := by
  obtain ⟨hcount, hspared⟩ := work_step hc (calm_system hs) hstep.2.2
  rcases bursts_step hstep.2.2 with ⟨burst, rfl, _, _, hbursts⟩ | ⟨hother, hbursts⟩
  · have hsome : s'.bursts ≠ [] := by
      rw [hbursts]
      exact List.concat_ne_nil _ _
    simp only [left, if_neg hsome, Act.amount] at hcount ⊢
    refine ⟨by omega, fun hfirst => ?_⟩
    cases burst with
    | nil =>
      rw [if_pos (hfirst rfl)]
      omega
    | cons mbuf rest =>
      rw [List.length_cons] at hcount
      omega
  · have hone : a.amount = 1 := by
      cases a with
      | turn burst => exact absurd rfl (hother burst)
      | _ => rfl
    rw [left, left, hbursts]
    omega

theorem left_run (hc : c.unpackedBits = c.valueBits) (hs : (calm d).Reached s)
    (hrun : Relation.ReflTransGen (calm d).next s s') : left d s' ≤ left d s := by
  induction hrun with
  | refl => exact le_rfl
  | tail hrun hn ih =>
    obtain ⟨a, hstep⟩ := hn
    exact Nat.le_trans (left_step hc (hs.steps (fun _ _ h => h) hrun) hstep).1 ih

/-- **Every schedule completes.** In whatever order the parties and their ports take their
steps, if nothing gets lost and each port reads a packet before it is rewritten, the steps
that do something come to an end; and where none is left, everything has arrived, every
worker has acknowledged, and the script, if every worker waited for the query and the switch
did not prune all rows, has counted as many as it was told of or as there are. -/
theorem schedules_complete (hc : c.unpackedBits = c.valueBits) (hports : ∀ i, (d.port i).Progresses)
    (hids : Function.Injective d.workerId) (hfits : UpdatesFit d) (hs : (calm d).Reached s) :
    Acc (fun s' s => Progress d s s') s ∧
      ∀ s', Relation.ReflTransGen (calm d).next s s' → (∀ t, ¬Productive d s' t) →
        Drained d s' ∧ (∀ i, s'.phase i = .done) ∧
          ((∀ i, Addressed d i) → rowsIn c s'.bursts.flatten ≠ [] → s'.counted = min d.workerNodes n) := by
  refine ⟨?_, fun s' hrun hstuck => ?_⟩
  · refine hs.acc (left d) fun s s' hs hprogress => ?_
    obtain ⟨t, hrun, hstep⟩ := hprogress
    have ht := hs.steps (fun _ _ h => h) hrun
    refine ⟨ht.next hstep.next, ?_⟩
    obtain ⟨a, hfirst, hcalm⟩ := hstep
    exact Nat.lt_of_lt_of_le ((left_step hc ht hcalm).2 hfirst) (left_run hc hs hrun)
  · have hs' := hs.steps (fun _ _ h => h) hrun
    have hend := (productive_or_completed hc hports hids hfits hs').resolve_left fun h => by
      obtain ⟨t, ht⟩ := h
      exact hstuck t ht
    exact ⟨hend.drained, hend.done, fun haddressed hrows =>
      hend.counted (scripts_of_rows haddressed (calm_system hs') hrows)⟩

end Ends

/-- The runs of one worker with 32 rows. -/
theorem schedules_complete_one :
    ∃ s s', (calm oneWorker).Reached s ∧ Relation.ReflTransGen (calm oneWorker).next s s' ∧
      Drained oneWorker s' ∧ (∀ i, s'.phase i = .done) ∧
        ((∀ i, Addressed oneWorker i) → rowsIn shipped s'.bursts.flatten ≠ [] → s'.counted = min 1 1) := by
  choose worker hworker _ using fun i =>
    InFlight.start_spec shipped (oneWorker.state i) (oneWorker.pool i) (oneWorker.sim i)
  have hs : (calm oneWorker).Reached (initial oneWorker worker) := .start ⟨worker, hworker, rfl⟩
  obtain ⟨hacc, hall⟩ := schedules_complete rfl (fun _ => wholePort_progresses)
    (Function.injective_of_subsingleton _) (groupby_fits oneWorker_runs oneWorker_room) hs
  obtain ⟨s', hruns, hend⟩ := Transitions.exists_end hacc
  have hrun : Relation.ReflTransGen (calm oneWorker).next (initial oneWorker worker) s' := by
    refine Relation.reflTransGen_closed (fun t t' h => ?_) _ _ hruns
    obtain ⟨u, hu, hstep⟩ := h
    exact hu.tail hstep.next
  exact ⟨_, s', hs, hrun, hall s' hrun fun t ht => hend t ⟨s', .refl, ht⟩⟩

end Cheetah.System
