import Cheetah.System.ControlPlane
import Cheetah.System.Rows

/-! What a deployment can do.

A query can be run to its end. The master offloads it; the workers hand over their batches
one after the other, each port reading what it was given before the next batch is filled,
and acknowledge; the switch reads every frame, and the master receives what it passes on. -/
namespace Cheetah.System
open Lib Host Host.ControlMessage Host.StreamReceiver Host.ControlFlow Host.Master Protocol

/-! ### A worker -/

section Worker
variable {c : Config} {port : FastPacketStream.Port} {state : ConnectionState} {pool : Mempool}
variable {sim : MemorySim c} {Q : InFlight.State → InFlight.Act → Prop} {w : InFlight.State}

theorem transmit_enabled (port : FastPacketStream.Port) (h : InFlight.Inv sim w) {cl : Clone} {rest : List Clone}
    (hqueue : w.queue = cl :: rest) : ∃ frame,
      InFlight.step c port sim w .transmit = some {w with queue := rest, wire := w.wire ++ [frame]} := by
  obtain ⟨frame, hread, -⟩ := (h.queued cl (hqueue ▸ List.mem_cons_self ..)).read h.crafted
  refine ⟨frame, ?_⟩
  simp only [InFlight.step, hqueue, hread, Option.bind_eq_bind, Option.bind_some]

/-- The port can read everything that is queued. -/
theorem reach_emptied (hc : c.unpackedBits = c.valueBits) (hw : InFlight.Reached c port state pool sim Q w)
    (hQ : ∀ t : InFlight.State, Q t .transmit) :
    ∃ w', InFlight.Reached c port state pool sim Q w' ∧ w'.queue = [] ∧ w'.batch = w.batch ∧
      w'.packet = w.packet := by
  generalize hqueue : w.queue = queue
  induction queue generalizing w with
  | nil => exact ⟨w, hw, hqueue, rfl, rfl⟩
  | cons cl rest ih =>
    obtain ⟨frame, hstep⟩ := transmit_enabled port (InFlight.reached_inv hc hw) hqueue
    obtain ⟨w', hw', hempty, hbatch, hpacket⟩ := ih (hw.step (hQ w) hstep) rfl
    exact ⟨w', hw', hempty, hbatch, hpacket⟩

/-- A worker can hand over every whole batch, each read before the next is filled. -/
theorem reach_handed (hc : c.unpackedBits = c.valueBits) (hport : port.Progresses) :
    ∃ w, InFlight.Reached c port state pool sim InFlight.Clear w ∧
      w.batch = sim.entryCount / batchSize ∧ w.queue = [] := by
  suffices h : ∀ b ≤ sim.entryCount / batchSize, ∃ w,
      InFlight.Reached c port state pool sim InFlight.Clear w ∧ w.batch = b ∧ w.queue = [] ∧ w.packet = 0 by
    obtain ⟨w, hw, hbatch, hqueue, _⟩ := h _ le_rfl
    exact ⟨w, hw, hbatch, hqueue⟩
  intro b
  induction b with
  | zero =>
    intro _
    obtain ⟨w, hstart, _, hqueue, _, hbatch, hpacket⟩ := InFlight.start_spec c state pool sim
    exact ⟨w, .start hstart, hbatch, hqueue, hpacket⟩
  | succ b ih =>
    intro hb
    obtain ⟨w, hw, hbatch, hqueue, hpacket⟩ := ih (Nat.le_of_succ_le hb)
    obtain ⟨w₁, hw₁, hbatch₁, hpacket₁, hqueue₁, _⟩ := InFlight.reach_filled hc hw (by rw [hbatch]; exact hb)
      hpacket fun t ht cl hcl => by
        rw [ht, hqueue] at hcl
        cases hcl
    obtain ⟨w₂, hw₂, hpacket₂, hsend⟩ := InFlight.reach_sent hc hport hw₁ (by rw [hbatch₁, hbatch]; exact hb)
      hpacket₁ trivial
    obtain ⟨_, hbatch₂, _⟩ := InFlight.send_step (InFlight.reached_inv hc hw₁) hsend
    obtain ⟨w₃, hw₃, hqueue₃, hbatch₃, hpacket₃⟩ := reach_emptied hc hw₂ fun _ => trivial
    exact ⟨w₃, hw₃, by omega, hqueue₃, by omega⟩

end Worker

/-! ### The deployment -/

section Undisturbed
variable {c : Config} {κ R : Type} {n : Nat}

/-- What the switch and the master leave alone. -/
structure Undisturbed (s s' : State c κ R n) : Prop where
  worker : s'.worker = s.worker
  phase : s'.phase = s.phase
  acks : acksIn s'.control = acksIn s.control
  counted : s'.counted = s.counted
  lostUp : s'.lostUp = s.lostUp
  lostDown : s'.lostDown = s.lostDown

theorem Undisturbed.trans {s s' s'' : State c κ R n} (h : Undisturbed s s') (h' : Undisturbed s' s'') :
    Undisturbed s s'' where
  worker := h'.worker.trans h.worker
  phase := h'.phase.trans h.phase
  acks := h'.acks.trans h.acks
  counted := h'.counted.trans h.counted
  lostUp := h'.lostUp.trans h.lostUp
  lostDown := h'.lostDown.trans h.lostDown

end Undisturbed

section Runs
variable {c : Config} {κ R : Type} [DecidableEq κ] {n : Nat} {d : Deployment c κ R n}
variable {s : State c κ R n} {Q : InFlight.State → InFlight.Act → Prop} {i : Fin n}

theorem skip_enabled (hwait : s.phase i = .waiting) (haddress : awaitAddress d.nodes (d.workerId i) = none) :
    step d s (.skip i) = some {s with phase := Function.update s.phase i .streaming} := by
  rw [step, if_pos ⟨hwait, haddress⟩]

theorem query_enabled {j : Nat} {datagram : Datagram} (hj : s.control[j]? = some datagram)
    (hwait : s.phase i = .waiting) (haddress : awaitAddress d.nodes (d.workerId i) = some datagram.dest) :
    step d s (.query i j) =
      some {s with phase := Function.update s.phase i .streaming, control := s.control.eraseIdx j} := by
  simp only [step, hj, Option.bind_eq_bind, Option.bind_some]
  rw [if_pos ⟨hwait, haddress⟩]

theorem ack_enabled (hstream : s.phase i = .streaming) (hbatch : HandedOver d s i) :
    step d s (.ack i) =
      some {s with phase := Function.update s.phase i .done, control := s.control ++ [sendAck]} := by
  rw [step, if_pos ⟨hstream, hbatch⟩]

theorem switch_enabled {j : Nat} {frame : List Byte} (hj : s.upstream[j]? = some frame) :
    step d s (.switch j) = some { s with
      upstream := s.upstream.eraseIdx j
      registers := d.switch.step s.registers frame
      downstream := s.downstream ++ if d.switch.drops s.registers frame then [] else [frame]
      read := s.read ++ [frame] } := by
  simp only [step, hj, Option.bind_eq_bind, Option.bind_some]

/-- The script takes any acknowledgement. -/
theorem count_enabled (hscripts : s.master.scripts ≠ 0) (hleft : s.counted < d.workerNodes)
    (hacks : acksIn s.control ≠ 0) : ∃ j, acksIn s.control = acksIn (s.control.eraseIdx j) + 1 ∧
      step d s (.count j) = some {s with control := s.control.eraseIdx j, counted := s.counted + 1} := by
  obtain ⟨datagram, hm, hdest⟩ := List.countP_pos_iff.mp (Nat.pos_of_ne_zero hacks)
  obtain ⟨j, hj⟩ := List.mem_iff_getElem?.mp hm
  have hack : datagram.dest = ackAddress := by simpa using hdest
  have htaken := acksIn_eraseIdx hj
  rw [if_pos hack] at htaken
  refine ⟨j, htaken, ?_⟩
  simp only [step, hj, Option.bind_eq_bind, Option.bind_some]
  rw [if_pos ⟨hscripts, hleft, hack⟩]

/-- A step that is not a worker's loop needs no condition. -/
theorem reach_step {a : Act n} {s' : State c κ R n} (hs : (system d Q).Reached s)
    (ha : ∀ i b, a ≠ .work i b) (hstep : step d s a = some s') : (system d Q).Reached s' :=
  hs.next ⟨a, fun i b hab => absurd hab (ha i b), hstep⟩

/-- What a worker can do on its own it can do here, once it is streaming. -/
theorem reach_work (hs : (system d Q).Reached s) (hphase : s.phase i = .streaming)
    (hstart : InFlight.start c (d.state i) (d.pool i) = some (s.worker i)) {w : InFlight.State}
    (hw : InFlight.Reached c (d.port i) (d.state i) (d.pool i) (d.sim i) Q w) :
    (system d Q).Reached
      {s with worker := Function.update s.worker i w, upstream := s.upstream ++ w.wire} := by
  induction hw with
  | start h =>
    obtain ⟨w, hw, _, _, hwire, _⟩ := InFlight.start_spec c (d.state i) (d.pool i) (d.sim i)
    obtain rfl := Option.some.inj (hw.symm.trans h)
    obtain rfl := Option.some.inj (hw.symm.trans hstart)
    rw [hwire, List.append_nil, Function.update_eq_self]
    exact hs
  | @step w w' a hr hQ hstep ih =>
    obtain ⟨more, hmore⟩ := wire_step hstep
    refine ih.next ⟨.work i a, fun j b hab => ?_, ?_⟩
    · obtain ⟨rfl, rfl⟩ := Act.work.inj hab
      dsimp only
      rw [Function.update_self]
      exact hQ
    · rw [step, if_pos (.inl hphase)]
      simp only [Function.update_self, hstep, Option.bind_eq_bind, Option.bind_some, Function.update_idem,
        ← hmore, List.drop_left', List.append_assoc]

/-- A worker whose datagram has come, or that has no address, begins. No other datagram is
taken. -/
theorem reach_begun (hs : (system d Q).Reached s) (hwait : s.phase i = .waiting)
    (hcome : ∀ a, awaitAddress d.nodes (d.workerId i) = some a → ∃ datagram ∈ s.control, datagram.dest = a) :
    ∃ control, (system d Q).Reached
        {s with phase := Function.update s.phase i .streaming, control := control} ∧
      acksIn control = acksIn s.control ∧
      ∀ datagram ∈ s.control, awaitAddress d.nodes (d.workerId i) ≠ some datagram.dest →
        datagram ∈ control := by
  cases haddress : awaitAddress d.nodes (d.workerId i) with
  | none =>
    exact ⟨s.control, reach_step hs (by simp) (skip_enabled hwait haddress), rfl, fun datagram hm _ => hm⟩
  | some a =>
    obtain ⟨datagram, hm, rfl⟩ := hcome a haddress
    obtain ⟨j, hj⟩ := List.mem_iff_getElem?.mp hm
    have hacks := acksIn_eraseIdx hj
    rw [if_neg (awaitAddress_ne_ack haddress), Nat.add_zero] at hacks
    refine ⟨s.control.eraseIdx j, reach_step hs (by simp) (query_enabled hj hwait haddress), hacks.symm,
      fun other hother hne => ?_⟩
    exact mem_eraseIdx_of_dest hj hother fun hsame => hne (congrArg some hsame.symm)

/-- The first `k` workers are through, and nothing else has happened since the query was
offloaded. -/
structure Ready (d : Deployment c κ R n) (k : Nat) (s : State c κ R n) : Prop where
  reached : (system d InFlight.Clear).Reached s
  waiting : ∀ i : Fin n, k ≤ i.val → s.phase i = .waiting
  done : ∀ i : Fin n, i.val < k → s.phase i = .done ∧ (s.worker i).queue = []
  control : ∀ i : Fin n, k ≤ i.val → ∀ a, awaitAddress d.nodes (d.workerId i) = some a →
    ∃ datagram ∈ s.control, datagram.dest = a
  acks : acksIn s.control = k
  downstream : s.downstream = []
  read : s.read = []
  bursts : s.bursts = [[]]
  counted : s.counted = 0
  lostUp : s.lostUp = []
  lostDown : s.lostDown = []

/-- The master can always go once through its loop and receive nothing. -/
theorem empty_turn (h : Inv d s) : ∃ master, Ran d.format d.nodes d.query d.queries (s.bursts ++ [[]]) master ∧
    step d s (.turn []) = some { s with
      master := master
      control := s.control ++ master.sent.drop s.master.sent.length
      bursts := s.bursts ++ [[]] } := by
  have hroom : ([] : List RxMbuf).length ≤ receiverBatchSize := Nat.zero_le _
  obtain ⟨master, hturn, hran⟩ : ∃ master, turn d.format d.nodes d.query s.master [] = some master ∧
      Ran d.format d.nodes d.query d.queries (s.bursts ++ [[]]) master := ran_turn h.master hroom
  refine ⟨master, hran, ?_⟩
  rw [step, if_pos ⟨hroom, List.nil_prefix⟩]
  simp only [hturn, Option.bind_eq_bind, Option.bind_some]
  rfl

/-- The master's first turn offloads the query, whatever it has received. -/
theorem reach_ready (d : Deployment c κ R n) : ∃ s, Ready d 0 s := by
  choose worker hworker _ using fun i => InFlight.start_spec c (d.state i) (d.pool i) (d.sim i)
  have hs : (system d InFlight.Clear).Reached (initial d worker) := .start ⟨worker, hworker, rfl⟩
  obtain ⟨master, hran, hstep⟩ := empty_turn (reached_inv hs)
  have hsent : master.sent = offloadQuery d.nodes d.query.text := by
    rw [hran.sent, if_neg (List.concat_ne_nil _ _)]
  have hcontrol : (initial d worker).control ++ master.sent.drop (initial d worker).master.sent.length =
      offloadQuery d.nodes d.query.text := hsent
  rw [hcontrol] at hstep
  exact ⟨_, {
    reached := reach_step hs (by simp) hstep
    waiting := fun _ _ => rfl
    done := fun _ hi => absurd hi (Nat.not_lt_zero _)
    control := fun i _ a ha =>
      ⟨⟨a, transmitted d.query.text⟩, List.mem_map.mpr ⟨a, mem_offloadAddresses ha, rfl⟩, rfl⟩
    acks := acksIn_eq_zero fun datagram hm => dest_offloadQuery hm
    downstream := rfl
    read := rfl
    bursts := rfl
    counted := rfl
    lostUp := rfl
    lostDown := rfl }⟩

/-- One worker more gets through. -/
theorem ready_succ (hc : c.unpackedBits = c.valueBits) (hports : ∀ i, (d.port i).Progresses)
    (hids : Function.Injective d.workerId) {k : Nat} (hk : k < n) (h : Ready d k s) :
    ∃ s', Ready d (k + 1) s' := by
  have hwait := h.waiting ⟨k, hk⟩ le_rfl
  have hstart := (reached_behaves h.reached ⟨k, hk⟩).waiting hwait
  obtain ⟨control, hbegun, hacks, hkept⟩ := reach_begun h.reached hwait (h.control ⟨k, hk⟩ le_rfl)
  obtain ⟨w, hw, hbatch, hqueue⟩ : ∃ w, InFlight.Reached c (d.port ⟨k, hk⟩) (d.state ⟨k, hk⟩)
      (d.pool ⟨k, hk⟩) (d.sim ⟨k, hk⟩) InFlight.Clear w ∧
      w.batch = (d.sim ⟨k, hk⟩).entryCount / batchSize ∧ w.queue = [] :=
    reach_handed hc (hports ⟨k, hk⟩)
  have hworked := reach_work (i := ⟨k, hk⟩) hbegun (Function.update_self ..) hstart hw
  have hstep : step d { s with
      phase := Function.update s.phase ⟨k, hk⟩ .streaming
      control := control
      worker := Function.update s.worker ⟨k, hk⟩ w
      upstream := s.upstream ++ w.wire } (.ack ⟨k, hk⟩) = some { s with
      phase := Function.update s.phase ⟨k, hk⟩ .done
      control := control ++ [sendAck]
      worker := Function.update s.worker ⟨k, hk⟩ w
      upstream := s.upstream ++ w.wire } := by
    simp only [step, Function.update_self, hbatch, true_and, if_true, Function.update_idem]
  exact ⟨_, {
    reached := reach_step hworked (by simp) hstep
    waiting := fun i hi => by
      have hne : i.val ≠ k := by omega
      rw [← h.waiting i (Nat.le_of_succ_le hi)]
      exact Function.update_of_ne (Fin.ne_of_val_ne hne) ..
    done := fun i hi => by
      by_cases hik : i = ⟨k, hk⟩
      · subst hik
        exact ⟨Function.update_self .., by dsimp only; rw [Function.update_self]; exact hqueue⟩
      · dsimp only
        rw [Function.update_of_ne hik, Function.update_of_ne hik]
        refine h.done i ?_
        have hne : i.val ≠ k := fun heq => hik (Fin.ext heq)
        omega
    control := fun i hi a ha => by
      obtain ⟨datagram, hm, hdest⟩ := h.control i (Nat.le_of_succ_le hi) a ha
      refine ⟨datagram, List.mem_append_left _ (hkept datagram hm fun hsame => ?_), hdest⟩
      rw [hdest] at hsame
      have heq := hids (awaitAddress_inj hsame ha)
      rw [← heq] at hi
      exact absurd hi (Nat.not_succ_le_self k)
    acks := by
      rw [acksIn_append, hacks, h.acks]
      rfl
    downstream := h.downstream
    read := h.read
    bursts := h.bursts
    counted := h.counted
    lostUp := h.lostUp
    lostDown := h.lostDown }⟩

/-- All workers get through. -/
theorem reach_all_ready (hc : c.unpackedBits = c.valueBits) (hports : ∀ i, (d.port i).Progresses)
    (hids : Function.Injective d.workerId) : ∃ s, Ready d n s := by
  suffices h : ∀ k ≤ n, ∃ s, Ready d k s from h n le_rfl
  intro k
  induction k with
  | zero => exact fun _ => reach_ready d
  | succ k ih =>
    intro hk
    obtain ⟨s, hs⟩ := ih (Nat.le_of_succ_le hk)
    exact ready_succ hc hports hids hk hs

/-- The switch can read all frames that wait for it, in any order. -/
theorem reach_read (hs : (system d Q).Reached s) {frames : List (List Byte)} (hperm : frames.Perm s.upstream) :
    ∃ s', (system d Q).Reached s' ∧ s'.upstream = [] ∧ s'.read = s.read ++ frames ∧
      s'.bursts = s.bursts ∧ Undisturbed s s' := by
  induction frames generalizing s with
  | nil =>
    exact ⟨s, hs, hperm.symm.eq_nil, (List.append_nil _).symm, rfl, rfl, rfl, rfl, rfl, rfl, rfl⟩
  | cons frame rest ih =>
    obtain ⟨j, hj⟩ := List.mem_iff_getElem?.mp (hperm.subset (List.mem_cons_self ..))
    have hrest : rest.Perm (s.upstream.eraseIdx j) := by
      obtain ⟨hlt, heq⟩ := List.getElem?_eq_some_iff.mp hj
      have hsplit := hperm.trans (List.getElem_cons_eraseIdx_perm hlt).symm
      rw [heq] at hsplit
      exact hsplit.cons_inv
    obtain ⟨s', hs', hempty, hread, hbursts, hsame⟩ := ih (reach_step hs (by simp) (switch_enabled hj)) hrest
    refine ⟨s', hs', hempty, ?_, hbursts, hsame.worker, hsame.phase, hsame.acks, hsame.counted, hsame.lostUp,
      hsame.lostDown⟩
    rw [hread, List.append_assoc, List.singleton_append]

/-- The master's updates have a result on any of the rows, in any order. -/
def UpdatesFit (d : Deployment c κ R n) : Prop :=
  ∀ rows : List (Row c), (rows : Multiset (Row c)) ≤ (allRows d : Multiset (Row c)) →
    (updateRows d.format d.query (d.queries, 0) rows).isSome = true

/-- A frame that a worker has sent fits an mbuf. -/
theorem wires_length (hc : c.unpackedBits = c.valueBits) (hs : (system d Q).Reached s) :
    ∀ frame ∈ s.wires, frame.length ≤ 2048 := by
  intro frame hframe
  obtain ⟨i, hwhole⟩ := wires_whole hc hs hframe
  have hlen := hwhole.length
  have hshort := c.frameLength_le
  unfold headroom at hshort
  omega

/-- The master can receive the next frame, if its updates do not fail. -/
theorem receive_enabled (hc : c.unpackedBits = c.valueBits) (hfits : UpdatesFit d)
    (hs : (system d InFlight.Clear).Reached s) {frame : List Byte} {rest : List (List Byte)}
    (hdown : s.downstream = frame :: rest) :
    ∃ mbuf s', step d s (.turn [mbuf]) = some s' ∧ s'.downstream = rest ∧ s'.upstream = s.upstream ∧
      s'.read = s.read ∧ mbuf.frame = frame ∧ s'.bursts = s.bursts ++ [[mbuf]] ∧ Undisturbed s s' := by
  have hinv := reached_inv hs
  have hmem : frame ∈ s.wires := downstream_subset hinv (by rw [hdown]; exact List.mem_cons_self ..)
  let mbuf := rxMbuf frame (wires_length hc hs frame hmem)
  have hframe : mbuf.frame = frame := rxMbuf_frame frame _
  obtain ⟨_, row, _, hrow⟩ := mem_wires hc hs hmem
  have hrows : rowsIn c [mbuf] = [row] := by
    have hread : unpackPayload c (mbuf.buf.drop mbuf.dataOff) = some row := by
      rw [drop_buf, hframe, unpackPayload_append hrow]
    simp only [rowsIn, List.filterMap_cons, hread, List.filterMap_nil]
  -- the row is one the master has not gone through
  have hle : ((rowsIn c s.bursts.flatten ++ [row] : List (Row c)) : Multiset (Row c)) ≤ allRows d := by
    refine (Multiset.map_le_map_iff (Option.some_injective _)).mp (le_trans ?_ (downstream_le hc hs))
    rw [hdown, rowsOf, List.map_cons, hrow, Multiset.map_coe, List.map_append, ← Multiset.coe_add, add_comm]
    refine add_le_add ?_ le_rfl
    rw [← Multiset.cons_coe, List.map_singleton, Multiset.coe_singleton]
    exact Multiset.singleton_le.mpr (Multiset.mem_cons_self _ _)
  have hsome := hfits _ hle
  rw [updateRows_append, hinv.master.updates, Option.bind_some] at hsome
  obtain ⟨acc, hacc⟩ := Option.isSome_iff_exists.mp hsome
  have hroom : [mbuf].length ≤ receiverBatchSize := by
    rw [List.length_singleton]
    decide
  have hturn := ran_turn hinv.master hroom
  rw [hrows, hacc] at hturn
  obtain ⟨master, hturn, hran⟩ := hturn
  have hstep : step d s (.turn [mbuf]) = some { s with
      master := master
      control := s.control ++ master.sent.drop s.master.sent.length
      downstream := rest
      bursts := s.bursts ++ [[mbuf]] } := by
    rw [step, if_pos ⟨hroom, by rw [List.map_singleton, hframe, hdown]; exact ⟨rest, rfl⟩⟩]
    simp only [hturn, Option.bind_eq_bind, Option.bind_some, hdown]
    rfl
  exact ⟨mbuf, _, hstep, rfl, rfl, rfl, hframe, rfl, rfl, rfl, turn_control (s := s) hran, rfl, rfl, rfl⟩

theorem reach_turn (hc : c.unpackedBits = c.valueBits) (hfits : UpdatesFit d)
    (hs : (system d InFlight.Clear).Reached s) {frame : List Byte} {rest : List (List Byte)}
    (hdown : s.downstream = frame :: rest) :
    ∃ s', (system d InFlight.Clear).Reached s' ∧ s'.downstream = rest ∧ s'.upstream = s.upstream ∧
      s'.read = s.read ∧ (∃ mbuf : RxMbuf, mbuf.frame = frame ∧ s'.bursts = s.bursts ++ [[mbuf]]) ∧
      Undisturbed s s' := by
  obtain ⟨mbuf, s', hstep, hrest, hup, hread, hframe, hbursts, hsame⟩ := receive_enabled hc hfits hs hdown
  exact ⟨s', reach_step hs (by simp) hstep, hrest, hup, hread, ⟨mbuf, hframe, hbursts⟩, hsame⟩

/-- It can receive everything the switch passed on. -/
theorem reach_received (hc : c.unpackedBits = c.valueBits) (hfits : UpdatesFit d)
    (hs : (system d InFlight.Clear).Reached s) :
    ∃ s', (system d InFlight.Clear).Reached s' ∧ s'.downstream = [] ∧ s'.upstream = s.upstream ∧
      s'.read = s.read ∧ (∃ mbufs : List RxMbuf, s'.bursts = s.bursts ++ mbufs.map fun mbuf => [mbuf]) ∧
      Undisturbed s s' := by
  generalize hdown : s.downstream = frames
  induction frames generalizing s with
  | nil => exact ⟨s, hs, hdown, rfl, rfl, ⟨[], (List.append_nil _).symm⟩, rfl, rfl, rfl, rfl, rfl, rfl⟩
  | cons frame rest ih =>
    obtain ⟨s₁, hs₁, hdown₁, hup₁, hread₁, ⟨mbuf, hframe, hbursts₁⟩, hsame₁⟩ := reach_turn hc hfits hs hdown
    obtain ⟨s', hs', hempty, hup, hread, ⟨mbufs, hbursts⟩, hsame⟩ := ih hs₁ hdown₁
    refine ⟨s', hs', hempty, hup.trans hup₁, hread.trans hread₁, ⟨mbuf :: mbufs, ?_⟩, hsame₁.trans hsame⟩
    rw [hbursts, hbursts₁, List.append_assoc, List.singleton_append, List.map_cons]

/-- When all workers are through, the frames before the switch are those of all rows. -/
theorem Ready.upstream (hc : c.unpackedBits = c.valueBits) (h : Ready d n s) :
    rowsOf c s.upstream = (allRows d : Multiset (Row c)).map some := by
  have hwires : s.wires = s.upstream := by
    rw [(reached_inv h.reached).wires, h.read, h.lostUp]
    simp
  rw [rowsOf_eq_map, ← hwires]
  exact wires_rows hc h.reached (fun i => (reached_behaves h.reached i).done (h.done i i.isLt).1) fun i =>
    (h.done i i.isLt).2

/-- Every worker can hand over its batches and the master receive what the switch passes on,
whatever the order in which the switch reads the rows. -/
theorem reach_order (hc : c.unpackedBits = c.valueBits) (hports : ∀ i, (d.port i).Progresses)
    (hids : Function.Injective d.workerId) (hfits : UpdatesFit d) {order : List (Row c)}
    (horder : order.Perm (allRows d)) :
    ∃ s, (system d InFlight.Clear).Reached s ∧ Drained d s ∧ (∀ i, s.phase i = .done) ∧
      acksIn s.control = n ∧ s.counted = 0 ∧ s.read.map (unpackPayload c) = order.map some ∧
      ∃ mbufs : List RxMbuf, s.bursts = [] :: mbufs.map fun mbuf => [mbuf] := by
  obtain ⟨s₁, h₁⟩ := reach_all_ready hc hports hids
  -- frames of the rows in that order
  obtain ⟨frames, hframes, hperm⟩ : ∃ frames : List (List Byte),
      order.map some = frames.map (unpackPayload c) ∧ frames.Perm s₁.upstream := by
    have hrows : (order.map some).Perm (s₁.upstream.map (unpackPayload c)) := by
      refine (horder.map some).trans (Multiset.coe_eq_coe.mp ?_)
      rw [← Multiset.map_coe, ← h₁.upstream hc]
      rfl
    exact (congrFun₂ (List.eq_map_comp_perm (unpackPayload c)) _ _).mpr hrows
  obtain ⟨s₂, hs₂, hup₂, hread₂, hbursts₂, hsame₂⟩ := reach_read h₁.reached hperm
  obtain ⟨s₃, hs₃, hdown₃, hup₃, hread₃, ⟨mbufs, hbursts₃⟩, hsame₃⟩ := reach_received hc hfits hs₂
  have hsame := hsame₂.trans hsame₃
  have hdone : ∀ i, s₃.phase i = .done := fun i => by
    rw [hsame.phase]
    exact (h₁.done i i.isLt).1
  refine ⟨s₃, hs₃, ?_, hdone, hsame.acks.trans h₁.acks, hsame.counted.trans h₁.counted, ?_, mbufs, ?_⟩
  · exact {
      handed := fun i => (reached_behaves hs₃ i).done (hdone i)
      queue := fun i => by
        rw [hsame.worker]
        exact (h₁.done i i.isLt).2
      upstream := by rw [hup₃, hup₂]
      downstream := hdown₃
      lostUp := by rw [hsame.lostUp, h₁.lostUp]
      lostDown := by rw [hsame.lostDown, h₁.lostDown] }
  · rw [hread₃, hread₂, h₁.read, List.nil_append, hframes]
  · rw [hbursts₃, hbursts₂, h₁.bursts, List.singleton_append]

theorem reach_drained (hc : c.unpackedBits = c.valueBits) (hports : ∀ i, (d.port i).Progresses)
    (hids : Function.Injective d.workerId) (hfits : UpdatesFit d) :
    ∃ s, (system d InFlight.Clear).Reached s ∧ Drained d s ∧ (∀ i, s.phase i = .done) ∧
      acksIn s.control = n ∧ s.counted = 0 ∧
      ∃ mbufs : List RxMbuf, s.bursts = [] :: mbufs.map fun mbuf => [mbuf] := by
  obtain ⟨s, hs, hdrained, hdone, hacks, hcounted, _, hbursts⟩ := reach_order hc hports hids hfits (.refl _)
  exact ⟨s, hs, hdrained, hdone, hacks, hcounted, hbursts⟩

/-- The script can count the acknowledgements that have come, once it runs. -/
theorem reach_counted (hs : (system d Q).Reached s) (hscripts : s.master.scripts ≠ 0) {m : Nat}
    (hm : m ≤ acksIn s.control) (hnodes : s.counted + m ≤ d.workerNodes) :
    ∃ control, (system d Q).Reached {s with control := control, counted := s.counted + m} := by
  induction m generalizing s with
  | zero => exact ⟨s.control, hs⟩
  | succ m ih =>
    obtain ⟨j, hacks, hstep⟩ := count_enabled hscripts (d := d) (by omega) (by omega)
    obtain ⟨control, hreached⟩ := ih (reach_step hs (by simp) hstep) hscripts
      (by show m ≤ acksIn (s.control.eraseIdx j); omega) (by show s.counted + 1 + m ≤ _; omega)
    refine ⟨control, ?_⟩
    rw [show s.counted + (m + 1) = s.counted + 1 + m from by omega]
    exact hreached

/-- The script is started in a turn after the first. -/
theorem seen_of_burst {bursts : List (List RxMbuf)} {mbuf : RxMbuf} : Seen ([] :: [mbuf] :: bursts) :=
  ⟨2, le_rfl, by simp, by simp⟩

/-- All workers can be through and the script running when the master has received one frame. -/
theorem reach_running (hc : c.unpackedBits = c.valueBits) (hports : ∀ i, (d.port i).Progresses)
    (hids : Function.Injective d.workerId) (hfits : UpdatesFit d)
    (hpass : ∀ frame row, unpackPayload c frame = some row → d.switch.drops d.registers frame = false)
    (hrows : allRows d ≠ []) :
    ∃ s, (system d InFlight.Clear).Reached s ∧ s.master.scripts ≠ 0 ∧ acksIn s.control = n ∧
      s.counted = 0 ∧ (rowsIn c s.bursts.flatten).length = 1 ∧ s.upstream.length + 1 = (allRows d).length ∧
      s.lostUp = [] ∧ s.lostDown = [] := by
  obtain ⟨s₁, h₁⟩ := reach_all_ready hc hports hids
  have hinv := reached_inv h₁.reached
  have hcard : s₁.upstream.length = (allRows d).length := by
    simpa [rowsOf] using congrArg Multiset.card (h₁.upstream hc)
  cases hup : s₁.upstream with
  | nil =>
    rw [hup] at hcard
    exact absurd (List.eq_nil_of_length_eq_zero hcard.symm) hrows
  | cons frame rest =>
    have hwires : frame ∈ s₁.wires := by
      rw [hinv.wires, hup]
      simp
    obtain ⟨_, row, _, hrow⟩ := mem_wires hc h₁.reached hwires
    have hregisters : s₁.registers = d.registers := by
      rw [hinv.registers, h₁.read]
      rfl
    have hread := reach_step h₁.reached (by simp) (switch_enabled (j := 0) (by rw [hup]; rfl))
    rw [hregisters, hpass frame row hrow, h₁.downstream, hup, List.eraseIdx_cons_zero] at hread
    obtain ⟨s₂, hs₂, _, hup₂, _, ⟨mbuf, _, hbursts₂⟩, hsame⟩ := reach_turn hc hfits hread rfl
    have hbursts : s₂.bursts = [[], [mbuf]] := by
      rw [hbursts₂]
      dsimp only
      rw [h₁.bursts, List.singleton_append]
    have hinv₂ := reached_inv hs₂
    refine ⟨s₂, hs₂, ?_, hsame.acks.trans h₁.acks, hsame.counted.trans h₁.counted, ?_, ?_,
      hsame.lostUp.trans h₁.lostUp, hsame.lostDown.trans h₁.lostDown⟩
    · rw [hinv₂.master.scripts, if_pos (hinv₂.master.started.mpr (by rw [hbursts]; exact seen_of_burst))]
      decide
    · rw [hbursts, length_rowsIn]
      rfl
    · rw [← hcard, hup]
      exact congrArg (fun frames => frames.length + 1) hup₂

end Runs
end Cheetah.System
