import Cheetah.System.Completion
import Cheetah.System.GroupbyAnswer

/-! What can and what cannot happen to a query.

The rows follow the query exactly for the ids that have an address. No row is lost track
of. But the end that `receive_ack_end.py` sees can come while all rows but one are still on
their way. -/
namespace Cheetah.System
open Lib Host Host.ControlMessage Host.StreamReceiver Host.ControlFlow Host.Master
open Host.AggregateProcessing Protocol

section Outcomes
variable {c : Config} {κ R : Type} {n : Nat} {d : Deployment c κ R n} {s : State c κ R n} {i : Fin n}

theorem offloadQuery_ne_nil (nodes : Nodes) (queryType : List Byte) : offloadQuery nodes queryType ≠ [] := by
  cases nodes <;> exact List.cons_ne_nil _ _

/-- The ids that wait are those of the addresses. -/
theorem addressed_iff (d : Deployment c κ R n) (i : Fin n) :
    Addressed d i ↔ 1 ≤ d.workerId i ∧ d.workerId i ≤ (offloadAddresses d.nodes).length := by
  unfold Addressed
  rw [Option.ne_none_iff_exists']
  simp only [awaitAddress_iff]
  constructor
  · intro hsome
    obtain ⟨a, hpos, hat⟩ := hsome
    obtain ⟨hlt, _⟩ := List.getElem?_eq_some_iff.mp hat
    exact ⟨hpos, by omega⟩
  · intro hboth
    obtain ⟨hpos, hle⟩ := hboth
    exact ⟨_, hpos, List.getElem?_eq_getElem (by omega)⟩

variable [DecidableEq κ] {Q : InFlight.State → InFlight.Act → Prop}

/-- Runs whose steps meet `Q` are runs whose steps meet what `Q` implies. -/
theorem reached_mono {Q' : InFlight.State → InFlight.Act → Prop} (hQ : ∀ w a, Q w a → Q' w a)
    (hs : (system d Q).Reached s) : (system d Q').Reached s := by
  induction hs with
  | start h => exact .start h
  | next _ hn ih =>
    obtain ⟨a, hmeets, hstep⟩ := hn
    exact ih.next ⟨a, fun i b hb => hQ _ _ (hmeets i b hb), hstep⟩

/-- **The rows follow the query.** In every state that can be reached, in any runs that take
in those in which no packet is rewritten before it is read, a worker that has begun a batch
finds the query sent, exactly when its id has an address under the macros. -/
theorem rows_after_query_iff (hc : c.unpackedBits = c.valueBits)
    (hsim : batchSize ≤ (d.sim i).entryCount) (hQ : ∀ w a, InFlight.Clear w a → Q w a) :
    (∀ s, (system d Q).Reached s → (s.worker i).batch ≠ 0 ∨ (s.worker i).packet ≠ 0 →
        s.master.sent = offloadQuery d.nodes d.query.text) ↔
      1 ≤ d.workerId i ∧ d.workerId i ≤ (offloadAddresses d.nodes).length := by
  rw [← addressed_iff]
  constructor
  · intro hall hnone
    choose worker hworker hstart using fun i => InFlight.start_spec c (d.state i) (d.pool i) (d.sim i)
    have hs : (system d InFlight.Clear).Reached (initial d worker) := .start ⟨worker, hworker, rfl⟩
    obtain ⟨_, hqueue, _, hbatch, hpacket⟩ := hstart i
    -- without an address it fills its first batch in the first steps of the run
    obtain ⟨control, hbegun, _⟩ := reach_begun hs rfl fun a ha => by
      rw [hnone] at ha
      cases ha
    have hw₀ : InFlight.Reached c (d.port i) (d.state i) (d.pool i) (d.sim i) InFlight.Clear (worker i) :=
      .start (hworker i)
    have hroom : (worker i).batch < (d.sim i).entryCount / batchSize := by
      rw [hbatch]
      exact Nat.div_pos hsim (by decide)
    obtain ⟨w, hw, _, hfilled, _⟩ := InFlight.reach_filled hc hw₀ hroom hpacket fun t ht cl hcl => by
      rw [ht, hqueue] at hcl
      cases hcl
    have hsent := hall _ (reached_mono hQ (reach_work hbegun (Function.update_self ..) (hworker i) hw))
      (.inr (by dsimp only; rw [Function.update_self, hfilled]; decide))
    exact offloadQuery_ne_nil _ _ hsent.symm
  · intro haddressed s hs hbegun
    have hinv := reached_inv hs
    have hoff := offloaded_of_begun hs haddressed hbegun
    rw [hinv.master.sent, if_neg (hinv.master.offloaded.mp hoff)]

/-- Id 1 has an address under the shipped macros, whatever is rewritten when. -/
theorem rows_after_query_iff_one :
    (∀ s, (system oneWorker fun _ _ => True).Reached s →
        (s.worker 0).batch ≠ 0 ∨ (s.worker 0).packet ≠ 0 →
        s.master.sent = offloadQuery oneWorker.nodes oneWorker.query.text) ↔
      1 ≤ oneWorker.workerId 0 ∧ oneWorker.workerId 0 ≤ (offloadAddresses oneWorker.nodes).length :=
  @rows_after_query_iff _ _ _ _ oneWorker 0 _ (fun _ _ => True) rfl (by decide) fun _ _ _ => trivial

/-- **When the script ends**, as many workers as it was told have handed over every whole
batch: all of them, if it was told of them all. The master has received a frame then, and
sent the query before that. Where the other frames are, this does not say. -/
theorem script_ended (hs : (system d Q).Reached s) (hend : s.counted = d.workerNodes) :
    d.workerNodes ≤ (Finset.univ.filter fun i => HandedOver d s i).card ∧
      (n ≤ d.workerNodes → ∀ i, HandedOver d s i) ∧
      (d.workerNodes ≠ 0 → Seen s.bursts ∧ s.master.sent = offloadQuery d.nodes d.query.text) := by
  have hreached := (refines_protocol d Q).reached hs
  have hinv := reached_inv hs
  refine ⟨?_, fun hall i => ?_, fun hsome => ?_⟩
  · refine Nat.le_trans (Protocol.ended_done hreached hend) (Finset.card_le_card fun i hi => ?_)
    have hdone : s.phase i = .done := (Finset.mem_filter.mp hi).2
    exact Finset.mem_filter.mpr ⟨Finset.mem_univ i, (reached_behaves hs i).done hdone⟩
  · exact (reached_behaves hs i).done
      (Protocol.ended_all_done hreached hend (by rw [Fintype.card_fin]; exact hall) i)
  · have hprotocol := Protocol.reached_inv hreached
    have hrunning := hprotocol.counted (by rw [← hend] at hsome; exact hsome)
    have hoff := hprotocol.running hrunning
    exact ⟨hinv.master.started.mp hrunning, by
      rw [hinv.master.sent, if_neg (hinv.master.offloaded.mp hoff)]⟩

/-- The worker's acknowledgement is counted. -/
theorem script_ended_one :
    ∃ s, (system oneWorker InFlight.Clear).Reached s ∧
      1 ≤ (Finset.univ.filter fun i => HandedOver oneWorker s i).card ∧
      (1 ≤ 1 → ∀ i, HandedOver oneWorker s i) ∧
      (1 ≠ 0 → Seen s.bursts ∧ s.master.sent = offloadQuery oneWorker.nodes oneWorker.query.text) := by
  obtain ⟨s, hs, hscripts, hacks, hcounted, _⟩ := reach_running (d := oneWorker) rfl
    (fun _ => wholePort_progresses) (Function.injective_of_subsingleton _)
    (groupby_fits oneWorker_runs oneWorker_room) (fun _ _ h => groupby_passes oneWorker_runs h)
    (List.ne_nil_of_length_pos (by rw [oneWorker_length]; decide))
  obtain ⟨control, hend⟩ := reach_counted hs hscripts (m := 1) (by rw [hacks]) (by rw [hcounted]; decide)
  exact ⟨_, hend, script_ended hend (by rw [hcounted]; rfl)⟩

/-- **Every frame is whole, in any run**, however late the ports read. A frame on its way or
received is a Cheetah packet with the headers of its worker and a row of that worker's
dataset, and a row the master has gone through is one of a dataset. That takes a packet to be
rewritten at one step: between two stores it is not whole (`FieldStores.row_torn`). -/
theorem frames_whole (hc : c.unpackedBits = c.valueBits) (hport : ∀ i, (d.state i).udpDestinationPort = 4242)
    (hs : (system d Q).Reached s) :
    (∀ frame, frame ∈ s.upstream ∨ frame ∈ s.downstream ∨ frame ∈ received s.bursts →
      isCheetah c frame = true ∧ ∃ i, InFlight.Whole (d.state i) (d.sim i) frame) ∧
    rowsIn c s.bursts.flatten ⊆ allRows d := by
  have hinv := reached_inv hs
  refine ⟨fun frame hframe => ?_, fun row hrow => ?_⟩
  · have hmem : frame ∈ s.wires := by
      rcases hframe with hup | hdown | hreceived
      · rw [hinv.wires]
        exact Multiset.mem_add.mpr (.inl (Multiset.mem_add.mpr (.inl hup)))
      · exact downstream_subset hinv hdown
      · exact received_subset hinv hreceived
    obtain ⟨i, hwhole⟩ := wires_whole hc hs hmem
    exact ⟨isCheetah_of_headed hwhole.headed (hport i) hwhole.length.ge, i, hwhole⟩
  · obtain ⟨mbuf, hmbuf, hread⟩ := List.mem_filterMap.mp hrow
    obtain ⟨i, hwhole⟩ := wires_whole hc hs (received_subset hinv (List.mem_map.mpr ⟨mbuf, hmbuf, rfl⟩))
    obtain ⟨row', hrow', hframe⟩ := hwhole.row
    rw [drop_buf, unpackPayload_append hframe] at hread
    obtain rfl := Option.some.inj hread
    exact mem_allRows hrow'

/-- The frames of 32 rows. -/
theorem frames_whole_one :
    ∃ s, (system oneWorker InFlight.Clear).Reached s ∧ Drained oneWorker s ∧
      (∀ frame, frame ∈ s.upstream ∨ frame ∈ s.downstream ∨ frame ∈ received s.bursts →
        isCheetah shipped frame = true ∧ ∃ i, InFlight.Whole (oneWorker.state i) (oneWorker.sim i) frame) ∧
      rowsIn shipped s.bursts.flatten ⊆ allRows oneWorker := by
  obtain ⟨s, hs, hdrained, _⟩ := reach_drained (d := oneWorker) rfl (fun _ => wholePort_progresses)
    (Function.injective_of_subsingleton _) (groupby_fits oneWorker_runs oneWorker_room)
  exact ⟨s, hs, hdrained, frames_whole rfl (fun _ => rfl) hs⟩

/-- **Every row is accounted for**, in any run in which no packet is rewritten before it is
read. The rows handed over are, one by one, those still queued, those in frames before and
behind the switch, those it pruned, those that got lost, and those the master has gone
through; so the master goes through no row twice. Once everything has arrived, what it has
not gone through is what the switch pruned. -/
theorem rows_accounted (hc : c.unpackedBits = c.valueBits) (hs : (system d InFlight.Clear).Reached s) :
    (∑ i, (((handed d s i).map some : List (Option (Row c))) : Multiset (Option (Row c))) =
      ∑ i, queued c (s.worker i) + rowsOf c s.upstream +
        rowsOf c (d.switch.dropped d.registers s.read) + rowsOf c s.downstream +
        rowsOf c (s.lostUp ++ s.lostDown) +
        (((rowsIn c s.bursts.flatten).map some : List (Option (Row c))) : Multiset (Option (Row c)))) ∧
    ((rowsIn c s.bursts.flatten : List (Row c)) : Multiset (Row c)) ≤
      ∑ i, ((handed d s i : List (Row c)) : Multiset (Row c)) ∧
    (Drained d s → (allRows d : Multiset (Row c)).map some =
      rowsOf c (d.switch.dropped d.registers s.read) +
        (((rowsIn c s.bursts.flatten).map some : List (Option (Row c))) : Multiset (Option (Row c)))) := by
  refine ⟨rows_conserved hc hs, rowsIn_le hc hs, fun h => ?_⟩
  have hinv := reached_inv hs
  have hrows := wires_rows hc hs h.handed h.queue
  rw [hinv.wires, h.upstream, h.lostUp] at hrows
  have hread : (s.read : Multiset (List Byte)) =
      received s.bursts + (d.switch.dropped d.registers s.read : Multiset (List Byte)) := by
    rw [d.switch.split d.registers s.read, forwarded_of_drained hinv h]
  rw [← hrows, ← rowsOf_received hc hs, Multiset.coe_nil, add_zero, zero_add, hread, Multiset.map_add, add_comm]
  rfl

/-- Everything arrives: 32 rows are the pruned ones and those the master has gone through. -/
theorem rows_accounted_one :
    ∃ s, (system oneWorker InFlight.Clear).Reached s ∧ Drained oneWorker s ∧
      (allRows oneWorker : Multiset (Row shipped)).map some =
        rowsOf shipped (oneWorker.switch.dropped oneWorker.registers s.read) +
          (((rowsIn shipped s.bursts.flatten).map some : List (Option (Row shipped))) :
            Multiset (Option (Row shipped))) := by
  obtain ⟨s, hs, hdrained, _⟩ := reach_drained (d := oneWorker) rfl (fun _ => wholePort_progresses)
    (Function.injective_of_subsingleton _) (groupby_fits oneWorker_runs oneWorker_room)
  obtain ⟨_, _, hall⟩ := rows_accounted rfl hs
  exact ⟨s, hs, hdrained, hall hdrained⟩

/-- **The end of the script is not the end of the query.** With any rows to send, and a
switch that passes the first row on, the script can count every acknowledgement it was
told of when the master has gone through a single row and all others are still on their way
to the switch. -/
theorem ends_early (hc : c.unpackedBits = c.valueBits) (hports : ∀ i, (d.port i).Progresses)
    (hids : Function.Injective d.workerId) (hfits : UpdatesFit d)
    (hpass : ∀ frame row, unpackPayload c frame = some row → d.switch.drops d.registers frame = false)
    (hrows : allRows d ≠ []) (hnodes : d.workerNodes ≤ n) :
    ∃ s, (system d InFlight.Clear).Reached s ∧ s.counted = d.workerNodes ∧
      (rowsIn c s.bursts.flatten).length = 1 ∧ s.upstream.length + 1 = (allRows d).length ∧
      s.lostUp = [] ∧ s.lostDown = [] := by
  obtain ⟨s, hs, hscripts, hacks, hcounted, hone, hup, hlostUp, hlostDown⟩ :=
    reach_running hc hports hids hfits hpass hrows
  obtain ⟨control, hend⟩ := reach_counted hs hscripts (m := d.workerNodes) (by rw [hacks]; exact hnodes)
    (by rw [hcounted, Nat.zero_add])
  exact ⟨_, hend, by rw [hcounted, Nat.zero_add], hone, hup, hlostUp, hlostDown⟩

/-- 31 of the 32 rows are still on their way. -/
theorem ends_early_one :
    ∃ s, (system oneWorker InFlight.Clear).Reached s ∧ s.counted = oneWorker.workerNodes ∧
      (rowsIn shipped s.bursts.flatten).length = 1 ∧ s.upstream.length + 1 = (allRows oneWorker).length ∧
      s.lostUp = [] ∧ s.lostDown = [] :=
  ends_early rfl (fun _ => wholePort_progresses) (Function.injective_of_subsingleton _)
    (groupby_fits oneWorker_runs oneWorker_room) (fun _ _ h => groupby_passes oneWorker_runs h)
    (List.ne_nil_of_length_pos (by rw [oneWorker_length]; decide)) (by decide)

end Outcomes

end Cheetah.System
