import Cheetah.Host.InFlight
import Cheetah.Host.PacketBatch

/-! What a worker's port sends in any run, however late it reads.

A port that reads late may find a packet rewritten, so a row may be sent twice and another
never. But no clone is queued before its packet was filled, and a rewrite keeps the headers
that `create` wrote in front of a row of the dataset. So every frame is whole. -/
namespace Cheetah.Host.InFlight
open Lib Lib.Bytes FastPacketStream ControlFlow

section Frames
variable {c : Config} {port : Port} {state : ConnectionState} {pool : Mempool} {sim : MemorySim c}
variable {s s' : State} {Q : State → Act → Prop}

/-- The rows that are sent: those of whole batches. -/
def wholeRows (sim : MemorySim c) : List (Row c) := sim.rows.take (batchSize * (sim.entryCount / batchSize))

/-- A frame of the length of a packet, with its headers and a row of the dataset. -/
structure Whole (state : ConnectionState) (sim : MemorySim c) (frame : List Byte) : Prop where
  headed : Headed state frame
  length : frame.length = c.frameLength
  row : ∃ row ∈ wholeRows sim, unpackPayload c frame = some row

/-- What every step keeps. -/
structure Framed (state : ConnectionState) (sim : MemorySim c) (s : State) : Prop where
  inv : Inv sim s
  headed : ∀ m ∈ s.mem, Headed state m.frame
  /-- The packets that were filled once. -/
  filled : ∀ j < batchSize, s.batch ≠ 0 ∨ j < s.packet → ∃ row ∈ wholeRows sim, decoded c s.mem j = some row
  queued : s.queue ≠ [] → s.batch ≠ 0
  wire : ∀ frame ∈ s.wire, Whole state sim frame

theorem mem_wholeRows {i j : Nat} (hi : i < sim.entryCount / batchSize) (hj : j < batchSize) :
    ∃ row ∈ wholeRows sim, sim.rows[batchSize * i + j]? = some row := by
  have hlt : batchSize * i + j < batchSize * (sim.entryCount / batchSize) := by
    have hle := Nat.mul_le_mul_left batchSize (Nat.succ_le_of_lt hi)
    rw [Nat.mul_succ] at hle
    omega
  have hrows : batchSize * i + j < sim.rows.length := by
    have hle := batch_le hi
    omega
  refine ⟨sim.rows[batchSize * i + j], List.mem_of_getElem? (i := batchSize * i + j) ?_,
    List.getElem?_eq_getElem hrows⟩
  rw [wholeRows, List.getElem?_take_of_lt hlt, List.getElem?_eq_getElem hrows]

/-- What a clone reads is the frame of its packet. -/
theorem reference_frame {stream : Stream} {mem : Mem} {cl : Clone} (hr : Reference c stream cl)
    (h : Crafted c stream mem) : ∃ m, mem[cl.direct]? = some m ∧ mem.read cl = some m.frame ∧
      m.frame.length = c.frameLength ∧ unpackPayload c m.frame = decoded c mem cl.direct := by
  obtain ⟨frame, hread, hrow⟩ := hr.read h
  obtain ⟨f, hp, hstart⟩ := hr.start
  obtain ⟨m, f', hm, ht, hp'⟩ := h.packet cl.direct hr.lt
  have hflowId : f.flowId = f'.flowId := by simpa using hp.flowId.symm.trans hp'.flowId
  have hoff : cl.dataOff = m.dataOff := by
    have hfield := ht.flowId
    omega
  have hframe : mem.read cl = some m.frame := by
    rw [Mem.read, hm, hoff, hr.dataLen, ← ht.dataLen]
    rfl
  obtain rfl := Option.some.inj (hframe.symm.trans hread)
  exact ⟨m, hm, hframe, by rw [Mbuf.length_frame, ht.dataLen], hrow⟩

theorem framed_start (h : start c state pool = some s) : Framed state sim s := by
  obtain ⟨s₀, hstart, hinv, hqueue, hwire, hbatch, hpacket⟩ := start_spec c state pool sim
  obtain rfl := Option.some.inj (hstart.symm.trans h)
  obtain ⟨⟨stream, mem⟩, hcreate, hs⟩ := Option.bind_eq_some_iff.mp h
  have hmem : s₀.mem = mem := by rw [← Option.some.inj hs]
  exact {
    inv := hinv
    headed := hmem ▸ create_headed hcreate
    filled := fun j _ hj => by
      rw [hbatch, hpacket] at hj
      exact absurd hj (by simp)
    queued := fun hne => absurd hqueue hne
    wire := fun frame hf => by
      rw [hwire] at hf
      cases hf }

/-- Rewriting a packet. -/
theorem framed_modify (hc : c.unpackedBits = c.valueBits) (h : Framed state sim s)
    (hs : step c port sim s .modify = some s') : Framed state sim s' := by
  obtain ⟨hinv, hbatch, row, hview⟩ := modify_step hc h.inv hs
  rw [step] at hs
  split at hs
  · rename_i hguard
    obtain ⟨hlt, hpacket⟩ := hguard
    simp only [Option.bind_eq_bind, Option.bind_eq_some_iff, Option.some.injEq] at hs
    obtain ⟨_, _, mem, hmodify, rfl⟩ := hs
    have hheaders := modify_sameHeaders h.inv.crafted (by rw [h.inv.packetCount]; exact hpacket) hmodify
    refine ⟨hinv, fun m hm => ?_, fun j hj hor => ?_, h.queued, h.wire⟩
    · obtain ⟨j, hj⟩ := List.mem_iff_getElem?.mp hm
      have hold : j < s.mem.length := by
        rw [← hheaders.1]
        exact (List.getElem?_eq_some_iff.mp hj).1
      exact (h.headed _ (List.getElem_mem hold)).congr
        (hheaders.2 j _ m (List.getElem?_eq_getElem hold) hj).2.2
    · by_cases hnew : j = s.packet
      · obtain ⟨row, hrow, hat⟩ := mem_wholeRows hlt hpacket
        refine ⟨row, hrow, ?_⟩
        rw [hnew, ← hat]
        exact hinv.current s.packet (Nat.lt_succ_self _)
      · obtain ⟨row', hrow, hold⟩ := h.filled j hj (hor.imp_right fun hle => by
          have hle : j < s.packet + 1 := hle
          omega)
        refine ⟨row', hrow, ?_⟩
        have hcells := congrFun (congrArg SharedQueue.cells hview) j
        rw [← hold]
        exact hcells.trans (Function.update_of_ne hnew ..)
  · cases hs

/-- Handing a batch over. -/
theorem framed_send {fuel : Nat} (h : Framed state sim s) (hs : step c port sim s (.send fuel) = some s') :
    Framed state sim s' := by
  obtain ⟨hinv, hbatch, _⟩ := send_step h.inv hs
  rw [step] at hs
  split at hs
  · rename_i hguard
    obtain ⟨_, hpacket⟩ := hguard
    simp only [Option.bind_eq_bind, Option.bind_eq_some_iff, Option.some.injEq] at hs
    obtain ⟨⟨clones, calls⟩, _, rfl⟩ := hs
    refine ⟨hinv, h.headed, fun j hj _ => h.filled j hj (.inr ?_), fun _ => Nat.succ_ne_zero _, h.wire⟩
    rw [hpacket]
    exact hj
  · cases hs

/-- The port reads a packet. -/
theorem framed_transmit (h : Framed state sim s) (hs : step c port sim s .transmit = some s') :
    Framed state sim s' := by
  obtain ⟨hinv, _⟩ := transmit_step h.inv hs
  rw [step] at hs
  split at hs
  · cases hs
  · rename_i cl rest hqueue
    have href := h.inv.queued cl (hqueue ▸ List.mem_cons_self ..)
    obtain ⟨m, hm, hread, hlength, hrow⟩ := reference_frame href h.inv.crafted
    simp only [hread, Option.bind_eq_bind, Option.bind_some, Option.some.injEq] at hs
    subst hs
    have hbegun := h.queued (by rw [hqueue]; exact List.cons_ne_nil _ _)
    refine ⟨hinv, h.headed, h.filled, fun _ => hbegun, fun frame hframe => ?_⟩
    rcases List.mem_append.mp hframe with hold | hnew
    · exact h.wire frame hold
    · obtain ⟨row, hmem, hdec⟩ := h.filled cl.direct (h.inv.packetCount ▸ href.lt) (.inl hbegun)
      rw [List.mem_singleton.mp hnew]
      exact ⟨h.headed m (List.mem_of_getElem? hm), hlength, row, hmem, hrow.trans hdec⟩

theorem reached_framed (hc : c.unpackedBits = c.valueBits) (hs : Reached c port state pool sim Q s) :
    Framed state sim s := by
  induction hs with
  | start h => exact framed_start h
  | @step s s' a _ _ hstep ih =>
    cases a with
    | modify => exact framed_modify hc ih hstep
    | send => exact framed_send ih hstep
    | transmit => exact framed_transmit ih hstep

end Frames
end Cheetah.Host.InFlight
