import Cheetah.Host.FastPacketStream

/-! `cheetah_fast_packet_stream_send`: clones of every packet, handed to the port in bursts.

The port may take part of a burst; the loop asks again for the rest. `Sending` is
its invariant: the calls so far took the clones in front of the pointer, each once
and in order, and the rest of the array is what is left. -/
namespace Cheetah.Host.FastPacketStream
open Lib Lib.Bytes

/-- `rte_eth_tx_burst`: how many packets each call takes of a request, call by call. -/
structure Port where
  accept : Nat → BitVec 16 → BitVec 16
  accept_le : ∀ call request, accept call request ≤ request

/-- Something is taken of every request that is not empty. -/
def Port.Progresses (port : Port) : Prop := ∀ call request, request ≠ 0 → port.accept call request ≠ 0

/-- One call: where the clone pointer stood, how many packets were asked for and taken. -/
structure TxBurst where
  first : Nat
  request : BitVec 16
  sent : BitVec 16
  deriving DecidableEq

/-- The variables of the loop, the number of calls so far and the calls of this loop. -/
structure SendState where
  mbufBurstArrClone : Nat
  packetsLeft : BitVec 64
  calls : Nat
  bursts : List TxBurst

/-- The clones a call takes. The whole request has to be in the array. -/
def TxBurst.taken {α : Type*} (arr : List α) (b : TxBurst) : Option (List α) :=
  if b.first + b.request.toNat ≤ arr.length then some (slice arr b.first b.sent.toNat) else none

section Code
variable (port : Port)

/-- The body of the loop. `packets_left` is passed as a `uint16_t`. -/
def sendStep (s : SendState) : SendState :=
  let request := s.packetsLeft.setWidth 16
  let packetsSent := port.accept s.calls request
  { mbufBurstArrClone := s.mbufBurstArrClone + packetsSent.toNat
    packetsLeft := s.packetsLeft - packetsSent.setWidth 64
    calls := s.calls + 1
    bursts := s.bursts ++ [⟨s.mbufBurstArrClone, request, packetsSent⟩] }

/-- The loop, given how many times it may turn. -/
def sendLoop : Nat → SendState → Option SendState
  | 0, _ => none
  | fuel + 1, s =>
    let s := sendStep port s
    if s.packetsLeft = 0 then some s else sendLoop fuel s

/-- The clones of the packets of a stream. -/
def cloneAll (stream : Stream) (mem : Mem) : Option (List Clone) :=
  (List.range stream.packetCount).mapM fun i => do mem.clone (← stream.mbufBurstArr[i]?)

/-- `cheetah_fast_packet_stream_send`, after `calls` calls of `rte_eth_tx_burst`: the
clones the port took, in order, and the number of calls. -/
def send (fuel calls : Nat) (stream : Stream) (mem : Mem) : Option (List Clone × Nat) := do
  let clones ← cloneAll stream mem
  let s ← sendLoop port fuel ⟨0, BitVec.ofNat 64 stream.packetCount, calls, []⟩
  let taken ← s.bursts.mapM (TxBurst.taken clones)
  some (taken.flatten, s.calls)

end Code

/-! ### The loop -/

section Loop
variable {α : Type*} {port : Port} {arr : List α} {s : SendState}

/-- What is taken and what is left are the array. -/
structure Sending (arr : List α) (s : SendState) : Prop where
  left : s.mbufBurstArrClone + s.packetsLeft.toNat = arr.length
  taken : ∃ taken, s.bursts.mapM (TxBurst.taken arr) = some taken ∧
    taken.flatten = arr.take s.mbufBurstArrClone

/-- Below 2^16 packets the request is all that is left. -/
theorem request_toNat (hs : Sending arr s) (hlen : arr.length < 65536) :
    (s.packetsLeft.setWidth 16).toNat = s.packetsLeft.toNat := by
  have hleft := hs.left
  rw [BitVec.toNat_setWidth]
  exact Nat.mod_eq_of_lt (by omega)

/-- No more is taken than is left, so the subtraction does not wrap. -/
theorem sendStep_left (port : Port) (hs : Sending arr s) (hlen : arr.length < 65536) :
    (sendStep port s).packetsLeft.toNat +
      (port.accept s.calls (s.packetsLeft.setWidth 16)).toNat = s.packetsLeft.toNat := by
  have hle := BitVec.le_def.mp (port.accept_le s.calls (s.packetsLeft.setWidth 16))
  rw [request_toNat hs hlen] at hle
  have hwidth : ((port.accept s.calls (s.packetsLeft.setWidth 16)).setWidth 64).toNat =
      (port.accept s.calls (s.packetsLeft.setWidth 16)).toNat := by
    rw [BitVec.toNat_setWidth]
    exact Nat.mod_eq_of_lt (by omega)
  have hsub := BitVec.toNat_sub_of_le (x := s.packetsLeft)
    (y := (port.accept s.calls (s.packetsLeft.setWidth 16)).setWidth 64)
    (BitVec.le_def.mpr (by rwa [hwidth]))
  rw [hwidth] at hsub
  have : (sendStep port s).packetsLeft.toNat = _ := hsub
  omega

/-- One call keeps the invariant. -/
theorem sendStep_inv (port : Port) (hs : Sending arr s) (hlen : arr.length < 65536) :
    Sending arr (sendStep port s) := by
  have hleft := hs.left
  have hstep := sendStep_left port hs hlen
  have hrequest := request_toNat hs hlen
  obtain ⟨taken, hmap, hflat⟩ := hs.taken
  refine ⟨by show s.mbufBurstArrClone + _ + _ = _; omega,
    taken ++ [slice arr s.mbufBurstArrClone (port.accept s.calls (s.packetsLeft.setWidth 16)).toNat],
    ?_, ?_⟩
  · rw [sendStep, List.mapM_append, hmap]
    simp only [List.mapM_cons, List.mapM_nil, TxBurst.taken, hrequest, hleft, le_refl, if_true]
    rfl
  · rw [List.flatten_append, hflat, List.flatten_singleton]
    exact List.take_add.symm

/-- **When the loop ends, the calls took the whole array.** -/
theorem sendLoop_taken (hlen : arr.length < 65536) {fuel : Nat} {s' : SendState}
    (hs : Sending arr s) (hrun : sendLoop port fuel s = some s') :
    ∃ taken, s'.bursts.mapM (TxBurst.taken arr) = some taken ∧ taken.flatten = arr := by
  induction fuel generalizing s with
  | zero => exact absurd hrun (Option.some_ne_none s').symm
  | succ fuel ih =>
    have hinv := sendStep_inv port hs hlen
    rw [sendLoop] at hrun
    split at hrun
    · rename_i hdone
      obtain rfl := Option.some.inj hrun
      obtain ⟨taken, hmap, hflat⟩ := hinv.taken
      have hall := hinv.left
      rw [hdone] at hall
      refine ⟨taken, hmap, ?_⟩
      rw [hflat, List.take_of_length_le (by simpa using hall.ge)]
    · exact ih hinv hrun

/-- It ends in at most as many calls as packets are left, if the port keeps taking some. -/
theorem sendLoop_ends (hport : port.Progresses) (hlen : arr.length < 65536) {fuel : Nat}
    (hs : Sending arr s) (hleft : s.packetsLeft ≠ 0) (hfuel : s.packetsLeft.toNat ≤ fuel) :
    ∃ s', sendLoop port fuel s = some s' := by
  induction fuel generalizing s with
  | zero => exact absurd (BitVec.eq_of_toNat_eq (Nat.le_zero.mp hfuel)) hleft
  | succ fuel ih =>
    by_cases hdone : (sendStep port s).packetsLeft = 0
    · exact ⟨sendStep port s, by rw [sendLoop, if_pos hdone]⟩
    · -- the request was not empty, so something was taken
      have hrequest : s.packetsLeft.setWidth 16 ≠ 0 := fun h0 =>
        hleft (BitVec.eq_of_toNat_eq (by rw [← request_toNat hs hlen, h0]; rfl))
      have hsent : (port.accept s.calls (s.packetsLeft.setWidth 16)).toNat ≠ 0 := fun h0 =>
        hport s.calls _ hrequest (BitVec.eq_of_toNat_eq h0)
      have hstep := sendStep_left port hs hlen
      rw [sendLoop, if_neg hdone]
      exact ih (sendStep_inv port hs hlen) hdone (by omega)

end Loop

/-! ### What is handed over -/

section Clones
variable {c : Config} {stream : Stream} {mem : Mem} {cl : Clone}

/-- A clone that designates the whole of a packet of the stream. -/
structure Reference (c : Config) (stream : Stream) (cl : Clone) : Prop where
  lt : cl.direct < stream.packetCount
  start : ∃ f, Points stream cl.direct f ∧ f.flowId = cl.dataOff + 42
  dataLen : cl.dataLen = c.frameLength

/-- It reads the packet as it is now, whenever it was made. -/
theorem Reference.read (hr : Reference c stream cl) (h : Crafted c stream mem) :
    ∃ frame, mem.read cl = some frame ∧ unpackPayload c frame = decoded c mem cl.direct := by
  obtain ⟨f, hp, hstart⟩ := hr.start
  obtain ⟨m, f', hm, ht, hp'⟩ := h.packet cl.direct hr.lt
  have hflowId : f.flowId = f'.flowId := by
    have := hp.flowId.symm.trans hp'.flowId
    simpa using this
  have hoff : cl.dataOff = m.dataOff := by have := ht.flowId; omega
  have hlen : cl.dataLen = m.dataLen := hr.dataLen.trans ht.dataLen.symm
  refine ⟨m.frame, ?_, ?_⟩
  · rw [Mem.read, hm, hoff, hlen]
    rfl
  · rw [decoded, hm]
    rfl

theorem cloneAll_spec (h : Crafted c stream mem) :
    ∃ clones, cloneAll stream mem = some clones ∧
      clones.map Clone.direct = List.range stream.packetCount ∧
      ∀ cl ∈ clones, Reference c stream cl := by
  have heach : ∀ i ∈ List.range stream.packetCount, ∃ cl,
      (do mem.clone (← stream.mbufBurstArr[i]?)) = some cl ∧ cl.direct = id i ∧
        Reference c stream cl := fun i hi => by
    have hlt := List.mem_range.mp hi
    obtain ⟨m, f, hm, ht, hp⟩ := h.packet i hlt
    refine ⟨⟨i, m.dataOff, m.dataLen⟩, ?_, rfl, hlt, ⟨f, hp, ht.flowId⟩, ht.dataLen⟩
    rw [hp.mbuf]
    show Mem.clone mem i = _
    rw [Mem.clone, hm]
    rfl
  obtain ⟨clones, hrun, hdirect, href⟩ := exists_mapM heach
  exact ⟨clones, hrun, by rw [hdirect, List.map_id], href⟩

/-- The loop starts with everything left. -/
theorem sending_start {clones : List Clone} (hclones : clones.length = stream.packetCount)
    (hcount : stream.packetCount < 65536) (calls : Nat) :
    Sending clones ⟨0, BitVec.ofNat 64 stream.packetCount, calls, []⟩ := by
  refine ⟨?_, [], rfl, rfl⟩
  show 0 + (BitVec.ofNat 64 stream.packetCount).toNat = clones.length
  rw [BitVec.toNat_ofNat, Nat.mod_eq_of_lt (by omega), Nat.zero_add, hclones]

/-- **`send` hands over every packet**, each once and in order. -/
theorem send_clones {port : Port} (h : Crafted c stream mem) (hcount : stream.packetCount < 65536)
    {fuel calls calls' : Nat} {clones : List Clone}
    (hsend : send port fuel calls stream mem = some (clones, calls')) :
    clones.map Clone.direct = List.range stream.packetCount ∧ ∀ cl ∈ clones, Reference c stream cl := by
  obtain ⟨all, hall, hdirect, href⟩ := cloneAll_spec h
  have hlen : all.length = stream.packetCount := by
    rw [← List.length_map (f := Clone.direct), hdirect, List.length_range]
  simp only [send, hall, Option.bind_eq_bind, Option.bind_some, Option.bind_eq_some_iff,
    Option.some.injEq, Prod.mk.injEq] at hsend
  obtain ⟨s, hloop, taken, htaken, hclones, -⟩ := hsend
  obtain ⟨taken', hmap, hflat⟩ :=
    sendLoop_taken (hlen ▸ hcount) (sending_start hlen hcount calls) hloop
  obtain rfl := Option.some.inj (htaken.symm.trans hmap)
  rw [← hclones, hflat]
  exact ⟨hdirect, href⟩

/-- It returns, given as many turns as there are packets. -/
theorem send_ends {port : Port} (hport : port.Progresses) (h : Crafted c stream mem)
    (hpos : stream.packetCount ≠ 0) (hcount : stream.packetCount < 65536) {fuel : Nat}
    (hfuel : stream.packetCount ≤ fuel) (calls : Nat) :
    ∃ clones calls', send port fuel calls stream mem = some (clones, calls') := by
  obtain ⟨all, hall, hdirect, -⟩ := cloneAll_spec h
  have hlen : all.length = stream.packetCount := by
    rw [← List.length_map (f := Clone.direct), hdirect, List.length_range]
  have hstart := sending_start hlen hcount calls
  have hleft : (BitVec.ofNat 64 stream.packetCount).toNat = stream.packetCount := by
    simpa [hlen] using hstart.left
  obtain ⟨s, hloop⟩ := sendLoop_ends hport (hlen ▸ hcount) hstart
    (fun h0 => hpos (by rw [← hleft]; exact congrArg BitVec.toNat h0)) (hleft.trans_le hfuel)
  obtain ⟨taken, hmap, -⟩ := sendLoop_taken (hlen ▸ hcount) hstart hloop
  exact ⟨taken.flatten, s.calls, by
    simp only [send, hall, hloop, hmap, Option.bind_eq_bind, Option.bind_some]⟩

end Clones
end Cheetah.Host.FastPacketStream
