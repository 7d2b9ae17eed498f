import Cheetah.Host.InFlight
import Cheetah.Lib.Transition
import Mathlib.Logic.Relation

/-! `cheetah_fast_packet_stream_send` beside a port that works while the loop asks.

`InFlight` sends a batch at one step. Here each clone is taken out of the pool by itself,
each call of `rte_eth_tx_burst` is a step that takes what the ring has room for, and the
port reads the oldest clone, or gives the buffer of one it has read back to the pool, at
any time between them.

`inFlight` shows a state of this machine as one of `InFlight`: clones that are all made
count as queued, whoever has them. Under it every step is the step `seen` there or none
(`bursts_refine`), so what `InFlight` says about the wire holds here too. No step fails, so the
loop's assertion that a clone was made holds (`bursts_run`), and the loop comes to its
end whatever the port takes of each request (`bursts_end`). -/
namespace Cheetah.Host.SendBursts
open Lib FastPacketStream ControlFlow

/-- The buffers of the pool and the descriptors of the ring. -/
structure Sizes where
  mbufs : Nat
  nbTxd : Nat

/-- `CHEETAH_PACKET_MBUF` and `CHEETAH_RXTX_DESC_DEFAULT`. -/
def Sizes.shipped : Sizes := ⟨8192, 1024⟩

/-- The packets, what `send` has in its variables, what the port has, and where the
worker's loops stand. -/
structure State where
  stream : Stream
  mem : Mem
  /-- Buffers left in the pool. -/
  available : Nat
  /-- The clone array, as far as it is filled. -/
  clones : List Clone
  /-- How far the pointer into it has moved. -/
  first : Nat
  packetsLeft : BitVec 64
  /-- Taken by the port and not read yet. -/
  queue : List Clone
  /-- How many clones the port has read and not given back. -/
  done : Nat
  wire : List (List Byte)
  batch : Nat
  packet : Nat

inductive Act where
  /-- `cheetah_fast_packet_stream_modify` of the next packet of the batch. -/
  | modify
  /-- `rte_pktmbuf_clone` of the next packet. -/
  | clone
  /-- `rte_eth_tx_burst`, which takes so many. -/
  | txBurst (sent : BitVec 16)
  /-- The port reads the oldest clone. -/
  | transmit
  /-- The port gives a buffer back. -/
  | reclaim
  deriving DecidableEq

/-- The clone of packet `i`. -/
def clonePacket (stream : Stream) (mem : Mem) (i : Nat) : Option Clone := do
  mem.clone (← stream.mbufBurstArr[i]?)

section System
variable (c : Config) (state : ConnectionState) (pool : Mempool) (sizes : Sizes) (sim : MemorySim c)

/-- The worker before its first batch. -/
def start : Option State :=
  if sizes.mbufs < batchSize then none else do
    let (stream, mem) ← create c state pool batchSize
    some ⟨stream, mem, sizes.mbufs - batchSize, [], 0, 0, [], 0, [], 0, 0⟩

variable {c} in
/-- Whose turn it is, and what the port may do: take part of the request, within its ring. -/
def Enabled (s : State) : Act → Prop
  | .modify => s.batch < sim.entryCount / batchSize ∧ s.packet < batchSize
  | .clone => s.batch < sim.entryCount / batchSize ∧ s.packet = batchSize ∧
      s.clones.length < s.stream.packetCount
  | .txBurst sent => s.batch < sim.entryCount / batchSize ∧ s.packet = batchSize ∧
      s.clones.length = s.stream.packetCount ∧ sent ≤ s.packetsLeft.setWidth 16 ∧
      s.queue.length + s.done + sent.toNat ≤ sizes.nbTxd
  | .transmit => s.queue ≠ []
  | .reclaim => s.done ≠ 0

/-- What a step does. It has no result where the code would use a clone that was not made,
or memory that is not there. -/
def act (s : State) : Act → Option State
  | .modify => do
    let mem ← modify c s.stream s.packet (← sim.row (index s.batch s.packet)) s.mem
    some {s with mem := mem, packet := s.packet + 1}
  | .clone => do
    let cl ← if s.available = 0 then none else clonePacket s.stream s.mem s.clones.length
    -- after the last clone this is how the loop starts
    some {s with
      available := s.available - 1
      clones := s.clones ++ [cl]
      packetsLeft := BitVec.ofNat 64 s.stream.packetCount }
  | .txBurst sent => do
    let taken ← TxBurst.taken s.clones ⟨s.first, s.packetsLeft.setWidth 16, sent⟩
    let s := {s with
      queue := s.queue ++ taken
      first := s.first + sent.toNat
      packetsLeft := s.packetsLeft - sent.setWidth 64 }
    some (if s.packetsLeft ≠ 0 then s else
      {s with clones := [], first := 0, batch := s.batch + 1, packet := 0})
  | .transmit =>
    match s.queue with
    | [] => none
    | cl :: rest => do
      let frame ← s.mem.read cl
      some {s with queue := rest, done := s.done + 1, wire := s.wire ++ [frame]}
  | .reclaim => some {s with available := s.available + 1, done := s.done - 1}

end System

/-! ### Seen as `InFlight` -/

/-- The clones of a batch count as queued as soon as all are made. -/
def inFlight (calls : Nat) (s : State) : InFlight.State :=
  if s.clones.length = batchSize then
    ⟨s.stream, s.mem, calls, s.queue ++ s.clones.drop s.first, s.wire, s.batch + 1, 0⟩
  else ⟨s.stream, s.mem, calls, s.queue, s.wire, s.batch, s.packet⟩

/-- What a step is there: the last clone sends the batch, and a call of the port is no step. -/
def seen (s : State) : Act → Option InFlight.Act
  | .modify => some .modify
  | .clone => if s.clones.length + 1 = batchSize then some (.send batchSize) else none
  | .txBurst _ => none
  | .transmit => some .transmit
  | .reclaim => none

/-- What the step is there meets `Q`. -/
def Meets (Q : InFlight.State → InFlight.Act → Prop) (s : State) (a : Act) : Prop :=
  ∀ b ∈ seen s a, ∀ calls, Q (inFlight calls s) b

/-- The runs whose steps all meet `Q`. -/
def transitions (c : Config) (state : ConnectionState) (pool : Mempool) (sizes : Sizes)
    (sim : MemorySim c) (Q : InFlight.State → InFlight.Act → Prop) : Transitions State where
  start s := start c state pool sizes = some s
  next s s' := ∃ a, Enabled sizes sim s a ∧ Meets Q s a ∧ act c sim s a = some s'

/-! ### Steps -/

/-- What the variables of `send`, the pool and the ring say about each other. -/
structure Books (sizes : Sizes) (sim : MemorySim c) (s : State) : Prop where
  /-- A buffer is in the pool, a packet's, a clone's that no call took yet, or the port's. -/
  mbufs : s.available + batchSize + (s.clones.length - s.first) + s.queue.length + s.done = sizes.mbufs
  ring : s.queue.length + s.done ≤ sizes.nbTxd
  batch_le : s.batch ≤ sim.entryCount / batchSize
  packet_le : s.packet ≤ batchSize
  turn : s.packet ≠ 0 → s.batch < sim.entryCount / batchSize
  filling : s.packet < batchSize → s.clones = []
  length_le : s.clones.length ≤ batchSize
  cloning : s.clones.length < batchSize → s.first = 0
  /-- The array holds the clones of the first packets as they are now. -/
  made : (List.range s.clones.length).mapM (clonePacket s.stream s.mem) = some s.clones
  left : s.clones.length = batchSize → s.first + s.packetsLeft.toNat = batchSize ∧ s.packetsLeft ≠ 0

/-- What is still to do: to fill, clone and hand over each packet of each batch, to read each
clone and to give it back. A packet handed over has its last two parts counted in the port's. -/
def work {c : Config} (sim : MemorySim c) (s : State) : Nat :=
  5 * batchSize * (sim.entryCount / batchSize - s.batch) + 2 * s.queue.length + s.done -
    (s.packet + s.clones.length + 3 * s.first)

/-- How much of it a step does. -/
def amount : Act → Nat
  | .txBurst sent => sent.toNat
  | _ => 1

section Steps
variable {c : Config} {port : Port} {sizes : Sizes} {sim : MemorySim c} {s : State}

/-- The batch in hand is no more than what is left. -/
theorem Books.spent_le (h : Books sizes sim s) :
    s.packet + s.clones.length + 3 * s.first ≤ 5 * batchSize * (sim.entryCount / batchSize - s.batch) := by
  have hlength := h.length_le
  have hpacket := h.packet_le
  have hsize : batchSize = 32 := rfl
  rw [show 5 * batchSize = 160 from rfl]
  have hfirst : s.first ≤ batchSize := by
    rcases Nat.lt_or_eq_of_le hlength with hshort | hfull
    · exact (h.cloning hshort).le.trans (Nat.zero_le _)
    · have := (h.left hfull).1
      omega
  by_cases hidle : s.packet = 0
  · have hempty := h.filling (by omega)
    have hstart := h.cloning (by rw [hempty]; decide)
    simp only [hidle, hempty, hstart, List.length_nil]
    omega
  · have hbatch := h.turn hidle
    omega

/-- How a step is done, what it keeps and what it is seen as. -/
structure Done (port : Port) (sizes : Sizes) (sim : MemorySim c) (s : State) (a : Act) (s' : State) : Prop where
  act_eq : act c sim s a = some s'
  books : Books sizes sim s'
  work_eq : work sim s' + amount a = work sim s
  step : ∀ calls, match seen s a with
    | none => inFlight calls s' = inFlight calls s
    | some b => ∃ calls', InFlight.step c port sim (inFlight calls s) b = some (inFlight calls' s')

/-- `send` hands over the clones that were made. -/
theorem exists_send {stream : Stream} {mem : Mem} {clones : List Clone} (hport : port.Progresses)
    (h : Crafted c stream mem) (hcount : stream.packetCount = batchSize)
    (hclones : cloneAll stream mem = some clones) (calls : Nat) :
    ∃ calls', send port batchSize calls stream mem = some (clones, calls') := by
  have hsmall : stream.packetCount < 65536 := by rw [hcount]; decide
  obtain ⟨taken, calls', hsend⟩ := send_ends hport h (by rw [hcount]; decide) hsmall hcount.le calls
  refine ⟨calls', hsend.trans ?_⟩
  obtain ⟨all, hall, hdirect, -⟩ := cloneAll_spec h
  obtain rfl := Option.some.inj (hclones.symm.trans hall)
  have hlen : clones.length = stream.packetCount := by
    rw [← List.length_map (f := Clone.direct), hdirect, List.length_range]
  simp only [send, hclones, Option.bind_eq_bind, Option.bind_some, Option.bind_eq_some_iff,
    Option.some.injEq, Prod.mk.injEq] at hsend
  obtain ⟨t, hloop, bursts, hbursts, hflat, -⟩ := hsend
  obtain ⟨bursts', hmap, hflat'⟩ :=
    sendLoop_taken (hlen ▸ hsmall) (sending_start hlen hsmall calls) hloop
  obtain rfl := Option.some.inj (hbursts.symm.trans hmap)
  rw [← hflat, hflat']

theorem modify_done (h : Books sizes sim s) (hcrafted : Crafted c s.stream s.mem)
    (hcount : s.stream.packetCount = batchSize) (ha : Enabled sizes sim s .modify) :
    ∃ s', Done port sizes sim s .modify s' := by
  obtain ⟨hbatch, hpacket⟩ := ha
  have hempty := h.filling hpacket
  have hshort : s.clones.length < batchSize := by rw [hempty]; decide
  have hlt : batchSize * s.batch + s.packet < sim.rows.length := by
    have := batch_le hbatch
    omega
  obtain ⟨mem, -, -, hmodify, -⟩ := modify_carries hcrafted (hcount ▸ hpacket)
    sim.rows[batchSize * s.batch + s.packet]
  have hrow : sim.row (index s.batch s.packet) = some sim.rows[batchSize * s.batch + s.packet] := by
    rw [index_eq hbatch hpacket, sim.row_eq, List.getElem?_eq_getElem hlt]
  refine ⟨{s with mem := mem, packet := s.packet + 1}, ⟨?_, ?_, ?_, fun calls => ⟨calls, ?_⟩⟩⟩
  · simp only [act, hrow, hmodify, Option.bind_eq_bind, Option.bind_some]
  · exact ⟨h.mbufs, h.ring, h.batch_le, hpacket, fun _ => hbatch, fun _ => hempty, h.length_le,
      h.cloning, by simp only [hempty]; rfl, fun hfull => absurd hfull hshort.ne⟩
  · have hfirst := h.cloning hshort
    simp only [work, amount, hempty, hfirst, List.length_nil, show 5 * batchSize = 160 from rfl]
    have hsize : batchSize = 32 := rfl
    omega
  · simp only [inFlight, if_neg hshort.ne, InFlight.step, if_pos (And.intro hbatch hpacket), hrow, hmodify,
      Option.bind_eq_bind, Option.bind_some]

theorem clone_done (hport : port.Progresses) (hsizes : 2 * batchSize + sizes.nbTxd ≤ sizes.mbufs)
    (h : Books sizes sim s) (hcrafted : Crafted c s.stream s.mem)
    (hcount : s.stream.packetCount = batchSize) (ha : Enabled sizes sim s .clone) :
    ∃ s', Done port sizes sim s .clone s' := by
  obtain ⟨hbatch, hpacket, hshort⟩ := ha
  rw [hcount] at hshort
  have hmbufs := h.mbufs
  have hring := h.ring
  have hfirst := h.cloning hshort
  have hroom : s.available ≠ 0 := by omega
  obtain ⟨m, f, hm, -, hpoints⟩ := hcrafted.packet s.clones.length (hcount ▸ hshort)
  obtain ⟨cl, hclone⟩ : ∃ cl, clonePacket s.stream s.mem s.clones.length = some cl := by
    simp only [clonePacket, hpoints.mbuf, Mem.clone, hm, Option.bind_eq_bind, Option.bind_some,
      Option.some.injEq, exists_eq']
  have hlen : (s.clones ++ [cl]).length = s.clones.length + 1 := List.length_append
  have hmade : (List.range (s.clones.length + 1)).mapM (clonePacket s.stream s.mem) =
      some (s.clones ++ [cl]) := by
    rw [List.range_succ, List.mapM_append, h.made, List.mapM_cons, List.mapM_nil, hclone]
    rfl
  refine ⟨{s with
    available := s.available - 1
    clones := s.clones ++ [cl]
    packetsLeft := BitVec.ofNat 64 s.stream.packetCount }, ⟨?_, ?_, ?_, fun calls => ?_⟩⟩
  · simp only [act, if_neg hroom, hclone, Option.bind_eq_bind, Option.bind_some]
  · refine ⟨?_, h.ring, h.batch_le, h.packet_le, h.turn, fun hfill => absurd hpacket hfill.ne, ?_,
      fun _ => hfirst, ?_, fun _ => ?_⟩
    · simp only [hlen]
      omega
    · simp only [hlen]
      exact hshort
    · simp only [hlen, hmade]
    · simp only [hfirst, hcount]
      decide
  · simp only [work, amount, hlen, hfirst, hpacket, show 5 * batchSize = 160 from rfl]
    have hsize : batchSize = 32 := rfl
    omega
  · by_cases hlast : s.clones.length + 1 = batchSize
    · -- with the last clone the batch is sent
      have hall : cloneAll s.stream s.mem = some (s.clones ++ [cl]) := by
        rw [← hmade, hlast, ← hcount]
        rfl
      obtain ⟨calls', hsend⟩ := exists_send hport hcrafted hcount hall calls
      simp only [seen, if_pos hlast]
      refine ⟨calls', ?_⟩
      simp only [inFlight, if_neg hshort.ne, hlen, if_pos hlast, InFlight.step,
        if_pos (And.intro hbatch hpacket), hsend, hfirst, List.drop_zero, Option.bind_eq_bind, Option.bind_some]
    · simp only [seen, if_neg hlast, inFlight, if_neg hshort.ne, hlen]

theorem txBurst_done (h : Books sizes sim s) (hcount : s.stream.packetCount = batchSize)
    {sent : BitVec 16} (ha : Enabled sizes sim s (.txBurst sent)) :
    ∃ s', Done port sizes sim s (.txBurst sent) s' := by
  obtain ⟨hbatch, hpacket, hfull, hsent, hring⟩ := ha
  rw [hcount] at hfull
  obtain ⟨hleft, -⟩ := h.left hfull
  have hmbufs := h.mbufs
  have hrequest : (s.packetsLeft.setWidth 16).toNat = s.packetsLeft.toNat := by
    rw [BitVec.toNat_setWidth]
    unfold batchSize at hleft
    omega
  have hle : sent.toNat ≤ s.packetsLeft.toNat := hrequest ▸ BitVec.le_def.mp hsent
  have hrest : (s.packetsLeft - sent.setWidth 64).toNat = s.packetsLeft.toNat - sent.toNat := by
    have hwide : (sent.setWidth 64).toNat = sent.toNat := by
      rw [BitVec.toNat_setWidth]
      omega
    rw [BitVec.toNat_sub_of_le (BitVec.le_def.mpr (by rwa [hwide])), hwide]
  have htaken : TxBurst.taken s.clones ⟨s.first, s.packetsLeft.setWidth 16, sent⟩ =
      some (Bytes.slice s.clones s.first sent.toNat) := by
    rw [TxBurst.taken, if_pos (by dsimp only; omega)]
  have hlen : (Bytes.slice s.clones s.first sent.toNat).length = sent.toNat :=
    Bytes.length_slice (by omega)
  have hdrop : s.clones.drop s.first =
      Bytes.slice s.clones s.first sent.toNat ++ s.clones.drop (s.first + sent.toNat) := by
    rw [← List.drop_drop, Bytes.slice, List.take_append_drop]
  by_cases hdone : s.packetsLeft - sent.setWidth 64 = 0
  · -- the batch is handed over
    have hall : s.first + sent.toNat = s.clones.length := by
      have hzero : _ = (0#64).toNat := congrArg BitVec.toNat hdone
      rw [hrest, BitVec.toNat_zero] at hzero
      omega
    rw [hall, List.drop_length, List.append_nil] at hdrop
    refine ⟨{s with
      queue := s.queue ++ Bytes.slice s.clones s.first sent.toNat
      packetsLeft := s.packetsLeft - sent.setWidth 64
      clones := []
      first := 0
      batch := s.batch + 1
      packet := 0 }, ⟨?_, ?_, ?_, fun calls => ?_⟩⟩
    · simp only [act, htaken, hdone, ne_eq, not_true, if_false, Option.bind_eq_bind, Option.bind_some]
    · refine ⟨?_, ?_, hbatch, Nat.zero_le _, fun hturn => absurd rfl hturn, fun _ => rfl, Nat.zero_le _,
        fun _ => rfl, rfl, fun hempty => absurd hempty.symm (show batchSize ≠ 0 by decide)⟩
      · simp only [List.length_append, List.length_nil, hlen]
        omega
      · simp only [List.length_append, hlen]
        omega
    · simp only [work, amount, hpacket, List.length_append, List.length_nil, hlen,
        show 5 * batchSize = 160 from rfl]
      have hsize : batchSize = 32 := rfl
      omega
    · simp only [seen, inFlight, hfull, if_true, hdrop, List.length_nil,
        if_neg (show (0 : Nat) ≠ batchSize by decide)]
  · refine ⟨{s with
      queue := s.queue ++ Bytes.slice s.clones s.first sent.toNat
      packetsLeft := s.packetsLeft - sent.setWidth 64
      first := s.first + sent.toNat }, ⟨?_, ?_, ?_, fun calls => ?_⟩⟩
    · simp only [act, htaken, ne_eq, hdone, not_false_eq_true, if_true, Option.bind_eq_bind, Option.bind_some]
    · refine ⟨?_, ?_, h.batch_le, h.packet_le, h.turn, h.filling, h.length_le, ?_, h.made,
        fun _ => ⟨?_, hdone⟩⟩
      · simp only [List.length_append, hlen]
        omega
      · simp only [List.length_append, hlen]
        omega
      · exact fun hshort => absurd hfull hshort.ne
      · simp only [hrest]
        omega
    · simp only [work, amount, hpacket, List.length_append, hlen, show 5 * batchSize = 160 from rfl]
      have hsize : batchSize = 32 := rfl
      omega
    · simp only [seen, inFlight, hfull, if_true, hdrop, List.append_assoc]

theorem transmit_done (h : Books sizes sim s) (hinv : ∀ cl ∈ s.queue, Reference c s.stream cl)
    (hcrafted : Crafted c s.stream s.mem) (ha : Enabled sizes sim s .transmit) :
    ∃ s', Done port sizes sim s .transmit s' := by
  cases hqueue : s.queue with
  | nil => exact absurd hqueue ha
  | cons cl rest =>
    obtain ⟨frame, hread, -⟩ := (hinv cl (hqueue ▸ List.mem_cons_self ..)).read hcrafted
    have hlen : s.queue.length = rest.length + 1 := by rw [hqueue, List.length_cons]
    refine ⟨{s with queue := rest, done := s.done + 1, wire := s.wire ++ [frame]},
      ⟨?_, ?_, ?_, fun calls => ⟨calls, ?_⟩⟩⟩
    · simp only [act, hqueue, hread, Option.bind_eq_bind, Option.bind_some]
    · have hmbufs := h.mbufs
      have hring := h.ring
      exact ⟨by dsimp only; omega, by dsimp only; omega, h.batch_le, h.packet_le, h.turn, h.filling,
        h.length_le, h.cloning, h.made, h.left⟩
    · have hspent := h.spent_le
      simp only [work, amount, hlen]
      omega
    · by_cases hfull : s.clones.length = batchSize
      · simp only [inFlight, if_pos hfull, InFlight.step, hqueue, hread, List.cons_append, Option.bind_eq_bind,
          Option.bind_some]
      · simp only [inFlight, if_neg hfull, InFlight.step, hqueue, hread, Option.bind_eq_bind, Option.bind_some]

theorem reclaim_done (h : Books sizes sim s) (ha : Enabled sizes sim s .reclaim) :
    ∃ s', Done port sizes sim s .reclaim s' := by
  have hdone : s.done ≠ 0 := ha
  have hspent := h.spent_le
  have hmbufs := h.mbufs
  have hring := h.ring
  exact ⟨{s with available := s.available + 1, done := s.done - 1}, rfl,
    ⟨by dsimp only; omega, by dsimp only; omega, h.batch_le, h.packet_le, h.turn, h.filling, h.length_le,
      h.cloning, h.made, h.left⟩, by simp only [work, amount]; omega, fun _ => rfl⟩

/-- What `InFlight` says about the packets, it says about these. -/
theorem inFlight_inv {calls : Nat} (h : InFlight.Inv sim (inFlight calls s)) :
    Crafted c s.stream s.mem ∧ s.stream.packetCount = batchSize ∧
      ∀ cl ∈ s.queue, Reference c s.stream cl := by
  unfold inFlight at h
  split at h
  · exact ⟨h.crafted, h.packetCount, fun cl hcl => h.queued cl (List.mem_append_left _ hcl)⟩
  · exact ⟨h.crafted, h.packetCount, h.queued⟩

theorem step_done (hport : port.Progresses) (hsizes : 2 * batchSize + sizes.nbTxd ≤ sizes.mbufs)
    (h : Books sizes sim s) {calls : Nat} (hinv : InFlight.Inv sim (inFlight calls s)) {a : Act}
    (ha : Enabled sizes sim s a) : ∃ s', Done port sizes sim s a s' := by
  obtain ⟨hcrafted, hcount, hqueued⟩ := inFlight_inv hinv
  cases a with
  | modify => exact modify_done h hcrafted hcount ha
  | clone => exact clone_done hport hsizes h hcrafted hcount ha
  | txBurst sent => exact txBurst_done h hcount ha
  | transmit => exact transmit_done h hqueued hcrafted ha
  | reclaim => exact reclaim_done h ha

end Steps

/-! ### Runs -/

section Runs
variable {c : Config} {port : Port} {state : ConnectionState} {pool : Mempool} {sizes : Sizes}
variable {sim : MemorySim c} {Q : InFlight.State → InFlight.Act → Prop} {s s' : State}

theorem start_books (hsizes : 2 * batchSize + sizes.nbTxd ≤ sizes.mbufs)
    (h : start c state pool sizes = some s) :
    Books sizes sim s ∧ InFlight.start c state pool = some (inFlight 0 s) := by
  obtain ⟨stream, mem, hcreate, -⟩ := create_spec (c := c) state pool batchSize
  rw [start, if_neg (by omega), hcreate] at h
  obtain rfl := Option.some.inj h
  refine ⟨⟨?_, Nat.zero_le _, Nat.zero_le _, Nat.zero_le _, fun hturn => absurd rfl hturn, fun _ => rfl,
    Nat.zero_le _, fun _ => rfl, rfl, fun hempty => absurd hempty.symm (show batchSize ≠ 0 by decide)⟩,
    ?_⟩
  · simp only [List.length_nil]
    omega
  · rw [InFlight.start, hcreate]
    rfl

/-- Each state keeps its books, and is seen as one that `InFlight` reaches. -/
theorem reached_books (hc : c.unpackedBits = c.valueBits) (hport : port.Progresses)
    (hsizes : 2 * batchSize + sizes.nbTxd ≤ sizes.mbufs)
    (hs : (transitions c state pool sizes sim Q).Reached s) :
    Books sizes sim s ∧ ∃ calls, InFlight.Reached c port state pool sim Q (inFlight calls s) := by
  refine hs.invariant (I := fun s => Books sizes sim s ∧
    ∃ calls, InFlight.Reached c port state pool sim Q (inFlight calls s)) (fun s hstart => ?_) ?_
  · obtain ⟨hbooks, hstart⟩ := start_books hsizes hstart
    exact ⟨hbooks, 0, .start hstart⟩
  · rintro s s' - ⟨hbooks, calls, hold⟩ ⟨a, ha, hmeets, hact⟩
    obtain ⟨t, hdone⟩ := step_done hport hsizes hbooks (InFlight.reached_inv hc hold) ha
    obtain rfl := Option.some.inj (hact.symm.trans hdone.act_eq)
    refine ⟨hdone.books, ?_⟩
    have hstep := hdone.step calls
    cases hseen : seen s a with
    | none =>
      rw [hseen] at hstep
      exact ⟨calls, hstep ▸ hold⟩
    | some b =>
      rw [hseen] at hstep
      obtain ⟨calls', hstep⟩ := hstep
      exact ⟨calls', hold.step (hmeets b hseen calls) hstep⟩

/-- **The bursts refine the batch sent at one step**, whatever its steps have to meet. -/
theorem bursts_refine (hc : c.unpackedBits = c.valueBits) (hport : port.Progresses)
    (hsizes : 2 * batchSize + sizes.nbTxd ≤ sizes.mbufs)
    (hs : (transitions c state pool sizes sim Q).Reached s) :
    ∃ calls, InFlight.Reached c port state pool sim Q (inFlight calls s) :=
  (reached_books hc hport hsizes hs).2

theorem reached_done (hc : c.unpackedBits = c.valueBits)
    (hsizes : 2 * batchSize + sizes.nbTxd ≤ sizes.mbufs)
    (hs : (transitions c state pool sizes sim Q).Reached s) {a : Act} (ha : Enabled sizes sim s a) :
    ∃ s', Done wholePort sizes sim s a s' := by
  obtain ⟨hbooks, calls, hold⟩ := reached_books hc wholePort_progresses hsizes hs
  exact step_done wholePort_progresses hsizes hbooks (InFlight.reached_inv hc hold) ha

/-- **No step fails**: every clone asked for is made, and nothing outside the array is handed
over. No step loses a buffer, and each does its part of the work. -/
theorem bursts_run (hc : c.unpackedBits = c.valueBits)
    (hsizes : 2 * batchSize + sizes.nbTxd ≤ sizes.mbufs)
    (hs : (transitions c state pool sizes sim Q).Reached s) {a : Act} (ha : Enabled sizes sim s a) :
    ∃ s', act c sim s a = some s' ∧ work sim s' + amount a = work sim s ∧
      s'.available + batchSize + (s'.clones.length - s'.first) + s'.queue.length + s'.done = sizes.mbufs := by
  obtain ⟨s', hdone⟩ := reached_done hc hsizes hs ha
  exact ⟨s', hdone.act_eq, hdone.work_eq, hdone.books.mbufs⟩

/-! ### The end of a run -/

/-- A step that is not a call of which the port takes nothing. -/
def Productive (sizes : Sizes) (sim : MemorySim c) (Q : InFlight.State → InFlight.Act → Prop)
    (s s' : State) : Prop :=
  ∃ a, amount a ≠ 0 ∧ Enabled sizes sim s a ∧ Meets Q s a ∧ act c sim s a = some s'

theorem Productive.next (h : Productive sizes sim Q s s') :
    (transitions c state pool sizes sim Q).next s s' := by
  obtain ⟨a, -, ha⟩ := h
  exact ⟨a, ha⟩

/-- There are no more of these than there is work. -/
theorem acc_productive (hc : c.unpackedBits = c.valueBits)
    (hsizes : 2 * batchSize + sizes.nbTxd ≤ sizes.mbufs)
    (hs : (transitions c state pool sizes sim Q).Reached s) :
    Acc (fun s' s => Productive sizes sim Q s s') s := by
  refine hs.acc (work sim) fun s s' hs hstep => ⟨hs.next hstep.next, ?_⟩
  obtain ⟨a, hsome, ha, -, hact⟩ := hstep
  obtain ⟨t, hdone⟩ := reached_done hc hsizes hs ha
  obtain rfl := Option.some.inj (hact.symm.trans hdone.act_eq)
  have hwork := hdone.work_eq
  omega

/-- What a run comes to. -/
structure Ended (sizes : Sizes) (sim : MemorySim c) (s : State) : Prop where
  batch : s.batch = sim.entryCount / batchSize
  queue : s.queue = []
  clones : s.clones = []
  available : s.available + batchSize = sizes.mbufs

/-- As long as the port reads before the worker writes, there is always something to do. -/
theorem productive_or_ended (hc : c.unpackedBits = c.valueBits)
    (hsizes : 2 * batchSize + sizes.nbTxd ≤ sizes.mbufs) (hring : sizes.nbTxd ≠ 0)
    (hs : (transitions c state pool sizes sim InFlight.Clear).Reached s) :
    (∃ s', Productive sizes sim InFlight.Clear s s') ∨ Ended sizes sim s := by
  obtain ⟨h, -⟩ := reached_books hc wholePort_progresses hsizes hs
  have hdo : ∀ a, amount a ≠ 0 → Enabled sizes sim s a → Meets InFlight.Clear s a →
      (∃ s', Productive sizes sim InFlight.Clear s s') ∨ Ended sizes sim s := fun a hsome ha hmeets => by
    obtain ⟨s', hdone⟩ := reached_done hc hsizes hs ha
    exact .inl ⟨s', a, hsome, ha, hmeets, hdone.act_eq⟩
  have hmbufs := h.mbufs
  by_cases hqueue : s.queue ≠ []
  · exact hdo .transmit one_ne_zero hqueue fun b hb _ => by cases hb; trivial
  rw [not_not] at hqueue
  by_cases hdone : s.done ≠ 0
  · exact hdo .reclaim one_ne_zero hdone fun b hb => by cases hb
  rw [not_not] at hdone
  by_cases hbatch : s.batch < sim.entryCount / batchSize
  · by_cases hpacket : s.packet < batchSize
    · have hempty := h.filling hpacket
      refine hdo .modify one_ne_zero ⟨hbatch, hpacket⟩ fun b hb calls => ?_
      cases hb
      intro cl hcl
      have hnone : (inFlight calls s).queue = [] := by
        simp only [inFlight, hempty, hqueue, if_neg (show ([] : List Clone).length ≠ batchSize by decide)]
      exact absurd (hnone ▸ hcl) List.not_mem_nil
    · have hpacket : s.packet = batchSize := Nat.le_antisymm h.packet_le (Nat.le_of_not_lt hpacket)
      obtain ⟨calls, hold⟩ := (reached_books hc wholePort_progresses hsizes hs).2
      obtain ⟨-, hcount, -⟩ := inFlight_inv (InFlight.reached_inv hc hold)
      rcases Nat.lt_or_eq_of_le h.length_le with hshort | hfull
      · refine hdo .clone one_ne_zero ⟨hbatch, hpacket, hcount ▸ hshort⟩ fun b hb _ => ?_
        have hsend : b = .send batchSize := by
          rw [seen] at hb
          split at hb <;> cases hb
          rfl
        rw [hsend]
        trivial
      · obtain ⟨hleft, hmore⟩ := h.left hfull
        have hsize : batchSize = 32 := rfl
        have hsome : s.packetsLeft.toNat ≠ 0 := fun h0 => hmore (BitVec.eq_of_toNat_eq h0)
        refine hdo (.txBurst 1) one_ne_zero ⟨hbatch, hpacket, hfull.trans hcount.symm, ?_, ?_⟩
          fun b hb => by cases hb
        · rw [BitVec.le_def, BitVec.toNat_setWidth, Nat.mod_eq_of_lt (by omega)]
          exact Nat.one_le_iff_ne_zero.mpr hsome
        · rw [hqueue, hdone]
          exact Nat.one_le_iff_ne_zero.mpr hring
  · have hidle : s.packet = 0 := by
      by_contra hturn
      exact hbatch (h.turn hturn)
    have hempty := h.filling (by rw [hidle]; decide)
    refine .inr ⟨Nat.le_antisymm h.batch_le (Nat.le_of_not_lt hbatch), hqueue, hempty, ?_⟩
    simpa [hempty, hqueue, hdone] using hmbufs

theorem ended_wire (hc : c.unpackedBits = c.valueBits)
    (hsizes : 2 * batchSize + sizes.nbTxd ≤ sizes.mbufs)
    (hs : (transitions c state pool sizes sim InFlight.Clear).Reached s) (hend : Ended sizes sim s) :
    s.wire.mapM (unpackPayload c) = some (sim.rows.take (batchSize * (sim.entryCount / batchSize))) := by
  obtain ⟨hbatch, hqueue, hclones, -⟩ := hend
  obtain ⟨-, calls, hold⟩ := reached_books hc wholePort_progresses hsizes hs
  have hview : inFlight calls s = ⟨s.stream, s.mem, calls, [], s.wire, s.batch, s.packet⟩ := by
    simp only [inFlight, hclones, hqueue, if_neg (show ([] : List Clone).length ≠ batchSize by decide)]
  have hdelivered := InFlight.clear_delivered hc hold
  rw [← InFlight.wire_of_queue_eq_nil (by rw [hview]), hview, hbatch] at hdelivered
  exact mapM_eq_some_iff.mpr hdelivered

/-- **Every run ends with the dataset on the wire.** If the port reads each packet before it is
rewritten, the steps come to an end however the port divides the requests and whenever it
gives buffers back. Then the rows of the whole batches are on the wire in order, and the
pool has all buffers but the packets'. -/
theorem bursts_end (hc : c.unpackedBits = c.valueBits)
    (hsizes : 2 * batchSize + sizes.nbTxd ≤ sizes.mbufs) (hring : sizes.nbTxd ≠ 0)
    (hs : (transitions c state pool sizes sim InFlight.Clear).Reached s) :
    Acc (fun s' s => Productive sizes sim InFlight.Clear s s') s ∧
      ∀ s', Relation.ReflTransGen (Productive sizes sim InFlight.Clear) s s' →
        (∀ t, ¬Productive sizes sim InFlight.Clear s' t) →
        s'.wire.mapM (unpackPayload c) =
            some (sim.rows.take (batchSize * (sim.entryCount / batchSize))) ∧
          s'.available + batchSize = sizes.mbufs := by
  refine ⟨acc_productive hc hsizes hs, fun s' hrun hstuck => ?_⟩
  have hs' := hs.steps (fun _ _ h => h.next) hrun
  have hend := (productive_or_ended hc hsizes hring hs').resolve_left fun ⟨t, ht⟩ => hstuck t ht
  exact ⟨ended_wire hc hsizes hs' hend, hend.available⟩

end Runs

/-! ### Two batches, with the pool and the ring as they are shipped -/

/-- In the first batch, with so many packets filled, so many clones made and none handed over. -/
structure AtFirst (filled made : Nat) (s : State) : Prop where
  batch : s.batch = 0
  packet : s.packet = filled
  clones : s.clones.length = made
  first : s.first = 0
  queue : s.queue = []
  done : s.done = 0

theorem exists_start (n : Nat) (h : n ≤ memoryEntryCount) (Q : InFlight.State → InFlight.Act → Prop) :
    ∃ s, start shipped zeroState zeroPool .shipped = some s ∧ AtFirst 0 0 s ∧
      (transitions shipped zeroState zeroPool .shipped (countingSim n h) Q).Reached s := by
  obtain ⟨stream, mem, hcreate, -⟩ := create_spec (c := shipped) zeroState zeroPool batchSize
  have hstart : start shipped zeroState zeroPool .shipped =
      some ⟨stream, mem, Sizes.shipped.mbufs - batchSize, [], 0, 0, [], 0, [], 0, 0⟩ := by
    rw [start, if_neg (by decide), hcreate]
    rfl
  exact ⟨_, hstart, ⟨rfl, rfl, rfl, rfl, rfl, rfl⟩, .start hstart⟩

/-- The runs of two batches, whatever is rewritten when. -/
abbrev twoBatches : Transitions State :=
  transitions shipped zeroState zeroPool .shipped (countingSim 64 (by decide)) fun _ _ => True

theorem reach_filled : ∃ s, twoBatches.Reached s ∧ AtFirst batchSize 0 s := by
  suffices h : ∀ n ≤ batchSize, ∃ s, twoBatches.Reached s ∧ AtFirst n 0 s from h batchSize le_rfl
  intro n
  induction n with
  | zero =>
    intro _
    obtain ⟨s, -, hfirst, hs⟩ := exists_start 64 (by decide) fun _ _ => True
    exact ⟨s, hs, hfirst⟩
  | succ n ih =>
    intro hn
    obtain ⟨s, hs, h⟩ := ih (Nat.le_of_succ_le hn)
    have ha : Enabled .shipped (countingSim 64 (by decide)) s .modify :=
      ⟨by rw [h.batch]; decide, by rw [h.packet]; exact hn⟩
    obtain ⟨s', hdone⟩ := reached_done rfl (by decide) hs ha
    refine ⟨s', hs.next ⟨.modify, ha, fun _ _ _ => trivial, hdone.act_eq⟩, ?_⟩
    have hact := hdone.act_eq
    simp only [act, Option.bind_eq_bind, Option.bind_eq_some_iff, Option.some.injEq] at hact
    obtain ⟨_, _, mem, _, rfl⟩ := hact
    exact ⟨h.batch, congrArg (· + 1) h.packet, h.clones, h.first, h.queue, h.done⟩

theorem reach_cloned : ∃ s, twoBatches.Reached s ∧ AtFirst batchSize batchSize s := by
  suffices h : ∀ n ≤ batchSize, ∃ s, twoBatches.Reached s ∧ AtFirst batchSize n s from h batchSize le_rfl
  intro n
  induction n with
  | zero => exact fun _ => reach_filled
  | succ n ih =>
    intro hn
    obtain ⟨s, hs, h⟩ := ih (Nat.le_of_succ_le hn)
    obtain ⟨-, calls, hold⟩ := reached_books rfl wholePort_progresses (by decide) hs
    obtain ⟨-, hcount, -⟩ := inFlight_inv (InFlight.reached_inv rfl hold)
    have ha : Enabled .shipped (countingSim 64 (by decide)) s .clone :=
      ⟨by rw [h.batch]; decide, h.packet, by rw [h.clones, hcount]; exact hn⟩
    obtain ⟨s', hdone⟩ := reached_done rfl (by decide) hs ha
    refine ⟨s', hs.next ⟨.clone, ha, fun _ _ _ => trivial, hdone.act_eq⟩, ?_⟩
    have hact := hdone.act_eq
    rw [act] at hact
    split at hact
    · cases hact
    · obtain ⟨cl, _, hs'⟩ := Option.bind_eq_some_iff.mp hact
      obtain rfl := Option.some.inj hs'
      exact ⟨h.batch, h.packet, by rw [List.length_append, h.clones]; rfl, h.first, h.queue, h.done⟩

/-- Of the 32 clones of the first batch the port takes 5. -/
theorem bursts_run_five : ∃ s s', twoBatches.Reached s ∧ s.packet = batchSize ∧ s.clones.length = batchSize ∧
    act shipped (countingSim 64 (by decide)) s (.txBurst 5) = some s' ∧
    work (countingSim 64 (by decide)) s' + 5 = work (countingSim 64 (by decide)) s ∧
    s'.available + batchSize + (s'.clones.length - s'.first) + s'.queue.length + s'.done = 8192 := by
  obtain ⟨s, hs, h⟩ := reach_cloned
  obtain ⟨hbooks, calls, hold⟩ := reached_books rfl wholePort_progresses (by decide) hs
  obtain ⟨-, hcount, -⟩ := inFlight_inv (InFlight.reached_inv rfl hold)
  have hleft : s.packetsLeft.toNat = batchSize := by
    have hall := (hbooks.left h.clones).1
    rwa [h.first, Nat.zero_add] at hall
  have ha : Enabled .shipped (countingSim 64 (by decide)) s (.txBurst 5) := by
    refine ⟨by rw [h.batch]; decide, h.packet, h.clones.trans hcount.symm, ?_, ?_⟩
    · rw [BitVec.le_def, BitVec.toNat_setWidth, hleft]
      decide
    · rw [h.queue, h.done]
      decide
  obtain ⟨s', hact, hwork, hmbufs⟩ := bursts_run rfl (by decide) hs ha
  exact ⟨s, s', hs, h.packet, h.clones, hact, hwork, hmbufs⟩

theorem bursts_end_two : ∃ s s', start shipped zeroState zeroPool .shipped = some s ∧
    Relation.ReflTransGen (Productive .shipped (countingSim 64 (by decide)) InFlight.Clear) s s' ∧
    s'.wire.mapM (unpackPayload shipped) = some (countingSim 64 (by decide)).rows := by
  obtain ⟨s, hstart, -, hs⟩ := exists_start 64 (by decide) InFlight.Clear
  obtain ⟨hacc, hall⟩ := bursts_end rfl (by decide) (by decide) hs
  obtain ⟨s', hrun, hstuck⟩ := Transitions.exists_end hacc
  refine ⟨s, s', hstart, hrun, (hall s' hrun hstuck).1.trans ?_⟩
  rw [List.take_of_length_le (by rw [MemorySim.length_rows]; decide)]

theorem bursts_refine_two : ∃ s calls,
    s.wire.mapM (unpackPayload shipped) = some (countingSim 64 (by decide)).rows ∧
    InFlight.Reached shipped wholePort zeroState zeroPool (countingSim 64 (by decide)) InFlight.Clear
      (inFlight calls s) := by
  obtain ⟨s, -, -, hs⟩ := exists_start 64 (by decide) InFlight.Clear
  obtain ⟨s', hrun, hstuck⟩ := Transitions.exists_end (acc_productive rfl (by decide) hs)
  have hs' := hs.steps (fun _ _ h => h.next) hrun
  have hend := (productive_or_ended rfl (by decide) (by decide) hs').resolve_left fun ⟨t, ht⟩ => hstuck t ht
  obtain ⟨calls, hold⟩ := bursts_refine rfl wholePort_progresses (by decide) hs'
  refine ⟨s', calls, (ended_wire rfl (by decide) hs' hend).trans ?_, hold⟩
  rw [List.take_of_length_le (by rw [MemorySim.length_rows]; decide)]

end Cheetah.Host.SendBursts
