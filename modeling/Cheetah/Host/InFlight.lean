import Cheetah.Host.ControlFlow
import Cheetah.Lib.SharedQueue

/-! The worker and a port that reads packets later.

`rte_eth_tx_burst` queues clones; a clone shares its packet's bytes, and the port
reads them at a step of its own. The worker meanwhile rewrites the packets for the
next batch. In the abstract this is `Lib.SharedQueue`: `view` shows a state as one,
with the packets as cells. A packet is rewritten at one step here; `FieldStores` takes
its four stores apart. -/
namespace Cheetah.Host.InFlight
open Lib Lib.Bytes FastPacketStream ControlFlow

/-- What the worker and the port share, and where the worker's loops stand. -/
structure State where
  stream : Stream
  mem : Mem
  calls : Nat
  /-- Taken by the port and not read yet. -/
  queue : List Clone
  /-- The bytes of the frames on the wire. -/
  wire : List (List Byte)
  batch : Nat
  packet : Nat

inductive Act where
  /-- `cheetah_fast_packet_stream_modify` of the next packet of the batch. -/
  | modify
  /-- `cheetah_fast_packet_stream_send`, whose loop turns at most so often. -/
  | send (fuel : Nat)
  /-- The port reads the oldest clone. -/
  | transmit
  deriving DecidableEq

section System
variable (c : Config) (port : Port) (state : ConnectionState) (pool : Mempool) (sim : MemorySim c)

/-- The worker before its first batch. -/
def start : Option State := do
  let (stream, mem) ← create c state pool batchSize
  some ⟨stream, mem, 0, [], [], 0, 0⟩

def step (s : State) : Act → Option State
  | .modify =>
    if s.batch < sim.entryCount / batchSize ∧ s.packet < batchSize then do
      let mem ← modify c s.stream s.packet (← sim.row (index s.batch s.packet)) s.mem
      some {s with mem := mem, packet := s.packet + 1}
    else none
  | .send fuel =>
    if s.batch < sim.entryCount / batchSize ∧ s.packet = batchSize then do
      let (clones, calls) ← send port fuel s.calls s.stream s.mem
      some {s with calls := calls, queue := s.queue ++ clones, batch := s.batch + 1, packet := 0}
    else none
  | .transmit =>
    match s.queue with
    | [] => none
    | cl :: rest => do
      let frame ← s.mem.read cl
      some {s with queue := rest, wire := s.wire ++ [frame]}

/-- The states of the runs whose steps all meet `Q`. -/
inductive Reached (Q : State → Act → Prop) : State → Prop
  | start {s : State} (h : start c state pool = some s) : Reached Q s
  | step {s s' : State} {a : Act} (h : Reached Q s) (hQ : Q s a) (hs : step c port sim s a = some s') :
      Reached Q s'

end System

/-- The step rewrites no packet that a queued clone designates. -/
def Clear (s : State) : Act → Prop
  | .modify => ∀ cl ∈ s.queue, cl.direct ≠ s.packet
  | _ => True

/-- The worker has gone through the dataset and the port has read everything. -/
structure Finished {c : Config} (sim : MemorySim c) (s : State) : Prop where
  batch : s.batch = sim.entryCount / batchSize
  queue : s.queue = []

/-! ### Steps of the system, seen as a queue of references -/

section Steps
variable {c : Config} {port : Port} {sim : MemorySim c} {s s' : State}

/-- The packets are the cells, holding the row each carries now. -/
def view (c : Config) (s : State) : SharedQueue Nat (Option (Row c)) where
  cells := decoded c s.mem
  queue := s.queue.map Clone.direct
  out := s.wire.map (unpackPayload c)

theorem wire_of_queue_eq_nil (h : s.queue = []) :
    s.wire.map (unpackPayload c) = (view c s).delivered :=
  SharedQueue.out_of_queue_eq_nil (s := view c s) (by rw [view, h]; rfl)

/-- What every step keeps, whatever the order of steps. -/
structure Inv (sim : MemorySim c) (s : State) : Prop where
  crafted : Crafted c s.stream s.mem
  packetCount : s.stream.packetCount = batchSize
  current : ∀ j < s.packet, decoded c s.mem j = sim.rows[batchSize * s.batch + j]?
  queued : ∀ cl ∈ s.queue, Reference c s.stream cl

/-- Rewriting a packet writes its cell. -/
theorem modify_step (hc : c.unpackedBits = c.valueBits) (h : Inv sim s)
    (hs : step c port sim s .modify = some s') :
    Inv sim s' ∧ s'.batch = s.batch ∧
      ∃ row, view c s' = (view c s).write s.packet (some row) := by
  rw [step] at hs
  split at hs
  · rename_i hguard
    obtain ⟨hbatch, hpacket⟩ := hguard
    have hlt : batchSize * s.batch + s.packet < sim.rows.length := by
      have := batch_le hbatch
      omega
    obtain ⟨mem, hmodify, hcrafted, hnew, hold⟩ :=
      modify_spec h.crafted hc (h.packetCount ▸ hpacket) sim.rows[batchSize * s.batch + s.packet]
    rw [index_eq hbatch hpacket, sim.row_eq, List.getElem?_eq_getElem hlt] at hs
    simp only [Option.bind_eq_bind, Option.bind_some, hmodify, Option.some.injEq] at hs
    subst hs
    have hcells : decoded c mem =
        Function.update (decoded c s.mem) s.packet (some sim.rows[batchSize * s.batch + s.packet]) := by
      funext j
      by_cases hj : j = s.packet
      · rw [hj, hnew, Function.update_self]
      · rw [Function.update_of_ne hj, decoded, hold j hj, decoded]
    refine ⟨⟨hcrafted, h.packetCount, fun j hj => ?_, h.queued⟩, rfl,
      sim.rows[batchSize * s.batch + s.packet], ?_⟩
    · rw [hcells]
      rcases Nat.lt_succ_iff_lt_or_eq.mp hj with hj | rfl
      · rw [Function.update_of_ne (by omega)]
        exact h.current j hj
      · rw [Function.update_self, List.getElem?_eq_getElem hlt]
    · simp only [view, SharedQueue.write, hcells]
  · cases hs

/-- Sending pushes a reference to every cell, which holds the batch's rows. -/
theorem send_step {fuel : Nat} (h : Inv sim s) (hs : step c port sim s (.send fuel) = some s') :
    Inv sim s' ∧ s'.batch = s.batch + 1 ∧ view c s' = (view c s).push (List.range batchSize) ∧
      (List.range batchSize).map (view c s).cells =
        (slice sim.rows (batchSize * s.batch) batchSize).map some := by
  rw [step] at hs
  split at hs
  · rename_i hguard
    obtain ⟨hbatch, hpacket⟩ := hguard
    simp only [Option.bind_eq_bind, Option.bind_eq_some_iff, Option.some.injEq] at hs
    obtain ⟨⟨clones, calls⟩, hsend, rfl⟩ := hs
    obtain ⟨hdirect, href⟩ := send_clones h.crafted (by rw [h.packetCount]; decide) hsend
    rw [h.packetCount] at hdirect
    refine ⟨⟨h.crafted, h.packetCount, fun j hj => absurd hj (Nat.not_lt_zero j), ?_⟩, rfl, ?_, ?_⟩
    · exact fun cl hcl => (List.mem_append.mp hcl).elim (h.queued cl) (href cl)
    · simp only [view, SharedQueue.push, List.map_append, hdirect]
    · rw [← map_getElem?_range (batch_le hbatch)]
      exact List.map_congr_left fun j hj => h.current j (hpacket ▸ List.mem_range.mp hj)
  · cases hs

/-- The port pops. -/
theorem transmit_step (h : Inv sim s) (hs : step c port sim s .transmit = some s') :
    Inv sim s' ∧ s'.batch = s.batch ∧ view c s' = (view c s).pop := by
  rw [step] at hs
  split at hs
  · cases hs
  · rename_i cl rest hqueue
    have hcl := h.queued cl (hqueue ▸ List.mem_cons_self ..)
    obtain ⟨frame, hread, hdec⟩ := hcl.read h.crafted
    simp only [hread, Option.bind_eq_bind, Option.bind_some, Option.some.injEq] at hs
    subst hs
    refine ⟨⟨h.crafted, h.packetCount, h.current, fun x hx => ?_⟩, rfl, ?_⟩
    · exact h.queued x (hqueue ▸ List.mem_cons_of_mem cl hx)
    · simp only [view, SharedQueue.pop, hqueue, List.map_cons, List.map_append, List.map_nil, hdec]

end Steps

/-! ### Runs -/

section Runs
variable {c : Config} {port : Port} {state : ConnectionState} {pool : Mempool} {sim : MemorySim c}
variable {s : State}

theorem start_spec (c : Config) (state : ConnectionState) (pool : Mempool) (sim : MemorySim c) :
    ∃ s, start c state pool = some s ∧ Inv sim s ∧ s.queue = [] ∧ s.wire = [] ∧ s.batch = 0 ∧
      s.packet = 0 := by
  obtain ⟨stream, mem, hcreate, hcount, hcrafted⟩ := create_spec (c := c) state pool batchSize
  refine ⟨⟨stream, mem, 0, [], [], 0, 0⟩, by rw [start, hcreate]; rfl,
    ⟨hcrafted, hcount, ?_, ?_⟩, rfl, rfl, rfl, rfl⟩
  · exact fun j hj => absurd hj (Nat.not_lt_zero j)
  · exact fun cl hcl => nomatch hcl

theorem reached_inv (hc : c.unpackedBits = c.valueBits) {Q : State → Act → Prop}
    (hs : Reached c port state pool sim Q s) : Inv sim s := by
  induction hs with
  | start h =>
    obtain ⟨s, hstart, hinv, -⟩ := start_spec c state pool sim
    exact Option.some.inj (hstart.symm.trans h) ▸ hinv
  | @step s s' a _ _ hstep ih =>
    cases a with
    | modify => exact (modify_step hc ih hstep).1
    | send => exact (send_step ih hstep).1
    | transmit => exact (transmit_step ih hstep).1

/-- On a clear run, what is on the wire and what the queue would put there are the
rows of the batches sent so far. -/
theorem clear_delivered (hc : c.unpackedBits = c.valueBits)
    (hs : Reached c port state pool sim Clear s) :
    (view c s).delivered = (sim.rows.take (batchSize * s.batch)).map some := by
  induction hs with
  | start h =>
    obtain ⟨s, hstart, -, hqueue, hwire, hbatch, -⟩ := start_spec c state pool sim
    obtain rfl := Option.some.inj (hstart.symm.trans h)
    rw [← wire_of_queue_eq_nil hqueue, hwire, hbatch, Nat.mul_zero, List.take_zero]
    rfl
  | @step s s' a hr hclear hstep ih =>
    have hinv := reached_inv hc hr
    cases a with
    | modify =>
      obtain ⟨-, hbatch, row, hview⟩ := modify_step hc hinv hstep
      have hfree : s.packet ∉ (view c s).queue := fun hmem => by
        obtain ⟨cl, hcl, hdirect⟩ := List.mem_map.mp hmem
        exact hclear cl hcl hdirect
      rw [hview, SharedQueue.delivered_write hfree, ih, hbatch]
    | send =>
      obtain ⟨-, hbatch, hview, hcells⟩ := send_step hinv hstep
      rw [hview, SharedQueue.delivered_push, ih, hcells, hbatch, ← List.map_append, Nat.mul_succ,
        List.take_add]
      rfl
    | transmit =>
      obtain ⟨-, hbatch, hview⟩ := transmit_step hinv hstep
      rw [hview, SharedQueue.delivered_pop, ih, hbatch]

/-- The payloads on the wire are the first rows, and all of them when everything is sent. -/
structure WireFaithful (sim : MemorySim c) (s : State) : Prop where
  rows : s.wire.mapM (unpackPayload c) = some (sim.rows.take s.wire.length)
  finished : Finished sim s → s.wire.mapM (unpackPayload c) = some sim.rows

/-- **On a clear run the wire carries the dataset's rows in order.** -/
theorem clear_faithful {sim : MemorySim shipped} (hdvd : batchSize ∣ sim.entryCount)
    (hs : Reached shipped port state pool sim Clear s) : WireFaithful sim s := by
  have hdelivered := clear_delivered rfl hs
  have hwire : (view shipped s).out = s.wire.map (unpackPayload shipped) := rfl
  constructor
  · have hprefix := (view shipped s).out_prefix_delivered
    rw [hdelivered, hwire] at hprefix
    have hlen := hprefix.length_le
    rw [List.length_map, List.length_map, List.length_take] at hlen
    rw [mapM_eq_some_iff, List.prefix_iff_eq_take.mp hprefix, List.length_map, ← List.map_take,
      List.take_take, Nat.min_eq_left (Nat.le_trans hlen (Nat.min_le_left _ _))]
  · intro hfinished
    obtain ⟨hbatch, hqueue⟩ := hfinished
    rw [mapM_eq_some_iff, wire_of_queue_eq_nil hqueue, hdelivered, hbatch, Nat.mul_div_cancel' hdvd,
      ← sim.length_rows, List.take_length]

/-! ### States that can be reached

A batch can always be filled, a filled batch sent, and the queue emptied. -/

variable {Q : State → Act → Prop}

theorem reach_filled (hc : c.unpackedBits = c.valueBits) (hs : Reached c port state pool sim Q s)
    (hbatch : s.batch < sim.entryCount / batchSize) (hpacket : s.packet = 0)
    (hQ : ∀ t : State, t.queue = s.queue → Q t .modify) :
    ∃ s', Reached c port state pool sim Q s' ∧ s'.batch = s.batch ∧ s'.packet = batchSize ∧
      s'.queue = s.queue ∧ s'.wire = s.wire := by
  suffices h : ∀ n ≤ batchSize, ∃ s', Reached c port state pool sim Q s' ∧ s'.batch = s.batch ∧
      s'.packet = n ∧ s'.queue = s.queue ∧ s'.wire = s.wire from h batchSize le_rfl
  intro n
  induction n with
  | zero => exact fun _ => ⟨s, hs, rfl, hpacket, rfl, rfl⟩
  | succ n ih =>
    intro hn
    obtain ⟨t, ht, htb, htp, htq, htw⟩ := ih (Nat.le_of_succ_le hn)
    have hinv := reached_inv hc ht
    have hlt : batchSize * s.batch + n < sim.rows.length := by have := batch_le hbatch; omega
    obtain ⟨mem, hmodify, -⟩ := modify_spec hinv.crafted hc (i := n)
      (by rw [hinv.packetCount]; exact hn) sim.rows[batchSize * s.batch + n]
    refine ⟨{t with mem := mem, packet := t.packet + 1}, ht.step (hQ t htq) ?_, htb, ?_, htq, htw⟩
    · rw [step, if_pos ⟨htb ▸ hbatch, htp ▸ hn⟩, htb, htp, index_eq hbatch hn, sim.row_eq,
        List.getElem?_eq_getElem hlt]
      simp only [Option.bind_eq_bind, Option.bind_some, hmodify]
    · exact congrArg (· + 1) htp

theorem reach_sent (hc : c.unpackedBits = c.valueBits) (hport : port.Progresses)
    (hs : Reached c port state pool sim Q s) (hbatch : s.batch < sim.entryCount / batchSize)
    (hpacket : s.packet = batchSize) (hQ : Q s (.send batchSize)) :
    ∃ s', Reached c port state pool sim Q s' ∧ s'.packet = 0 ∧
      step c port sim s (.send batchSize) = some s' := by
  have hinv := reached_inv hc hs
  obtain ⟨clones, calls, hsend⟩ := send_ends hport hinv.crafted (by rw [hinv.packetCount]; decide)
    (by rw [hinv.packetCount]; decide) hinv.packetCount.le s.calls
  have hstep : step c port sim s (.send batchSize) =
      some {s with calls := calls, queue := s.queue ++ clones, batch := s.batch + 1, packet := 0} := by
    rw [step, if_pos ⟨hbatch, hpacket⟩]
    simp only [Option.bind_eq_bind, Option.bind_some, hsend]
  exact ⟨_, hs.step hQ hstep, rfl, hstep⟩

theorem reach_drained (hc : c.unpackedBits = c.valueBits) (hs : Reached c port state pool sim Q s)
    (hQ : ∀ t : State, Q t .transmit) :
    ∃ s', Reached c port state pool sim Q s' ∧ s'.queue = [] ∧ s'.batch = s.batch ∧
      s'.packet = s.packet ∧ s'.wire.map (unpackPayload c) = (view c s).delivered := by
  generalize hqueue : s.queue = queue
  induction queue generalizing s with
  | nil => exact ⟨s, hs, hqueue, rfl, rfl, wire_of_queue_eq_nil hqueue⟩
  | cons cl rest ih =>
    have hinv := reached_inv hc hs
    obtain ⟨frame, hread, -⟩ :=
      (hinv.queued cl (hqueue ▸ List.mem_cons_self ..)).read hinv.crafted
    have hstep : step c port sim s .transmit =
        some {s with queue := rest, wire := s.wire ++ [frame]} := by
      simp only [step, hqueue, hread, Option.bind_eq_bind, Option.bind_some]
    obtain ⟨s', hs', hempty, hbatch, hpacket, hwire⟩ := ih (hs.step (hQ s) hstep) rfl
    refine ⟨s', hs', hempty, hbatch, hpacket, ?_⟩
    rw [hwire, (transmit_step hinv hstep).2.2, SharedQueue.delivered_pop]

/-- A batch that is filled, sent and read before the next one is begun. -/
theorem reach_round (hc : c.unpackedBits = c.valueBits) (hport : port.Progresses)
    (hs : Reached c port state pool sim Clear s) (hbatch : s.batch < sim.entryCount / batchSize)
    (hpacket : s.packet = 0) (hqueue : s.queue = []) :
    ∃ s', Reached c port state pool sim Clear s' ∧ s'.batch = s.batch + 1 ∧ s'.packet = 0 ∧
      s'.queue = [] := by
  obtain ⟨s₁, hs₁, hbatch₁, hpacket₁, -⟩ := reach_filled hc hs hbatch hpacket fun t ht cl hcl => by
    rw [ht, hqueue] at hcl
    cases hcl
  obtain ⟨s₂, hs₂, hpacket₂, hsend⟩ := reach_sent hc hport hs₁ (hbatch₁ ▸ hbatch) hpacket₁ trivial
  obtain ⟨-, hbatch₂, -⟩ := send_step (reached_inv hc hs₁) hsend
  obtain ⟨s₃, hs₃, hqueue₃, hbatch₃, hpacket₃, -⟩ := reach_drained hc hs₂ fun _ => trivial
  exact ⟨s₃, hs₃, by rw [hbatch₃, hbatch₂, hbatch₁], hpacket₃.trans hpacket₂, hqueue₃⟩

/-! ### A port that waits

With two batches queued before the port reads, the second batch is sent twice. -/

theorem second_batch_twice (hc : c.unpackedBits = c.valueBits) (hport : port.Progresses)
    (state : ConnectionState) (pool : Mempool) (hsim : sim.entryCount / batchSize = 2) :
    ∃ s, Reached c port state pool sim (fun _ _ => True) s ∧ Finished sim s ∧
      s.wire.mapM (unpackPayload c) =
        some (slice sim.rows batchSize batchSize ++ slice sim.rows batchSize batchSize) := by
  obtain ⟨s₀, hstart, -, hqueue₀, hwire₀, hbatch₀, hpacket₀⟩ := start_spec c state pool sim
  have hs₀ : Reached c port state pool sim (fun _ _ => True) s₀ := .start hstart
  obtain ⟨s₁, hs₁, hbatch₁, hpacket₁, hqueue₁, hwire₁⟩ := reach_filled hc hs₀
    (by rw [hbatch₀, hsim]; decide) hpacket₀ fun _ _ => trivial
  obtain ⟨s₂, hs₂, hpacket₂, hsend₂⟩ := reach_sent hc hport hs₁
    (by rw [hbatch₁, hbatch₀, hsim]; decide) hpacket₁ trivial
  obtain ⟨-, hbatch₂, hview₂, -⟩ := send_step (reached_inv hc hs₁) hsend₂
  obtain ⟨s₃, hs₃, hbatch₃, hpacket₃, hqueue₃, hwire₃⟩ := reach_filled hc hs₂
    (by rw [hbatch₂, hbatch₁, hbatch₀, hsim]; decide) hpacket₂ fun _ _ => trivial
  obtain ⟨s₄, hs₄, -, hsend₄⟩ := reach_sent hc hport hs₃
    (by rw [hbatch₃, hbatch₂, hbatch₁, hbatch₀, hsim]; decide) hpacket₃ trivial
  obtain ⟨-, hbatch₄, hview₄, hcells⟩ := send_step (reached_inv hc hs₃) hsend₄
  obtain ⟨s₅, hs₅, hqueue₅, hbatch₅, -, hwire₅⟩ := reach_drained hc hs₄ fun _ => trivial
  have hone : s₃.batch = 1 := by omega
  -- the references of both batches are to the packets as the second batch left them
  have hqueue : (view c s₃).queue = List.range batchSize := by
    have h₁ : (view c s₁).queue = [] := by rw [view, hqueue₁, hqueue₀]; rfl
    have h₂ : (view c s₂).queue = List.range batchSize := by rw [hview₂, SharedQueue.push, h₁]; rfl
    rw [← h₂, view, view, hqueue₃]
  have hout : (view c s₃).out = [] := by
    have h₂ : (view c s₂).out = (view c s₁).out := by rw [hview₂]; rfl
    have h₁ : (view c s₁).out = [] := by rw [view, hwire₁, hwire₀]; rfl
    rw [← h₁, ← h₂, view, view, hwire₃]
  have hdelivered : (view c s₃).delivered = (slice sim.rows batchSize batchSize).map some := by
    rw [SharedQueue.delivered, hout, hqueue, hcells, hone]
    rfl
  refine ⟨s₅, hs₅, ⟨by omega, hqueue₅⟩, mapM_eq_some_iff.mpr ?_⟩
  rw [hwire₅, hview₄, SharedQueue.delivered_push, hdelivered, hcells, hone, ← List.map_append]
  rfl

end Runs

/-- 64 rows, and a port that reads the first batch before the second one is filled: the 32
packets carry two rows each, and the wire all of them. -/
theorem clear_faithful_two_batches :
    ∃ s, Reached shipped wholePort zeroState zeroPool (countingSim 64 (by decide)) Clear s ∧
      Finished (countingSim 64 (by decide)) s ∧
      s.wire.mapM (unpackPayload shipped) = some (countingSim 64 (by decide)).rows := by
  obtain ⟨s₀, hstart, -, hqueue₀, -, hbatch₀, hpacket₀⟩ :=
    start_spec shipped zeroState zeroPool (countingSim 64 (by decide))
  have hs₀ : Reached shipped wholePort zeroState zeroPool (countingSim 64 (by decide)) Clear s₀ :=
    .start hstart
  obtain ⟨s₁, hs₁, hbatch₁, hpacket₁, hqueue₁⟩ := reach_round rfl wholePort_progresses hs₀
    (by rw [hbatch₀]; decide) hpacket₀ hqueue₀
  obtain ⟨s₂, hs₂, hbatch₂, -, hqueue₂⟩ := reach_round rfl wholePort_progresses hs₁
    (by rw [hbatch₁, hbatch₀]; decide) hpacket₁ hqueue₁
  have hfinished : Finished (countingSim 64 (by decide)) s₂ :=
    ⟨by rw [hbatch₂, hbatch₁, hbatch₀]; rfl, hqueue₂⟩
  exact ⟨s₂, hs₂, hfinished, (clear_faithful (by decide) hs₂).finished hfinished⟩

/-- 64 rows, and a port that waits: rows 32 to 63 go out twice and rows 0 to 31 never. -/
theorem batch_overwritten :
    ∃ s, Reached shipped wholePort zeroState zeroPool (countingSim 64 (by decide))
        (fun _ _ => True) s ∧ Finished (countingSim 64 (by decide)) s ∧
      s.wire.mapM (unpackPayload shipped) ≠ some (countingSim 64 (by decide)).rows := by
  obtain ⟨s, hs, hfinished, hwire⟩ := second_batch_twice rfl wholePort_progresses zeroState zeroPool
    (show (countingSim 64 (by decide)).entryCount / batchSize = 2 by decide)
  refine ⟨s, hs, hfinished, fun h => ?_⟩
  have hfirst : (countingSim 64 (by decide)).rows[32]? = (countingSim 64 (by decide)).rows[0]? := by
    have hrows := congrArg (fun l => l[0]?) (Option.some.inj (hwire.symm.trans h))
    simpa [slice, batchSize, List.getElem?_append] using hrows
  rw [← MemorySim.row_eq, ← MemorySim.row_eq] at hfirst
  exact absurd hfirst (by decide)

end Cheetah.Host.InFlight
