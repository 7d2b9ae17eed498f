import Cheetah.Host.FastPacketSend
import Cheetah.Host.MemorySim

/-! `cheetah_control_flow_worker`: the dataset, a batch of packets at a time.

The port here reads a packet's bytes when it takes it, so a batch is on the wire
before its packets are rewritten. `worker_spec`: the rows of every whole batch are
handed over, once and in order. The loop makes `entry_count / BATCH_SIZE` batches
and nothing sends the rows after them, so the dataset is sent exactly when its
length is a multiple of `BATCH_SIZE` (`rows_sent_iff`). -/
namespace Cheetah.Host.ControlFlow
open Lib Lib.Bytes FastPacketStream

/-- `BATCH_SIZE`. -/
def batchSize : Nat := 32

/-- `i * BATCH_SIZE + j`, in `unsigned int`. -/
def index (i j : Nat) : Nat := (i * batchSize + j) % 2 ^ 32

/-- The packets' memory, the calls of `rte_eth_tx_burst` and the bytes handed over so far. -/
structure WorkerState where
  mem : Mem
  calls : Nat
  wire : List (List Byte)

section Code
variable (c : Config) (port : Port) (fuel : Nat)

/-- The inner loop: every packet of batch `i` gets its row. -/
def fill (stream : Stream) (sim : MemorySim c) (i : Nat) : Mem → Option Mem :=
  forLoop (fun j mem => do modify c stream j (← sim.row (index i j)) mem) batchSize

/-- One turn of the outer loop. -/
def batch (stream : Stream) (sim : MemorySim c) (i : Nat) (w : WorkerState) :
    Option WorkerState := do
  let mem ← fill c stream sim i w.mem
  let (clones, calls) ← send port fuel w.calls stream mem
  -- sending writes no packet, so these are the bytes at the call that took each clone
  let frames ← clones.mapM mem.read
  some ⟨mem, calls, w.wire ++ frames⟩

/-- `cheetah_control_flow_worker`, from the creation of its packets to its last batch. -/
def worker (state : ConnectionState) (pool : Mempool) (sim : MemorySim c) :
    Option WorkerState := do
  let (stream, mem) ← create c state pool batchSize
  forLoop (batch c port fuel stream sim) (sim.entryCount / batchSize) ⟨mem, 0, []⟩

end Code

/-! ### Whole batches -/

section Batches
variable {c : Config} {stream : Stream} {sim : MemorySim c} {mem : Mem}

/-- The index does not wrap within a loaded dataset. -/
theorem index_eq {i j : Nat} (hi : i < sim.entryCount / batchSize) (hj : j < batchSize) :
    index i j = batchSize * i + j := by
  have hsize := sim.entryCount_le
  have hdiv := Nat.div_mul_le_self sim.entryCount batchSize
  unfold memoryEntryCount at hsize
  unfold batchSize at hi hj hdiv
  unfold index batchSize
  omega

theorem batch_le {i : Nat} (hi : i < sim.entryCount / batchSize) :
    batchSize * i + batchSize ≤ sim.rows.length := by
  have hdiv := Nat.div_mul_le_self sim.entryCount batchSize
  rw [sim.length_rows]
  unfold batchSize at hi hdiv ⊢
  omega

/-- After the inner loop packet `j` carries row `j` of the batch. -/
theorem fill_spec (h : Crafted c stream mem) (hcount : stream.packetCount = batchSize)
    (hc : c.unpackedBits = c.valueBits) {i : Nat} (hi : i < sim.entryCount / batchSize) :
    ∃ mem', fill c stream sim i mem = some mem' ∧ Crafted c stream mem' ∧
      ∀ j < batchSize, decoded c mem' j = sim.rows[batchSize * i + j]? := by
  refine forLoop_rule (fun n mem' => Crafted c stream mem' ∧
    ∀ j < n, decoded c mem' j = sim.rows[batchSize * i + j]?)
    ⟨h, fun j hj => absurd hj (Nat.not_lt_zero j)⟩ fun n t hn ⟨ht, hrows⟩ => ?_
  have hlt : batchSize * i + n < sim.rows.length := by have := batch_le hi; omega
  obtain ⟨t', hmodify, ht', hnew, hold⟩ := modify_spec ht hc (hcount ▸ hn) sim.rows[batchSize * i + n]
  refine ⟨t', ?_, ht', fun j hj => ?_⟩
  · rw [index_eq hi hn, sim.row_eq, List.getElem?_eq_getElem hlt]
    exact hmodify
  · rcases Nat.lt_succ_iff_lt_or_eq.mp hj with hj | rfl
    · rw [decoded, hold j (by omega)]
      exact hrows j hj
    · rw [hnew, List.getElem?_eq_getElem hlt]

/-- The bytes handed over so far are those of the first `n` rows. -/
structure Handed (stream : Stream) (sim : MemorySim c) (n : Nat) (w : WorkerState) : Prop where
  crafted : Crafted c stream w.mem
  wire : w.wire.map (unpackPayload c) = (sim.rows.take n).map some

/-- One batch hands over its rows. -/
theorem batch_spec {port : Port} (hport : port.Progresses) {fuel : Nat} (hfuel : batchSize ≤ fuel)
    (hcount : stream.packetCount = batchSize) (hc : c.unpackedBits = c.valueBits) {i : Nat}
    (hi : i < sim.entryCount / batchSize) {w : WorkerState}
    (hw : Handed stream sim (batchSize * i) w) :
    ∃ w', batch c port fuel stream sim i w = some w' ∧
      Handed stream sim (batchSize * (i + 1)) w' := by
  obtain ⟨mem, hfill, hmem, hrows⟩ := fill_spec hw.crafted hcount hc hi
  have hsmall : stream.packetCount < 65536 := by rw [hcount]; decide
  obtain ⟨clones, calls, hsend⟩ := send_ends hport hmem (by rw [hcount]; decide) hsmall
    (hcount ▸ hfuel) w.calls
  obtain ⟨hdirect, href⟩ := send_clones hmem hsmall hsend
  obtain ⟨frames, hread, hframes, -⟩ := exists_mapM (P := fun _ => True)
    (g := unpackPayload c) (k := fun cl : Clone => decoded c mem cl.direct) fun cl hcl => by
      obtain ⟨frame, hframe, hdec⟩ := (href cl hcl).read hmem
      exact ⟨frame, hframe, hdec, trivial⟩
  refine ⟨⟨mem, calls, w.wire ++ frames⟩, ?_, hmem, ?_⟩
  · simp only [batch, hfill, hsend, hread, Option.bind_eq_bind, Option.bind_some]
  · have hall : frames.map (unpackPayload c) =
        (slice sim.rows (batchSize * i) batchSize).map some := by
      calc frames.map (unpackPayload c)
          = (clones.map Clone.direct).map (decoded c mem) := by rw [hframes, List.map_map]; rfl
        _ = (List.range batchSize).map fun j => sim.rows[batchSize * i + j]? := by
            rw [hdirect, hcount]
            exact List.map_congr_left fun j hj => hrows j (List.mem_range.mp hj)
        _ = _ := map_getElem?_range (batch_le hi)
    rw [List.map_append, hw.wire, hall, ← List.map_append, Nat.mul_succ, List.take_add]
    rfl

/-- **The worker hands over the rows of its whole batches.** -/
theorem worker_spec {port : Port} (hport : port.Progresses) {fuel : Nat} (hfuel : batchSize ≤ fuel)
    (hc : c.unpackedBits = c.valueBits) (state : ConnectionState) (pool : Mempool)
    (sim : MemorySim c) :
    ∃ w, worker c port fuel state pool sim = some w ∧
      w.wire.mapM (unpackPayload c) =
        some (sim.rows.take (batchSize * (sim.entryCount / batchSize))) := by
  obtain ⟨stream, mem, hcreate, hcount, hcrafted⟩ := create_spec (c := c) state pool batchSize
  obtain ⟨w, hrun, hw⟩ := forLoop_rule (n := sim.entryCount / batchSize) (s := ⟨mem, 0, []⟩)
    (fun i => Handed stream sim (batchSize * i)) ⟨hcrafted, by simp⟩
    fun i t hi ht => batch_spec hport hfuel hcount hc hi ht
  refine ⟨w, ?_, mapM_eq_some_iff.mpr hw.wire⟩
  rw [worker, hcreate]
  exact hrun

end Batches

/-! ### The whole dataset -/

/-- **What the port is given is the dataset exactly when no rows are left over.** -/
theorem rows_sent_iff {port : Port} (hport : port.Progresses) {fuel : Nat} (hfuel : batchSize ≤ fuel)
    (state : ConnectionState) (pool : Mempool) (sim : MemorySim shipped) :
    (∃ w, worker shipped port fuel state pool sim = some w ∧
      w.wire.mapM (unpackPayload shipped) = some sim.rows) ↔ batchSize ∣ sim.entryCount := by
  obtain ⟨w, hrun, hwire⟩ := worker_spec hport hfuel rfl state pool sim
  constructor
  · intro hsent
    obtain ⟨w', hrun', hwire'⟩ := hsent
    obtain rfl := Option.some.inj (hrun.symm.trans hrun')
    have hlen := congrArg List.length (Option.some.inj (hwire.symm.trans hwire'))
    rw [List.length_take_of_le (by rw [sim.length_rows]; exact Nat.mul_div_le ..),
      sim.length_rows] at hlen
    exact ⟨_, hlen.symm⟩
  · intro hdvd
    refine ⟨w, hrun, ?_⟩
    rw [hwire, Nat.mul_div_cancel' hdvd, ← sim.length_rows, List.take_length]

/-! ### Small datasets -/

/-- A port that takes every request whole. -/
def wholePort : Port := ⟨fun _ request => request, fun _ _ => BitVec.le_refl _⟩

theorem wholePort_progresses : wholePort.Progresses := fun _ _ h => h

def zeroPool : Mempool := ⟨fun _ => List.replicate mbufDataSize 0, fun _ => List.length_replicate⟩

def zeroState : ConnectionState where
  macAddress := Vector.replicate 6 0
  destinationMac := Vector.replicate 6 0
  udpSourcePort := 0
  udpDestinationPort := 4242
  rteIpv4Cksum := fun _ => 0

/-- `n` rows of flow 1 with their row id as key. -/
def countingSim (n : Nat) (h : n ≤ memoryEntryCount) : MemorySim shipped where
  rowIdArr := (List.range n).map (BitVec.ofNat _)
  valueArr := List.replicate n 0
  keyArr := (List.range n).map (BitVec.ofNat _)
  flowIdArr := List.replicate n 1
  entryCount := n
  length_rowIdArr := by simp
  length_valueArr := by simp
  length_keyArr := by simp
  length_flowIdArr := by simp
  entryCount_le := h

/-- Two batches are handed over whole. -/
theorem rows_sent_iff_two_batches :
    ∃ w, worker shipped wholePort 32 zeroState zeroPool (countingSim 64 (by decide)) = some w ∧
      w.wire.mapM (unpackPayload shipped) = some (countingSim 64 (by decide)).rows :=
  (rows_sent_iff wholePort_progresses (by decide) zeroState zeroPool _).mpr (by decide)

/-- Of 33 rows the last is never sent. -/
theorem last_row_lost :
    ∃ w, worker shipped wholePort 32 zeroState zeroPool (countingSim 33 (by decide)) = some w ∧
      w.wire.mapM (unpackPayload shipped) = some ((countingSim 33 (by decide)).rows.take 32) ∧
      w.wire.mapM (unpackPayload shipped) ≠ some (countingSim 33 (by decide)).rows := by
  obtain ⟨w, hrun, hwire⟩ := worker_spec wholePort_progresses (show batchSize ≤ 32 by decide) rfl
    zeroState zeroPool (countingSim 33 (by decide))
  refine ⟨w, hrun, hwire, fun h => ?_⟩
  have hlen := congrArg List.length (Option.some.inj (hwire.symm.trans h))
  simp [countingSim, batchSize] at hlen

end Cheetah.Host.ControlFlow
