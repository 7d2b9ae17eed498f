import Cheetah.Host.InFlight
import Cheetah.Lib.Transition

/-! `cheetah_fast_packet_stream_modify`, store by store.

`InFlight` rewrites a packet at one step. Here each of the stores of `modify` is a step, and
the port may read between two of them. In a clear run it does not see them: every state is,
up to the packet in hand, one that `InFlight` reaches (`stores_refine`). A port that reads
late may see them: then a frame can go out with the row id of one row and the rest of
another (`row_torn`). -/
namespace Cheetah.Host.FieldStores
open Lib Lib.Bytes FastPacketStream ControlFlow

/-- `*p = x`. -/
structure Store where
  ptr : Ptr
  bits : Nat
  word : BitVec bits

def Store.run (mem : Mem) (store : Store) : Option Mem := mem.store store.ptr store.word

/-- The stores of `cheetah_fast_packet_stream_modify` in turn, once the pointers are read. -/
def stores (c : Config) (stream : Stream) (packetIndex : Nat) (new : Row c) : Option (List Store) := do
  let prowId ← stream.payloadRowIdArr[packetIndex]?
  let pvalue ← stream.payloadValueArr[packetIndex]?
  let pkey ← stream.payloadKeyArr[packetIndex]?
  let pflowId ← stream.payloadFlowIdArr[packetIndex]?
  some [⟨prowId, _, cpuToBe new.rowId⟩, ⟨pvalue, _, cpuToBe new.value⟩, ⟨pkey, _, cpuToBe new.key⟩,
    ⟨pflowId, _, cpuToBe new.flowId⟩]

/-- The worker and its port, and the stores into the packet in hand so far. -/
structure State where
  worker : InFlight.State
  stored : Nat

inductive Act where
  /-- The next store of `modify`. -/
  | store
  | send (fuel : Nat)
  | transmit
  deriving DecidableEq

/-- What the step is in `InFlight`, or a part of. -/
def Act.whole : Act → InFlight.Act
  | .store => .modify
  | .send fuel => .send fuel
  | .transmit => .transmit

section System
variable (c : Config) (port : Port) (state : ConnectionState) (pool : Mempool) (sim : MemorySim c)

def step (s : State) : Act → Option State
  | .store =>
    if s.worker.batch < sim.entryCount / batchSize ∧ s.worker.packet < batchSize then do
      let all ← stores c s.worker.stream s.worker.packet (← sim.row (index s.worker.batch s.worker.packet))
      let mem ← (← all[s.stored]?).run s.worker.mem
      some (if s.stored + 1 < all.length then ⟨{s.worker with mem := mem}, s.stored + 1⟩
        else ⟨{s.worker with mem := mem, packet := s.worker.packet + 1}, 0⟩)
    else none
  | .send fuel => do some {s with worker := ← InFlight.step c port sim s.worker (.send fuel)}
  | .transmit => do some {s with worker := ← InFlight.step c port sim s.worker .transmit}

/-- The runs whose steps all meet `Q`, at each of its stores when it is a part of `modify`. -/
def transitions (Q : InFlight.State → InFlight.Act → Prop) : Transitions State where
  start s := ∃ w, InFlight.start c state pool = some w ∧ s = ⟨w, 0⟩
  next s s' := ∃ a, Q s.worker a.whole ∧ step c port sim s a = some s'

end System

/-! ### The stores of one packet -/

section Stores
variable {c : Config} {stream : Stream} {mem mem' : Mem} {i : Nat} {row : Row c} {all : List Store}

/-- `modify` is its stores, one after the other. -/
theorem modify_eq : modify c stream i row mem = (stores c stream i row).bind (·.foldlM Store.run mem) := by
  unfold FastPacketStream.modify stores
  cases stream.payloadRowIdArr[i]? with
  | none => rfl
  | some _ => cases stream.payloadValueArr[i]? with
    | none => rfl
    | some _ => cases stream.payloadKeyArr[i]? with
      | none => rfl
      | some _ => cases stream.payloadFlowIdArr[i]? with
        | none => rfl
        | some _ =>
          simp only [Option.bind_eq_bind, Option.bind_some, List.foldlM_cons, List.foldlM_nil, Store.run]
          simp

/-- They are four, and all into the packet. -/
theorem stores_spec (h : Crafted c stream mem) (hi : i < stream.packetCount) (row : Row c) :
    ∃ all, stores c stream i row = some all ∧ all.length = 4 ∧ ∀ store ∈ all, store.ptr.mbuf = i := by
  obtain ⟨m, f, -, -, hp⟩ := h.packet i hi
  refine ⟨_, by simp only [stores, hp.rowId, hp.value, hp.key, hp.flowId, Option.bind_eq_bind,
    Option.bind_some]; rfl, rfl, ?_⟩
  simp

/-- A store leaves the other packets alone. -/
theorem Store.run_other {store : Store} (h : store.run mem = some mem') {j : Nat} (hj : j ≠ store.ptr.mbuf) :
    mem'[j]? = mem[j]? := by
  simp only [Store.run, Mem.store, Option.bind_eq_bind, Option.bind_eq_some_iff, Option.some.injEq] at h
  obtain ⟨m, -, m', -, rfl⟩ := h
  exact List.getElem?_set_ne (Ne.symm hj)

/-- A field is read from its own bytes. -/
theorem load_congr {a b : List Byte} {bits off : Nat} (hlen : a.length = b.length)
    (h : slice a off (bits / 8) = slice b off (bits / 8)) : load bits a off = load bits b off := by
  rw [load, load, hlen, h]

theorem unpackPayload_store {m m' : Mbuf} {f : Fields} (ht : Template c m f) {rowId : BitVec 32}
    (hs : m.store f.rowId (cpuToBe rowId) = some m') (hrow : unpackPayload c m.frame = some row) :
    Template c m' f ∧ unpackPayload c m'.frame = some {row with rowId := rowId} := by
  have hfits := m.fits
  have hlen := ht.dataLen
  have hoff := ht.rowId
  have hframe : c.frameLength = 48 + c.keyBits / 8 + c.valueBits / 8 := rfl
  have hflowBits := c.flowIdBits_le
  have hread := Nat.div_le_div_right (c := 8) c.unpackedBits_le
  obtain ⟨m'', hs', hbuf, hdo, hdl⟩ := m.store_spec f.rowId (cpuToBe rowId) (by omega)
  obtain rfl : m' = m'' := Option.some.inj (hs.symm.trans hs')
  have hbytes : (image (cpuToBe rowId)).length = 4 := by rw [length_image]
  -- the other fields are read from where nothing was written
  have hkept : ∀ {bits off : Nat}, off + bits / 8 ≤ c.frameLength → off + bits / 8 ≤ 44 ∨ 48 ≤ off →
      load bits m'.frame off = load bits m.frame off := by
    intro bits off hin hdisjoint
    refine load_congr (by rw [Mbuf.length_frame, Mbuf.length_frame, hdl]) ?_
    rw [slice_frame m' (by omega), slice_frame m (by omega), hdo, hbuf]
    exact slice_splice_of_disjoint (by omega) (by omega)
  have hnew : load 32 m'.frame 44 = some (cpuToBe rowId) := by
    refine load_field (by decide) (by rw [Mbuf.length_frame]; omega) ?_
    rw [slice_frame m' (by omega), hdo, ← hoff, hbuf, slice_splice (by omega) hbytes]
  refine ⟨⟨hdl.trans hlen, by rw [ht.flowId, hdo], by rw [hoff, hdo], by rw [ht.key, hdo],
    by rw [ht.value, hdo]⟩, ?_⟩
  simp only [unpackPayload, Option.bind_eq_bind, Option.bind_eq_some_iff, Option.some.injEq] at hrow
  obtain ⟨flowId, hflowId, _, _, key, hkey, value, hvalue, rfl⟩ := hrow
  rw [← hkept (by omega) (by omega)] at hflowId hkey hvalue
  simp only [unpackPayload, hflowId, hnew, hkey, hvalue, Option.bind_eq_bind, Option.bind_some,
    beToCpu_cpuToBe (w := 32) (by decide)]

/-- **The first store** makes the packet carry the new row id with the old rest. -/
theorem store_rowId (h : Crafted c stream mem) (hi : i < stream.packetCount) (new : Row c)
    (hall : stores c stream i new = some all) (hold : decoded c mem i = some row)
    (hrun : (all.take 1).foldlM Store.run mem = some mem') :
    Crafted c stream mem' ∧ decoded c mem' i = some {row with rowId := new.rowId} := by
  obtain ⟨m, f, hm, ht, hp⟩ := h.packet i hi
  have hlt : i < mem.length := h.length_mem ▸ hi
  simp only [stores, hp.rowId, hp.value, hp.key, hp.flowId, Option.bind_eq_bind, Option.bind_some,
    Option.some.injEq] at hall
  subst hall
  simp only [List.take_succ_cons, List.take_zero, List.foldlM_cons, List.foldlM_nil, bind_pure, Store.run,
    Mem.store, hm, Option.bind_eq_bind, Option.bind_some, Option.bind_eq_some_iff, Option.some.injEq] at hrun
  obtain ⟨m', hs, rfl⟩ := hrun
  have hread : unpackPayload c m.frame = some row := by
    rw [← hold, decoded, hm]
    rfl
  obtain ⟨ht', hnew⟩ := unpackPayload_store ht hs hread
  refine ⟨h.set ht' hp, ?_⟩
  rw [decoded, List.getElem?_set_self hlt]
  exact hnew

/-- One more store. -/
theorem foldlM_take_succ {store : Store} {k : Nat} (hstore : all[k]? = some store) :
    (all.take (k + 1)).foldlM Store.run mem = ((all.take k).foldlM Store.run mem).bind store.run := by
  rw [List.take_add_one, hstore, Option.toList_some, List.foldlM_append]
  simp only [List.foldlM_cons, List.foldlM_nil, bind_pure]
  rfl

end Stores

/-! ### Steps -/

section Steps
variable {c : Config} {port : Port} {sim : MemorySim c} {s s' : State} {mem : Mem}

/-- The worker as it was when it had stored nothing into the packet in hand. -/
def State.before (s : State) (mem : Mem) : InFlight.State := {s.worker with mem := mem}

/-- `mem` is the memory before the stores into the packet in hand, which no queued clone
designates when there are any. -/
structure Begun (sim : MemorySim c) (s : State) (mem : Mem) : Prop where
  whole : s.stored = 0 → mem = s.worker.mem
  others : ∀ j, j ≠ s.worker.packet → mem[j]? = s.worker.mem[j]?
  filling : s.stored ≠ 0 → s.worker.packet < batchSize
  clear : s.stored ≠ 0 → ∀ cl ∈ s.worker.queue, cl.direct ≠ s.worker.packet
  part : ∀ row all, sim.row (index s.worker.batch s.worker.packet) = some row →
    stores c s.worker.stream s.worker.packet row = some all →
    (all.take s.stored).foldlM Store.run mem = some s.worker.mem

theorem begun_whole (w : InFlight.State) : Begun sim ⟨w, 0⟩ w.mem :=
  ⟨fun _ => rfl, fun _ _ => rfl, fun h => absurd rfl h, fun h => absurd rfl h, fun _ _ _ _ => rfl⟩

/-- **A store** is no step of `InFlight` but the last one, which is `modify`. -/
theorem store_step (hinv : InFlight.Inv sim (s.before mem)) (h : Begun sim s mem)
    (hclear : InFlight.Clear s.worker .modify) (hs : step c port sim s .store = some s') :
    (Begun sim s' mem ∧ s'.before mem = s.before mem) ∨
      s'.stored = 0 ∧ InFlight.step c port sim (s.before mem) .modify = some s'.worker := by
  rw [step] at hs
  split at hs
  · rename_i hguard
    obtain ⟨hbatch, hpacket⟩ := hguard
    simp only [Option.bind_eq_bind, Option.bind_eq_some_iff, Option.some.injEq] at hs
    obtain ⟨row, hrow, all, hall, store, hstore, mem', hrun, rfl⟩ := hs
    obtain ⟨all', hall', hfour, hinto⟩ := stores_spec hinv.crafted (by rw [hinv.packetCount]; exact hpacket) row
    obtain rfl := Option.some.inj (hall.symm.trans hall')
    have hpart : (all.take (s.stored + 1)).foldlM Store.run mem = some mem' := by
      rw [foldlM_take_succ hstore, h.part row all hrow hall]
      exact hrun
    split
    · left
      refine ⟨⟨fun hnone => absurd hnone (Nat.succ_ne_zero _), fun j hj => ?_, fun _ => hpacket, fun _ => hclear,
        fun row' all' hrow' hall' => ?_⟩, rfl⟩
      · rw [h.others j hj]
        refine (Store.run_other hrun ?_).symm
        rw [hinto store (List.mem_of_getElem? hstore)]
        exact hj
      · obtain rfl := Option.some.inj (hrow.symm.trans hrow')
        obtain rfl := Option.some.inj (hall.symm.trans hall')
        exact hpart
    · rename_i hlast
      right
      have hmodify : modify c s.worker.stream s.worker.packet row mem = some mem' := by
        rw [modify_eq, hall, Option.bind_some]
        rwa [List.take_of_length_le (by omega)] at hpart
      refine ⟨rfl, ?_⟩
      rw [InFlight.step, if_pos ⟨hbatch, hpacket⟩]
      simp only [State.before, hrow, hmodify, Option.bind_eq_bind, Option.bind_some]
  · cases hs

/-- The batch is sent when its packets have all their stores. -/
theorem send_step {fuel : Nat} (h : Begun sim s mem) (hs : step c port sim s (.send fuel) = some s') :
    s'.stored = 0 ∧ InFlight.step c port sim (s.before mem) (.send fuel) = some s'.worker := by
  simp only [step, Option.bind_eq_bind, Option.bind_eq_some_iff, Option.some.injEq] at hs
  obtain ⟨worker, hstep, rfl⟩ := hs
  have hpacket : s.worker.packet = batchSize := by
    rw [InFlight.step] at hstep
    split at hstep
    · rename_i hguard
      exact hguard.2
    · cases hstep
  have hnone : s.stored = 0 := by
    by_contra hsome
    exact (h.filling hsome).ne hpacket
  refine ⟨hnone, ?_⟩
  rw [State.before, h.whole hnone]
  exact hstep

/-- The port reads a packet that is whole. -/
theorem transmit_step (h : Begun sim s mem) (hs : step c port sim s .transmit = some s') :
    Begun sim s' mem ∧ InFlight.step c port sim (s.before mem) .transmit = some (s'.before mem) := by
  simp only [step, Option.bind_eq_bind, Option.bind_eq_some_iff, Option.some.injEq] at hs
  obtain ⟨worker, hstep, rfl⟩ := hs
  rw [InFlight.step] at hstep
  split at hstep
  · cases hstep
  · rename_i cl rest hqueue
    simp only [Option.bind_eq_bind, Option.bind_eq_some_iff, Option.some.injEq] at hstep
    obtain ⟨frame, hread, rfl⟩ := hstep
    have hsame : mem[cl.direct]? = s.worker.mem[cl.direct]? := by
      by_cases hnone : s.stored = 0
      · rw [h.whole hnone]
      · exact h.others _ (h.clear hnone cl (hqueue ▸ List.mem_cons_self ..))
    have hread' : mem.read cl = some frame := by rw [← hread, Mem.read, Mem.read, hsame]
    refine ⟨⟨h.whole, h.others, h.filling, fun hsome x hx => ?_, h.part⟩, ?_⟩
    · exact h.clear hsome x (hqueue ▸ List.mem_cons_of_mem cl hx)
    · simp only [State.before, InFlight.step, hqueue, hread', Option.bind_eq_bind, Option.bind_some]

end Steps

/-! ### Runs -/

section Runs
variable {c : Config} {port : Port} {state : ConnectionState} {pool : Mempool} {sim : MemorySim c}
variable {Q : InFlight.State → InFlight.Act → Prop} {s : State} {w w' : InFlight.State}

/-- Each state of a clear run has begun one that `InFlight` reaches. -/
theorem reached_begun (hc : c.unpackedBits = c.valueBits)
    (hs : (transitions c port state pool sim InFlight.Clear).Reached s) :
    ∃ mem, InFlight.Reached c port state pool sim InFlight.Clear (s.before mem) ∧ Begun sim s mem := by
  refine hs.invariant (I := fun s => ∃ mem,
    InFlight.Reached c port state pool sim InFlight.Clear (s.before mem) ∧ Begun sim s mem) ?_ ?_
  · rintro s ⟨w, hstart, rfl⟩
    exact ⟨w.mem, .start hstart, begun_whole w⟩
  · rintro s s' - ⟨mem, hold, hbegun⟩ ⟨a, hclear, hstep⟩
    have whole : ∀ b, InFlight.Clear (s.before mem) b → s'.stored = 0 →
        InFlight.step c port sim (s.before mem) b = some s'.worker →
        ∃ mem, InFlight.Reached c port state pool sim InFlight.Clear (s'.before mem) ∧ Begun sim s' mem := by
      intro b hb hnone hwhole
      obtain ⟨worker, stored⟩ := s'
      obtain rfl : stored = 0 := hnone
      exact ⟨worker.mem, hold.step hb hwhole, begun_whole worker⟩
    cases a with
    | store =>
      rcases store_step (InFlight.reached_inv hc hold) hbegun hclear hstep with ⟨hbegun', hsame⟩ | ⟨hnone, hwhole⟩
      · exact ⟨mem, hsame ▸ hold, hbegun'⟩
      · exact whole .modify hclear hnone hwhole
    | send fuel =>
      obtain ⟨hnone, hwhole⟩ := send_step hbegun hstep
      exact whole (.send fuel) trivial hnone hwhole
    | transmit =>
      obtain ⟨hbegun', hwhole⟩ := transmit_step hbegun hstep
      have hany : InFlight.Clear (s.before mem) .transmit := trivial
      exact ⟨mem, hold.step hany hwhole, hbegun'⟩

/-- **A clear run does not see the stores.** Every state is one that is reached with `modify`
at one step, up to the packet in hand, and wholly when nothing is stored into that. -/
theorem stores_refine (hc : c.unpackedBits = c.valueBits)
    (hs : (transitions c port state pool sim InFlight.Clear).Reached s) :
    ∃ mem, InFlight.Reached c port state pool sim InFlight.Clear {s.worker with mem := mem} ∧
      (∀ j, j ≠ s.worker.packet → mem[j]? = s.worker.mem[j]?) ∧ (s.stored = 0 → mem = s.worker.mem) := by
  obtain ⟨mem, hold, hbegun⟩ := reached_begun hc hs
  exact ⟨mem, hold, hbegun.others, hbegun.whole⟩

/-- So the wire carries the dataset's rows in order. -/
theorem stores_faithful {sim : MemorySim shipped} (hdvd : batchSize ∣ sim.entryCount)
    (hs : (transitions shipped port state pool sim InFlight.Clear).Reached s) :
    InFlight.WireFaithful sim s.worker := by
  obtain ⟨mem, hold, -, -⟩ := stores_refine rfl hs
  obtain ⟨hrows, hfinished⟩ := InFlight.clear_faithful hdvd hold
  exact ⟨hrows, fun hend => hfinished ⟨hend.batch, hend.queue⟩⟩

/-! ### Runs of `InFlight`, store by store -/

theorem step_store {mem mem' : Mem} {row : Row c} {all : List Store} {k : Nat} {store : Store}
    (hguard : w.batch < sim.entryCount / batchSize ∧ w.packet < batchSize)
    (hrow : sim.row (index w.batch w.packet) = some row) (hall : stores c w.stream w.packet row = some all)
    (hstore : all[k]? = some store) (hrun : store.run mem = some mem') :
    step c port sim ⟨{w with mem := mem}, k⟩ .store =
      some (if k + 1 < all.length then ⟨{w with mem := mem'}, k + 1⟩
        else ⟨{w with mem := mem', packet := w.packet + 1}, 0⟩) := by
  rw [step, if_pos hguard]
  simp only [hrow, hall, hstore, hrun, Option.bind_eq_bind, Option.bind_some]

variable (hQ : ∀ w mem, Q w .modify → Q {w with mem := mem} .modify)
include hQ

/-- Any part of the stores of the next packet can be done, where `modify` may be. -/
theorem reach_stored (hs : (transitions c port state pool sim Q).Reached ⟨w, 0⟩) (hinv : InFlight.Inv sim w)
    (hguard : w.batch < sim.entryCount / batchSize ∧ w.packet < batchSize) (hmeets : Q w .modify)
    {row : Row c} (hrow : sim.row (index w.batch w.packet) = some row) {k : Nat} (hk : k < 4) :
    ∃ all mem, stores c w.stream w.packet row = some all ∧ (all.take k).foldlM Store.run w.mem = some mem ∧
      (transitions c port state pool sim Q).Reached ⟨{w with mem := mem}, k⟩ := by
  have hin : w.packet < w.stream.packetCount := by rw [hinv.packetCount]; exact hguard.2
  obtain ⟨all, hall, hfour, -⟩ := stores_spec hinv.crafted hin row
  obtain ⟨_, _, _, hmodify, -⟩ := modify_carries hinv.crafted hin row
  rw [modify_eq, hall, Option.bind_some] at hmodify
  refine ⟨all, ?_⟩
  induction k with
  | zero => exact ⟨w.mem, hall, rfl, hs⟩
  | succ k ih =>
    obtain ⟨mem₁, -, hpart, hold⟩ := ih (Nat.lt_of_succ_lt hk)
    have hstore : all[k]? = some all[k] := List.getElem?_eq_getElem (by omega)
    obtain ⟨mem₂, hnext⟩ : ∃ mem₂, (all.take (k + 1)).foldlM Store.run w.mem = some mem₂ := by
      rw [← List.take_append_drop (k + 1) all, List.foldlM_append] at hmodify
      obtain ⟨mem₂, hnext, -⟩ := Option.bind_eq_some_iff.mp hmodify
      exact ⟨mem₂, hnext⟩
    have hrun : all[k].run mem₁ = some mem₂ := by
      rwa [foldlM_take_succ hstore, hpart, Option.bind_some] at hnext
    refine ⟨mem₂, hall, hnext, hold.next ⟨.store, hQ w mem₁ hmeets, ?_⟩⟩
    rw [step_store hguard hrow hall hstore hrun, if_pos (by omega)]

/-- **The runs of `InFlight` are runs here.** -/
theorem reached_of_inFlight (hc : c.unpackedBits = c.valueBits)
    (hw : InFlight.Reached c port state pool sim Q w) :
    (transitions c port state pool sim Q).Reached ⟨w, 0⟩ := by
  induction hw with
  | start h => exact .start ⟨_, h, rfl⟩
  | @step w w' a hw hmeets hstep ih =>
    have hinv := InFlight.reached_inv hc hw
    cases a with
    | modify =>
      rw [InFlight.step] at hstep
      split at hstep
      · rename_i hguard
        simp only [Option.bind_eq_bind, Option.bind_eq_some_iff, Option.some.injEq] at hstep
        obtain ⟨row, hrow, mem, hmodify, rfl⟩ := hstep
        obtain ⟨all, mem₁, hall, hpart, hold⟩ :=
          reach_stored hQ ih hinv hguard hmeets hrow (show 3 < 4 by decide)
        obtain ⟨all', hall', hfour, -⟩ :=
          stores_spec hinv.crafted (by rw [hinv.packetCount]; exact hguard.2) row
        obtain rfl := Option.some.inj (hall.symm.trans hall')
        have hstore : all[3]? = some all[3] := List.getElem?_eq_getElem (by omega)
        have hrun : all[3].run mem₁ = some mem := by
          rw [modify_eq, hall, Option.bind_some, ← List.take_of_length_le (show all.length ≤ 3 + 1 by omega),
            foldlM_take_succ hstore, hpart, Option.bind_some] at hmodify
          exact hmodify
        refine hold.next ⟨.store, hQ w mem₁ hmeets, ?_⟩
        rw [step_store hguard hrow hall hstore hrun, if_neg (by omega)]
      · cases hstep
    | send fuel => exact ih.next ⟨.send fuel, hmeets, by simp only [step, hstep]; rfl⟩
    | transmit => exact ih.next ⟨.transmit, hmeets, by simp only [step, hstep]; rfl⟩

omit hQ

/-- The first batch is sent: packet 0 still carries row 0, and its clone is read next. -/
theorem reach_first_sent (hc : c.unpackedBits = c.valueBits) (hport : port.Progresses) (state : ConnectionState)
    (pool : Mempool) (hsim : 1 ≤ sim.entryCount / batchSize) :
    ∃ w, InFlight.Reached c port state pool sim (fun _ _ => True) w ∧ w.batch = 1 ∧ w.packet = 0 ∧
      decoded c w.mem 0 = sim.rows[0]? ∧ ∃ cl rest, w.queue = cl :: rest ∧ cl.direct = 0 := by
  obtain ⟨w₀, hstart, -, hqueue₀, -, hbatch₀, hpacket₀⟩ := InFlight.start_spec c state pool sim
  have hw₀ : InFlight.Reached c port state pool sim (fun _ _ => True) w₀ := .start hstart
  obtain ⟨w₁, hw₁, hbatch₁, hpacket₁, hqueue₁, -⟩ := InFlight.reach_filled hc hw₀
    (by omega) hpacket₀ fun _ _ => trivial
  obtain ⟨w₂, hw₂, hpacket₂, hsend⟩ := InFlight.reach_sent hc hport hw₁ (by omega) hpacket₁ trivial
  have hinv₁ := InFlight.reached_inv hc hw₁
  obtain ⟨-, hbatch₂, hview, -⟩ := InFlight.send_step hinv₁ hsend
  have hcells : decoded c w₂.mem = decoded c w₁.mem := congrArg SharedQueue.cells hview
  have hpush : w₂.queue.map Clone.direct = w₁.queue.map Clone.direct ++ List.range batchSize :=
    congrArg SharedQueue.queue hview
  rw [hqueue₁, hqueue₀, List.map_nil, List.nil_append] at hpush
  obtain ⟨cl, rest, hqueue, hdirect, -⟩ := List.map_eq_cons_iff.mp (hpush.trans List.range_succ_eq_map)
  refine ⟨w₂, hw₂, by rw [hbatch₂, hbatch₁, hbatch₀], hpacket₂, ?_, cl, rest, hqueue, hdirect⟩
  rw [hcells, hinv₁.current 0 (by rw [hpacket₁]; decide), hbatch₁, hbatch₀]
  rfl

/-- **A port that reads late sees the stores.** From two batches on there is a run in which a
frame goes out with the row id of one row and the other fields of another. -/
theorem row_torn (hc : c.unpackedBits = c.valueBits) (hport : port.Progresses) (state : ConnectionState)
    (pool : Mempool) (hsim : 2 ≤ sim.entryCount / batchSize) :
    ∃ s, (transitions c port state pool sim fun _ _ => True).Reached s ∧
      ∃ frame ∈ s.worker.wire, ∃ old new, sim.rows[0]? = some old ∧ sim.rows[batchSize]? = some new ∧
        unpackPayload c frame = some {old with rowId := new.rowId} := by
  obtain ⟨w, hw, hbatch, hpacket, hold, cl, rest, hqueue, hdirect⟩ :=
    reach_first_sent hc hport state pool (Nat.le_of_succ_le hsim)
  have hinv := InFlight.reached_inv hc hw
  have hguard : w.batch < sim.entryCount / batchSize ∧ w.packet < batchSize := by
    rw [hpacket, hbatch]
    exact ⟨hsim, by decide⟩
  have hlong : batchSize < sim.rows.length := by
    have hle := batch_le hguard.1
    have hsize : batchSize = 32 := rfl
    rw [hbatch] at hle
    omega
  have hrow : sim.row (index w.batch w.packet) = some sim.rows[batchSize] := by
    rw [index_eq hguard.1 hguard.2, hbatch, hpacket, sim.row_eq]
    exact List.getElem?_eq_getElem hlong
  have hfirst : sim.rows[0]? = some sim.rows[0] := List.getElem?_eq_getElem (by omega)
  obtain ⟨all, mem, hall, hpart, hreached⟩ := reach_stored (fun _ _ _ => trivial)
    (reached_of_inFlight (fun _ _ _ => trivial) hc hw) hinv hguard trivial hrow (show 1 < 4 by decide)
  obtain ⟨hcrafted, htorn⟩ := store_rowId hinv.crafted (by rw [hinv.packetCount]; exact hguard.2) _ hall
    (by rw [hpacket, hold, hfirst]) hpart
  -- the port reads packet 0 now
  obtain ⟨frame, hread, hframe⟩ := (hinv.queued cl (hqueue ▸ List.mem_cons_self ..)).read hcrafted
  rw [hdirect, ← hpacket, htorn] at hframe
  have hstep : step c port sim ⟨{w with mem := mem}, 1⟩ .transmit =
      some ⟨{w with mem := mem, queue := rest, wire := w.wire ++ [frame]}, 1⟩ := by
    simp only [step, InFlight.step, hqueue, hread, Option.bind_eq_bind, Option.bind_some]
  exact ⟨_, hreached.next ⟨.transmit, trivial, hstep⟩, frame, by simp, _, _, hfirst,
    List.getElem?_eq_getElem hlong, hframe⟩

end Runs

/-- The first batch is read before the second one is begun, and two stores of packet 0 are
done. -/
theorem stores_refine_second : ∃ s mem,
    (transitions shipped wholePort zeroState zeroPool (countingSim 64 (by decide)) InFlight.Clear).Reached s ∧
    s.worker.batch = 1 ∧ s.stored = 2 ∧
    InFlight.Reached shipped wholePort zeroState zeroPool (countingSim 64 (by decide)) InFlight.Clear
      {s.worker with mem := mem} ∧
    ∀ j, j ≠ s.worker.packet → mem[j]? = s.worker.mem[j]? := by
  obtain ⟨w₀, hstart, -, hqueue₀, -, hbatch₀, hpacket₀⟩ :=
    InFlight.start_spec shipped zeroState zeroPool (countingSim 64 (by decide))
  have hw₀ : InFlight.Reached shipped wholePort zeroState zeroPool (countingSim 64 (by decide))
    InFlight.Clear w₀ := .start hstart
  obtain ⟨w, hw, hbatch, hpacket, hqueue⟩ := InFlight.reach_round rfl wholePort_progresses hw₀
    (by rw [hbatch₀]; decide) hpacket₀ hqueue₀
  have hQ : ∀ w mem, InFlight.Clear w .modify → InFlight.Clear {w with mem := mem} .modify := fun _ _ h => h
  have hone : w.batch = 1 := by rw [hbatch, hbatch₀]
  have hclear : InFlight.Clear w .modify := by
    intro cl hcl
    rw [hqueue] at hcl
    cases hcl
  obtain ⟨row, hrow⟩ : ∃ row, (countingSim 64 (by decide)).row (index w.batch w.packet) = some row := by
    rw [hone, hpacket]
    exact ⟨_, rfl⟩
  obtain ⟨all, mem, -, -, hs⟩ := reach_stored hQ (reached_of_inFlight hQ rfl hw) (InFlight.reached_inv rfl hw)
    (by rw [hone, hpacket]; decide) hclear hrow (show 2 < 4 by decide)
  obtain ⟨mem', hold, hothers, -⟩ := stores_refine rfl hs
  exact ⟨_, mem', hs, hone, rfl, hold, hothers⟩

/-- 64 rows, and a frame with row id 32 and key 0. -/
theorem row_torn_counting : ∃ s,
    (transitions shipped wholePort zeroState zeroPool (countingSim 64 (by decide)) fun _ _ => True).Reached s ∧
      ∃ frame ∈ s.worker.wire, ∃ row, unpackPayload shipped frame = some row ∧
        row ∉ (countingSim 64 (by decide)).rows := by
  obtain ⟨s, hs, frame, hframe, old, new, hold, hnew, hrow⟩ :=
    row_torn rfl wholePort_progresses zeroState zeroPool
      (show 2 ≤ (countingSim 64 (by decide)).entryCount / batchSize by decide)
  refine ⟨s, hs, frame, hframe, _, hrow, fun hmem => ?_⟩
  have hkeys : ∀ row ∈ (countingSim 64 (by decide)).rows, row.key.toNat = row.rowId.toNat := by decide
  have hkey : (countingSim 64 (by decide)).rows[0]?.map (fun row => row.key.toNat) = some 0 := by decide
  have hrowId : (countingSim 64 (by decide)).rows[batchSize]?.map (fun row => row.rowId.toNat) = some 32 := by
    decide
  rw [hold] at hkey
  rw [hnew] at hrowId
  have hsame : old.key.toNat = new.rowId.toNat := hkeys _ hmem
  exact absurd ((Option.some.inj hkey).symm.trans (hsame.trans (Option.some.inj hrowId))) (by decide)

end Cheetah.Host.FieldStores
