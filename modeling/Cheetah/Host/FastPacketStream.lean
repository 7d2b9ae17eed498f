import Cheetah.Host.PacketCrafter
import Cheetah.Lib.Loop

/-! `fast_packet_stream.c`: packets made once and rewritten in place.

`create` makes the packets and keeps a pointer to every field of every payload;
`modify` writes one packet's fields through the pointers. `Crafted` says that the
pointers lead where `cheetah_unpack_payload` reads, and `modify_spec` that a
rewritten packet carries its new fields while every other packet stays as it was. -/
namespace Cheetah.Host.FastPacketStream
open Lib Lib.Bytes

/-- `struct cheetah_fast_packet_stream`. -/
structure Stream where
  mbufBurstArr : List Nat
  payloadRowIdArr : List Ptr
  payloadValueArr : List Ptr
  payloadKeyArr : List Ptr
  payloadFlowIdArr : List Ptr
  packetCount : Nat

/-- `CHEETAH_DEFAULT_FLOW_ID`. -/
def defaultFlowId : BitVec 16 := 1

/-- Where one packet's fields are in its buffer. -/
structure Fields where
  rowId : Nat
  value : Nat
  key : Nat
  flowId : Nat

/-- The pointers to packet `i` and its fields, in the next slot of every array. -/
def Stream.save (stream : Stream) (i : Nat) (field : Fields) : Stream :=
  { stream with
    mbufBurstArr := stream.mbufBurstArr ++ [i]
    payloadRowIdArr := stream.payloadRowIdArr ++ [⟨i, field.rowId⟩]
    payloadValueArr := stream.payloadValueArr ++ [⟨i, field.value⟩]
    payloadKeyArr := stream.payloadKeyArr ++ [⟨i, field.key⟩]
    payloadFlowIdArr := stream.payloadFlowIdArr ++ [⟨i, field.flowId⟩] }

section Code
variable (c : Config)

/-- One packet of `cheetah_fast_packet_stream_create`. -/
def craft (state : ConnectionState) (mbuf : Mbuf) : Option (Mbuf × Fields) := do
  let (mbuf, value) ← mbuf.prepend (c.valueBits / 8)
  let (mbuf, key) ← mbuf.prepend (c.keyBits / 8)
  let (mbuf, rowId) ← mbuf.prepend 4
  let (mbuf, flowId) ← mbuf.prepend 2
  let mbuf ← (if c.useFlowId then some mbuf else mbuf.store flowId (cpuToBe defaultFlowId))
  let mbuf ← prependUdpHeader state mbuf
  let mbuf ← prependIpHeader state mbuf
  let mbuf ← prependEthernetHeader state mbuf
  some (mbuf, ⟨rowId, value, key, flowId⟩)

/-- `cheetah_fast_packet_stream_create`. -/
def create (state : ConnectionState) (pool : Mempool) (packetCount : Nat) : Option (Stream × Mem) :=
  forLoop (fun i (stream, mem) => do
    let (mbuf, field) ← craft c state (pool.alloc i)
    some (stream.save i field, mem ++ [mbuf])) packetCount (⟨[], [], [], [], [], packetCount⟩, [])

/-- `cheetah_fast_packet_stream_modify`. -/
def modify (stream : Stream) (packetIndex : Nat) (new : Row c) (mem : Mem) : Option Mem := do
  let prowId ← stream.payloadRowIdArr[packetIndex]?
  let pvalue ← stream.payloadValueArr[packetIndex]?
  let pkey ← stream.payloadKeyArr[packetIndex]?
  let pflowId ← stream.payloadFlowIdArr[packetIndex]?
  let mem ← mem.store prowId (cpuToBe new.rowId)
  let mem ← mem.store pvalue (cpuToBe new.value)
  let mem ← mem.store pkey (cpuToBe new.key)
  mem.store pflowId (cpuToBe new.flowId)

end Code

/-! ### The packets -/

section Packets
open Mbuf
variable {c : Config}

/-- A packet as `create` leaves it, and where its fields are. -/
structure Template (c : Config) (m : Mbuf) (f : Fields) : Prop where
  dataLen : m.dataLen = c.frameLength
  flowId : f.flowId = m.dataOff + 42
  rowId : f.rowId = m.dataOff + 44
  key : f.key = m.dataOff + 48
  value : f.value = m.dataOff + 48 + c.keyBits / 8

/-- A field of a frame is where it is in the buffer. -/
theorem slice_frame (m : Mbuf) {off n : Nat} (h : off + n ≤ m.dataLen) :
    slice m.frame off n = slice m.buf (m.dataOff + off) n := by
  rw [Mbuf.frame, slice_slice h]

/-- Without the flow id's macro the packet says the default one. -/
def Labelled (c : Config) (m : Mbuf) : Prop :=
  c.useFlowId = false → slice m.frame 42 2 = image (cpuToBe defaultFlowId)

theorem craft_spec (state : ConnectionState) (pool : Mempool) (i : Nat) :
    ∃ m f, craft c state (pool.alloc i) = some (m, f) ∧ Template c m f ∧ Labelled c m := by
  have hroom : (pool.alloc i).dataOff = headroom := rfl
  have hempty : (pool.alloc i).dataLen = 0 := rfl
  have hframe := c.frameLength_le
  unfold Config.frameLength at hframe
  obtain ⟨m₁, hp₁, h₁⟩ := prepend_spec (show c.valueBits / 8 ≤ (pool.alloc i).dataOff by omega)
  have ho₁ := h₁.dataOff
  obtain ⟨m₂, hp₂, h₂⟩ := prepend_spec (show c.keyBits / 8 ≤ m₁.dataOff by omega)
  have ho₂ := h₂.dataOff
  obtain ⟨m₃, hp₃, h₃⟩ := prepend_spec (show 4 ≤ m₂.dataOff by omega)
  have ho₃ := h₃.dataOff
  obtain ⟨m₄, hp₄, h₄⟩ := prepend_spec (show 2 ≤ m₃.dataOff by omega)
  have ho₄ := h₄.dataOff
  obtain ⟨m₅, hs, h₅, ho₅, hlabel⟩ : ∃ m₅, (if c.useFlowId then some m₄
      else m₄.store m₄.dataOff (cpuToBe defaultFlowId)) = some m₅ ∧ Prepended 2 m₃ m₅ ∧
      m₅.dataOff = m₄.dataOff ∧
      (c.useFlowId = false → slice m₅.buf m₄.dataOff 2 = image (cpuToBe defaultFlowId)) := by
    split
    · rename_i huse
      exact ⟨m₄, rfl, h₄, rfl, fun hno => absurd (huse.symm.trans hno) (by decide)⟩
    · have hfits := m₄.fits
      have hlen₄ := h₄.dataLen
      have hin : m₄.dataOff + (image (cpuToBe defaultFlowId)).length ≤ m₄.buf.length := by
        rw [length_image]
        omega
      obtain ⟨m₅, hw, h₅, ho₅⟩ := h₄.write m₄.dataOff (image (cpuToBe defaultFlowId))
        (by rw [length_image]; omega)
      obtain ⟨m₅', hw', hbuf, -⟩ := m₄.write_spec m₄.dataOff (image (cpuToBe defaultFlowId)) hin
      obtain rfl : m₅ = m₅' := Option.some.inj (hw.symm.trans hw')
      exact ⟨m₅, hw, h₅, ho₅, fun _ => by rw [hbuf, slice_splice hin (length_image _)]⟩
  obtain ⟨m₆, hu, h₆⟩ := prependUdpHeader_spec state (show 8 ≤ m₅.dataOff by omega)
  have ho₆ := h₆.dataOff
  obtain ⟨m₇, hi, h₇⟩ := prependIpHeader_spec state (show 20 ≤ m₆.dataOff by omega)
  have ho₇ := h₇.dataOff
  obtain ⟨m₈, he, h₈⟩ := prependEthernetHeader_spec state (show 14 ≤ m₇.dataOff by omega)
  have ho₈ := h₈.dataOff
  have hheaders := h₆.trans (h₇.trans h₈)
  have hall := h₁.trans (h₂.trans (h₃.trans (h₅.trans hheaders)))
  refine ⟨m₈, ⟨m₃.dataOff, m₁.dataOff, m₂.dataOff, m₄.dataOff⟩, ?_, ⟨?_, ?_, ?_, ?_, ?_⟩, fun hno => ?_⟩
  · simp only [craft, hp₁, hp₂, hp₃, hp₄, hs, hu, hi, he, Option.bind_eq_bind, Option.bind_some]
  · rw [hall.dataLen, hempty, Config.frameLength]
    omega
  · dsimp only; omega
  · dsimp only; omega
  · dsimp only; omega
  · dsimp only; omega
  · have hlen₈ := hall.dataLen
    rw [slice_frame m₈ (by omega), show m₈.dataOff + 42 = m₄.dataOff by omega,
      hheaders.kept m₄.dataOff 2 (by omega), hlabel hno]

/-! ### The stream

Packet `i` of a stream is the `i`-th mbuf. -/

/-- The pointers of packet `i` lead to where its fields are. -/
structure Points (stream : Stream) (i : Nat) (f : Fields) : Prop where
  mbuf : stream.mbufBurstArr[i]? = some i
  rowId : stream.payloadRowIdArr[i]? = some ⟨i, f.rowId⟩
  value : stream.payloadValueArr[i]? = some ⟨i, f.value⟩
  key : stream.payloadKeyArr[i]? = some ⟨i, f.key⟩
  flowId : stream.payloadFlowIdArr[i]? = some ⟨i, f.flowId⟩

/-- The memory behind a stream. -/
structure Crafted (c : Config) (stream : Stream) (mem : Mem) : Prop where
  length_mem : mem.length = stream.packetCount
  packet : ∀ i < stream.packetCount, ∃ m f, mem[i]? = some m ∧ Template c m f ∧ Points stream i f

/-- The loop's invariant: the first `i` packets are there. -/
structure CraftedUpTo (c : Config) (packetCount i : Nat) (made : Stream × Mem) : Prop where
  packetCount : made.1.packetCount = packetCount
  lengths : made.1.mbufBurstArr.length = i ∧ made.1.payloadRowIdArr.length = i ∧
    made.1.payloadValueArr.length = i ∧ made.1.payloadKeyArr.length = i ∧
    made.1.payloadFlowIdArr.length = i ∧ made.2.length = i
  packet : ∀ j < i, ∃ m f, made.2[j]? = some m ∧ Template c m f ∧ Points made.1 j f

theorem CraftedUpTo.save {packetCount i : Nat} {stream : Stream} {mem : Mem} {m : Mbuf} {f : Fields}
    (h : CraftedUpTo c packetCount i (stream, mem)) (ht : Template c m f) :
    CraftedUpTo c packetCount (i + 1) (stream.save i f, mem ++ [m]) := by
  obtain ⟨hcount, ⟨hb, hr, hv, hk, hf, hm⟩, hpacket⟩ := h
  dsimp only at hb hr hv hk hf hm
  refine ⟨hcount, by simp [Stream.save, hb, hr, hv, hk, hf, hm], fun j hj => ?_⟩
  rcases Nat.lt_succ_iff_lt_or_eq.mp hj with hj | rfl
  · obtain ⟨m', f', hm', ht', hp'⟩ := hpacket j hj
    refine ⟨m', f', ?_, ht', ?_, ?_, ?_, ?_, ?_⟩
    · rwa [List.getElem?_append_left (by omega)]
    all_goals rw [Stream.save, List.getElem?_append_left (by omega)]
    exacts [hp'.mbuf, hp'.rowId, hp'.value, hp'.key, hp'.flowId]
  · refine ⟨m, f, ?_, ht, ?_, ?_, ?_, ?_, ?_⟩ <;> simp [Stream.save, hb, hr, hv, hk, hf, hm]

/-- **`create` makes every packet.** -/
theorem create_spec (state : ConnectionState) (pool : Mempool) (packetCount : Nat) :
    ∃ stream mem, create c state pool packetCount = some (stream, mem) ∧
      stream.packetCount = packetCount ∧ Crafted c stream mem := by
  obtain ⟨⟨stream, mem⟩, hrun, hcount, ⟨-, -, -, -, -, hm⟩, hpacket⟩ : ∃ made,
      create c state pool packetCount = some made ∧ CraftedUpTo c packetCount packetCount made := by
    refine forLoop_rule (CraftedUpTo c packetCount)
      ⟨rfl, ⟨rfl, rfl, rfl, rfl, rfl, rfl⟩, fun j hj => absurd hj (by omega)⟩ fun i made _ h => ?_
    obtain ⟨m, f, hcraft, ht, -⟩ := craft_spec (c := c) state pool i
    exact ⟨(made.1.save i f, made.2 ++ [m]), by rw [hcraft]; rfl, h.save ht⟩
  exact ⟨stream, mem, hrun, hcount, hm.trans hcount.symm, hcount ▸ hpacket⟩

theorem create_labelled {state : ConnectionState} {pool : Mempool} {packetCount : Nat} {stream : Stream}
    {mem : Mem} (h : create c state pool packetCount = some (stream, mem)) : ∀ m ∈ mem, Labelled c m := by
  obtain ⟨made, hrun, hmade⟩ : ∃ made, create c state pool packetCount = some made ∧
      ∀ m ∈ made.2, Labelled c m := by
    refine forLoop_rule (fun _ (made : Stream × Mem) => ∀ m ∈ made.2, Labelled c m)
      (fun m hm => absurd hm List.not_mem_nil) fun i made _ hold => ?_
    obtain ⟨m, f, hcraft, -, hm⟩ := craft_spec (c := c) state pool i
    refine ⟨(made.1.save i f, made.2 ++ [m]), by rw [hcraft]; rfl, fun m' hm' => ?_⟩
    rcases List.mem_append.mp hm' with hm' | hm'
    · exact hold m' hm'
    · rwa [List.mem_singleton.mp hm']
  rwa [← Option.some.inj (h.symm.trans hrun)] at hmade

/-! ### Rewriting a packet -/

/-- What a receiver would take out of packet `i` now. -/
def decoded (c : Config) (mem : Mem) (i : Nat) : Option (Row c) := do
  unpackPayload c (← mem[i]?).frame

/-- One packet's fields written over the old ones, in the order of the code. Without the
flow id's macro its two bytes stay as they were. -/
theorem store_fields {m : Mbuf} {f : Fields} (ht : Template c m f) (row : Row c) :
    ∃ m₁ m₂ m₃ m₄, m.store f.rowId (cpuToBe row.rowId) = some m₁ ∧
      m₁.store f.value (cpuToBe row.value) = some m₂ ∧ m₂.store f.key (cpuToBe row.key) = some m₃ ∧
      m₃.store f.flowId (cpuToBe row.flowId) = some m₄ ∧ Template c m₄ f ∧
      Carries c m₄.frame row ∧ (c.useFlowId = false → slice m₄.frame 42 2 = slice m.frame 42 2) := by
  obtain ⟨hlen, hflowId, hrowId, hkey, hvalue⟩ := ht
  have hfits := m.fits
  have hflow := c.flowIdBits_le
  have hframe : c.frameLength = 48 + c.keyBits / 8 + c.valueBits / 8 := rfl
  obtain ⟨m₁, hs₁, hb₁, ho₁, hl₁⟩ := m.store_spec f.rowId (cpuToBe row.rowId) (by omega)
  have hlen₁ : m₁.buf.length = m.buf.length := by rw [hb₁, length_splice (by simp; omega)]
  obtain ⟨m₂, hs₂, hb₂, ho₂, hl₂⟩ := m₁.store_spec f.value (cpuToBe row.value) (by omega)
  have hlen₂ : m₂.buf.length = m₁.buf.length := by rw [hb₂, length_splice (by simp; omega)]
  obtain ⟨m₃, hs₃, hb₃, ho₃, hl₃⟩ := m₂.store_spec f.key (cpuToBe row.key) (by omega)
  have hlen₃ : m₃.buf.length = m₂.buf.length := by rw [hb₃, length_splice (by simp; omega)]
  obtain ⟨m₄, hs₄, hb₄, ho₄, hl₄⟩ := m₃.store_spec f.flowId (cpuToBe row.flowId) (by omega)
  have ho : m₄.dataOff = m.dataOff := by omega
  -- a later store leaves the fields before and after it alone
  have past₁ : ∀ off n, off + n ≤ f.rowId → slice m₁.buf off n = slice m.buf off n := fun off n h =>
    hb₁ ▸ slice_splice_of_disjoint (by simp; omega) (Or.inl h)
  have past₂ : ∀ off n, off + n ≤ f.value → slice m₂.buf off n = slice m₁.buf off n := fun off n h =>
    hb₂ ▸ slice_splice_of_disjoint (by simp; omega) (Or.inl h)
  have past₃ : ∀ off n, off + n ≤ f.key ∨ f.key + c.keyBits / 8 ≤ off →
      slice m₃.buf off n = slice m₂.buf off n := fun off n h =>
    hb₃ ▸ slice_splice_of_disjoint (by simp; omega) (by simpa using h)
  have past₄ : ∀ off n, f.flowId + c.flowIdBits / 8 ≤ off → slice m₄.buf off n = slice m₃.buf off n :=
    fun off n h => hb₄ ▸ slice_splice_of_disjoint (by simp; omega) (Or.inr (by simpa using h))
  refine ⟨m₁, m₂, m₃, m₄, hs₁, hs₂, hs₃, hs₄, ⟨by omega, by omega, by omega, by omega, by omega⟩, ?_, ?_⟩
  · refine ⟨by rw [length_frame]; omega, ?_, ?_, ?_, ?_⟩ <;> rw [slice_frame _ (by omega), ho]
    · rw [← hflowId, hb₄, slice_splice (by simp; omega) (by simp)]
    · rw [← hrowId, past₄ _ _ (by omega), past₃ _ _ (by omega), past₂ _ _ (by omega), hb₁,
        slice_splice (by simp; omega) (by simp)]
    · rw [← hkey, past₄ _ _ (by omega), hb₃, slice_splice (by simp; omega) (by simp)]
    · rw [← Nat.add_assoc, ← hvalue, past₄ _ _ (by omega), past₃ _ _ (by omega), hb₂,
        slice_splice (by simp; omega) (by simp)]
  · intro hoff
    have hnone : c.flowIdBits = 0 := by rw [Config.flowIdBits, hoff]; rfl
    rw [slice_frame _ (by omega), slice_frame _ (by omega), ho, past₄ _ _ (by omega), past₃ _ _ (by omega),
      past₂ _ _ (by omega), past₁ _ _ (by omega)]

/-- A packet with its fields where they were may take the place of another. -/
theorem Crafted.set {stream : Stream} {mem : Mem} (h : Crafted c stream mem) {i : Nat} {m : Mbuf} {f : Fields}
    (ht : Template c m f) (hp : Points stream i f) : Crafted c stream (mem.set i m) := by
  refine ⟨by rw [List.length_set, h.length_mem], fun j hj => ?_⟩
  by_cases hji : j = i
  · subst hji
    exact ⟨m, f, List.getElem?_set_self (h.length_mem ▸ hj), ht, hp⟩
  · rw [List.getElem?_set_ne (Ne.symm hji)]
    exact h.packet j hj

/-- **`modify` fills one packet** with the given fields. -/
theorem modify_carries {stream : Stream} {mem : Mem} (h : Crafted c stream mem) {i : Nat}
    (hi : i < stream.packetCount) (row : Row c) :
    ∃ mem' m m', modify c stream i row mem = some mem' ∧ Crafted c stream mem' ∧ mem[i]? = some m ∧
      mem'[i]? = some m' ∧ Carries c m'.frame row ∧
      (c.useFlowId = false → slice m'.frame 42 2 = slice m.frame 42 2) ∧
      ∀ j, j ≠ i → mem'[j]? = mem[j]? := by
  obtain ⟨m, f, hm, ht, hp⟩ := h.packet i hi
  obtain ⟨m₁, m₂, m₃, m₄, hs₁, hs₂, hs₃, hs₄, ht₄, hrow, hflow⟩ := store_fields ht row
  have hlt : i < mem.length := h.length_mem ▸ hi
  have hself : mem.set i m = mem := by
    obtain ⟨-, rfl⟩ := List.getElem?_eq_some_iff.mp hm
    exact List.set_getElem_self hlt
  have hfirst : mem.store ⟨i, f.rowId⟩ (cpuToBe row.rowId) =
      (m.store f.rowId (cpuToBe row.rowId)).map (mem.set i) := by
    rw [← Mem.store_set hlt, hself]
  refine ⟨mem.set i m₄, m, m₄, ?_, h.set ht₄ hp, hm, by simp [hlt], hrow, hflow,
    fun j hj => List.getElem?_set_ne (Ne.symm hj)⟩
  simp only [modify, hp.rowId, hp.value, hp.key, hp.flowId, hfirst, Mem.store_set hlt, hs₁, hs₂, hs₃, hs₄,
    Option.map_some, Option.bind_eq_bind, Option.bind_some]

/-- **`modify` rewrites one packet.** -/
theorem modify_spec {stream : Stream} {mem : Mem} (h : Crafted c stream mem)
    (hc : c.unpackedBits = c.valueBits) {i : Nat} (hi : i < stream.packetCount) (row : Row c) :
    ∃ mem', modify c stream i row mem = some mem' ∧ Crafted c stream mem' ∧
      decoded c mem' i = some row ∧ ∀ j, j ≠ i → mem'[j]? = mem[j]? := by
  obtain ⟨mem', m, m', hmodify, hcrafted, -, hm', hrow, -, hold⟩ := modify_carries h hi row
  refine ⟨mem', hmodify, hcrafted, ?_, hold⟩
  rw [decoded, hm']
  exact hrow.unpackPayload_eq hc

end Packets
end Cheetah.Host.FastPacketStream
