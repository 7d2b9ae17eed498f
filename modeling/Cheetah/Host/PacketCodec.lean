import Cheetah.Host.ControlFlow

/-! What the packets of a stream carry in every build configuration.

`Filled` is how a packet comes about: `create` makes the stream, some rewrites go by and
`modify` fills the packet. Its payload then is the row, field after field, and
`cheetah_unpack_payload` gives the row back unless it reads the value at half its width. -/
namespace Cheetah.Host.FastPacketStream
open Lib Lib.Bytes

section Codec
variable {c : Config}

/-- A sequence of calls of `cheetah_fast_packet_stream_modify`. -/
def modifyAll (c : Config) (stream : Stream) : List (Nat × Row c) → Mem → Option Mem
  | [], mem => some mem
  | (i, row) :: rest, mem => do modifyAll c stream rest (← modify c stream i row mem)

/-- `create`, some rewrites and then `modify` with `row` for packet `i`. -/
def Filled (c : Config) (state : ConnectionState) (pool : Mempool) (packetCount : Nat)
    (earlier : List (Nat × Row c)) (i : Nat) (row : Row c) (stream : Stream) (mem : Mem) : Prop :=
  ∃ fresh before, create c state pool packetCount = some (stream, fresh) ∧
    modifyAll c stream earlier fresh = some before ∧ modify c stream i row before = some mem

/-- The flow id a packet says: without the macro it is the default one. -/
def sentFlowId (row : Row c) : BitVec 16 :=
  if c.useFlowId then row.flowId.setWidth 16 else defaultFlowId

/-- A row on the wire. -/
def payload (row : Row c) : List Byte :=
  image (cpuToBe (sentFlowId row)) ++ image (cpuToBe row.rowId) ++ image (cpuToBe row.key) ++
    image (cpuToBe row.value)

/-- A word of a width known only by an equation. -/
theorem image_setWidth {w v : Nat} (h : w = v) (x : BitVec w) :
    image (cpuToBe (x.setWidth v)) = image (cpuToBe x) := by
  subst h
  rw [BitVec.setWidth_eq]

/-- Behind the headers a packet is its payload. -/
theorem drop_frame {m : Mbuf} {row : Row c} (h : Carries c m.frame row) (hlabel : Labelled c m) :
    m.frame.drop 42 = payload row := by
  have hflowId : slice m.frame 42 2 = image (cpuToBe (sentFlowId row)) := by
    unfold sentFlowId
    cases huse : c.useFlowId with
    | true =>
      have hbits : c.flowIdBits = 16 := by rw [Config.flowIdBits, huse, if_pos rfl]
      rw [if_pos rfl, image_setWidth hbits, ← h.flowId, hbits]
    | false =>
      rw [if_neg Bool.false_ne_true]
      exact hlabel huse
  have hlen := h.length
  unfold Config.frameLength at hlen
  have hall : m.frame.drop 42 = slice m.frame 42 (2 + 4 + c.keyBits / 8 + c.valueBits / 8) := by
    rw [slice, List.take_of_length_le]
    rw [List.length_drop, hlen]
    omega
  rw [hall, ← slice_append_slice, ← slice_append_slice, ← slice_append_slice, hflowId, payload, ← h.rowId,
    ← h.key, ← h.value, show 42 + (2 + 4 + c.keyBits / 8) = 48 + c.keyBits / 8 from by omega]

/-- Any rewrites keep the packets in shape. -/
theorem modifyAll_spec {stream : Stream} {mem : Mem} (h : Crafted c stream mem)
    (hlabels : ∀ m ∈ mem, Labelled c m) (fills : List (Nat × Row c))
    (hin : ∀ fill ∈ fills, fill.1 < stream.packetCount) :
    ∃ mem', modifyAll c stream fills mem = some mem' ∧ Crafted c stream mem' ∧
      ∀ m ∈ mem', Labelled c m := by
  induction fills generalizing mem with
  | nil => exact ⟨mem, rfl, h, hlabels⟩
  | cons fill rest ih =>
    obtain ⟨i, row⟩ := fill
    obtain ⟨mem₁, m, m₁, hmodify, hcrafted, hm, hm₁, -, hflow, hold⟩ :=
      modify_carries h (hin (i, row) (List.mem_cons_self ..)) row
    have hlabels₁ : ∀ m' ∈ mem₁, Labelled c m' := by
      intro m' hm'
      obtain ⟨j, hj⟩ := List.mem_iff_getElem?.mp hm'
      by_cases hji : j = i
      · subst hji
        obtain rfl : m₁ = m' := Option.some.inj (hm₁.symm.trans hj)
        exact fun hno => (hflow hno).trans (hlabels m (List.mem_of_getElem? hm) hno)
      · exact hlabels m' (List.mem_of_getElem? ((hold j hji).symm.trans hj))
    obtain ⟨mem', hrest, hcrafted', hlabels'⟩ :=
      ih hcrafted hlabels₁ fun fill hfill => hin fill (List.mem_cons_of_mem _ hfill)
    exact ⟨mem', by rw [modifyAll, hmodify]; exact hrest, hcrafted', hlabels'⟩

/-- **A filled packet** carries the row under its flow id. -/
theorem filled_spec (state : ConnectionState) (pool : Mempool) {packetCount : Nat}
    (earlier : List (Nat × Row c)) (hin : ∀ fill ∈ earlier, fill.1 < packetCount) {i : Nat}
    (hi : i < packetCount) (row : Row c) :
    ∃ stream mem m, Filled c state pool packetCount earlier i row stream mem ∧ mem[i]? = some m ∧
      Carries c m.frame row ∧ Labelled c m := by
  obtain ⟨stream, fresh, hcreate, hcount, hcrafted⟩ := create_spec (c := c) state pool packetCount
  obtain ⟨before, hall, hcrafted', hlabels⟩ :=
    modifyAll_spec hcrafted (create_labelled hcreate) earlier (by rwa [hcount])
  obtain ⟨mem, m, m', hmodify, -, hm, hm', hrow, hflow, -⟩ := modify_carries hcrafted' (hcount ▸ hi) row
  exact ⟨stream, mem, m', ⟨fresh, before, hcreate, hall, hmodify⟩, hm', hrow,
    fun hno => (hflow hno).trans (hlabels m (List.mem_of_getElem? hm) hno)⟩

/-- What `cheetah_unpack_payload` takes out of a filled packet. -/
theorem filled_decoded (state : ConnectionState) (pool : Mempool) {packetCount : Nat}
    (earlier : List (Nat × Row c)) (hin : ∀ fill ∈ earlier, fill.1 < packetCount) {i : Nat}
    (hi : i < packetCount) (row : Row c) :
    ∃ stream mem, Filled c state pool packetCount earlier i row stream mem ∧
      decoded c mem i = some {row with value := row.value >>> (c.valueBits - c.unpackedBits)} := by
  obtain ⟨stream, mem, m, hfilled, hm, hrow, -⟩ := filled_spec state pool earlier hin hi row
  refine ⟨stream, mem, hfilled, ?_⟩
  rw [decoded, hm]
  exact hrow.unpackPayload

/-- A word loses nothing in a shift when it is not shifted or is 0. -/
theorem ushiftRight_eq_self_iff {w : Nat} (x : BitVec w) (k : Nat) : x >>> k = x ↔ k = 0 ∨ x = 0 := by
  rw [← BitVec.toNat_inj, ← BitVec.toNat_inj, BitVec.toNat_ushiftRight, Nat.shiftRight_eq_div_pow]
  constructor
  · intro h
    by_cases hx : x.toNat = 0
    · exact Or.inr hx
    · rcases Nat.div_eq_self.mp h with h | h
      · exact absurd h hx
      · exact Or.inl ((Nat.pow_eq_one.mp h).resolve_left (by decide))
  · intro h
    rcases h with rfl | h
    · rw [pow_zero, Nat.div_one]
    · simp [h]

/-- The value is read at the width it was written at, unless it is a string read as a word. -/
theorem unpackedBits_eq_iff :
    c.valueBits - c.unpackedBits = 0 ↔ c.use64BitValues = true ∨ c.useStringValues = false := by
  unfold Config.valueBits Config.unpackedBits
  cases c.use64BitValues <;> cases c.useStringValues <;> decide

/-- **The codec's round trip.** A filled packet gives its row back exactly when the values
are 64-bit values or no strings, or this value is 0. -/
theorem round_trip_iff (state : ConnectionState) (pool : Mempool) {packetCount : Nat}
    (earlier : List (Nat × Row c)) (hin : ∀ fill ∈ earlier, fill.1 < packetCount) {i : Nat}
    (hi : i < packetCount) (row : Row c) :
    ∃ stream mem, Filled c state pool packetCount earlier i row stream mem ∧
      (decoded c mem i = some row ↔
        c.use64BitValues = true ∨ c.useStringValues = false ∨ row.value = 0) := by
  obtain ⟨stream, mem, hfilled, hdecoded⟩ := filled_decoded state pool earlier hin hi row
  refine ⟨stream, mem, hfilled, ?_⟩
  have hrow : ({row with value := row.value >>> (c.valueBits - c.unpackedBits)} : Row c) = row ↔
      row.value >>> (c.valueBits - c.unpackedBits) = row.value := by
    constructor
    · intro h
      exact congrArg Row.value h
    · intro h
      rw [h]
  rw [hdecoded, Option.some.injEq, hrow, ushiftRight_eq_self_iff, unpackedBits_eq_iff, or_assoc]

end Codec

/-- A string build with flow ids and keys. -/
def stringValues : Config := ⟨true, true, false, true⟩

/-- A packet rewritten twice, in the shipped configuration. -/
theorem round_trip_shipped :
    ∃ stream mem, Filled shipped ControlFlow.zeroState ControlFlow.zeroPool 1
        [(0, ⟨(1 : BitVec 16), (2 : BitVec 32), (3 : BitVec 32), 4⟩)] 0
        ⟨(5 : BitVec 16), (6 : BitVec 32), (7 : BitVec 32), 8⟩ stream mem ∧
      (decoded shipped mem 0 = some ⟨(5 : BitVec 16), (6 : BitVec 32), (7 : BitVec 32), 8⟩ ↔
        shipped.use64BitValues = true ∨ shipped.useStringValues = false ∨ (7 : BitVec 32) = 0) :=
  round_trip_iff (c := shipped) ControlFlow.zeroState ControlFlow.zeroPool
    [(0, ⟨(1 : BitVec 16), (2 : BitVec 32), (3 : BitVec 32), 4⟩)] (by decide) (by decide)
    ⟨(5 : BitVec 16), (6 : BitVec 32), (7 : BitVec 32), 8⟩

/-- With string values the value 1 comes back as 0. -/
theorem string_value_lost :
    ∃ stream mem, Filled stringValues ControlFlow.zeroState ControlFlow.zeroPool 1 [] 0
        ⟨(1 : BitVec 16), (2 : BitVec 32), (1 : BitVec 64), 3⟩ stream mem ∧
      decoded stringValues mem 0 = some ⟨(1 : BitVec 16), (2 : BitVec 32), (0 : BitVec 64), 3⟩ ∧
      decoded stringValues mem 0 ≠ some ⟨(1 : BitVec 16), (2 : BitVec 32), (1 : BitVec 64), 3⟩ := by
  obtain ⟨stream, mem, hfilled, hdecoded⟩ := filled_decoded (c := stringValues) ControlFlow.zeroState
    ControlFlow.zeroPool [] (by simp) (show 0 < 1 by decide)
    ⟨(1 : BitVec 16), (2 : BitVec 32), (1 : BitVec 64), 3⟩
  refine ⟨stream, mem, hfilled, hdecoded, ?_⟩
  rw [hdecoded]
  decide

end Cheetah.Host.FastPacketStream
