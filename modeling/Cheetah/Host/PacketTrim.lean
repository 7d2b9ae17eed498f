import Cheetah.Host.PacketBatch

/-! Packets cut to the lengths they declare.

The header builders write the lengths of a payload of ten bytes, from before the payload
had a key. A receiver that believes them cuts the value off and reads whatever is behind
the packet in its place. -/
namespace Cheetah.Host.FastPacketStream
open Lib Lib.Bytes

/-- The `total_length` of the IPv4 header. -/
def totalLength (pkt : List Byte) : Option (BitVec 16) := (load 16 pkt 16).map beToCpu

/-- The `dgram_len` of the UDP header. -/
def dgramLen (pkt : List Byte) : Option (BitVec 16) := (load 16 pkt 38).map beToCpu

/-- A packet without what is behind the end it declares, first in its IPv4 header and then
in its UDP header. -/
def trim (pkt : List Byte) : Option (List Byte) := do
  let total ← totalLength pkt
  let dgram ← dgramLen pkt
  some ((pkt.take (14 + total.toNat)).take (14 + 20 + dgram.toNat))

section Trim
variable {state : ConnectionState} {pkt : List Byte}

/-- A packet declares what the header builders wrote. -/
theorem trim_eq (h : Headed state pkt) (hlen : 42 ≤ pkt.length) : trim pkt = some (pkt.take 52) := by
  have htotal : totalLength pkt = some datagramLength := by
    have hfield : slice pkt 16 (16 / 8) = image (cpuToBe datagramLength) :=
      h.ip (2, image (cpuToBe datagramLength)) (by simp [ipFields])
    rw [totalLength, load_field (by decide) (by omega) hfield, Option.map_some,
      beToCpu_cpuToBe (by decide)]
  have hdgram : dgramLen pkt = some udpDatagramLength := by
    have hfield : slice pkt 38 (16 / 8) = image (cpuToBe udpDatagramLength) :=
      h.udp (4, image (cpuToBe udpDatagramLength)) (by simp [udpFields])
    rw [dgramLen, load_field (by decide) (by omega) hfield, Option.map_some,
      beToCpu_cpuToBe (by decide)]
  rw [trim, htotal, hdgram]
  show some ((pkt.take 52).take 52) = some (pkt.take 52)
  rw [List.take_take, Nat.min_self]

/-- A range of the front of a list. -/
theorem slice_take_append {b tail : List Byte} {k off n : Nat} (hk : k ≤ b.length) (h : off + n ≤ k) :
    slice (b.take k ++ tail) off n = slice b off n := by
  rw [slice, slice, List.drop_append_of_le_length (by rw [List.length_take]; omega),
    List.take_append_of_le_length (by rw [List.length_drop, List.length_take]; omega), List.drop_take,
    List.take_take, Nat.min_eq_left (by omega)]

/-- The decoder of the shipped configuration, with its offsets. -/
theorem unpackPayload_shipped (pkt : List Byte) :
    unpackPayload shipped pkt =
      (load 16 pkt 42).bind fun flowId => (load 32 pkt 44).bind fun rowId =>
        (load 32 pkt 48).bind fun key => (load 32 pkt 52).bind fun value =>
          some ⟨(beToCpu flowId : BitVec 16), (beToCpu key : BitVec 32),
            ((beToCpu value).setWidth 32 : BitVec 32), beToCpu rowId⟩ := rfl

/-- What the decoder makes of a packet whose value was cut off: the value is whatever is
behind the cut. -/
theorem unpackPayload_trimmed {row : Row shipped} (h : Carries shipped pkt row) (tail : List Byte) :
    unpackPayload shipped (pkt.take 52 ++ tail) =
      if 4 ≤ tail.length then
        some {row with value := (beToCpu (ofImage 32 (tail.take 4)) : BitVec 32)}
      else none := by
  have hlen : pkt.length = 56 := h.length
  have hcut : (pkt.take 52 ++ tail).length = 52 + tail.length := by
    rw [List.length_append, List.length_take, hlen]
    rfl
  have hflowId : slice (pkt.take 52 ++ tail) 42 (16 / 8) = image (cpuToBe (row.flowId : BitVec 16)) := by
    rw [slice_take_append (by omega) (by decide)]
    exact h.flowId
  have hrowId : slice (pkt.take 52 ++ tail) 44 (32 / 8) = image (cpuToBe row.rowId) := by
    rw [slice_take_append (by omega) (by decide)]
    exact h.rowId
  have hkey : slice (pkt.take 52 ++ tail) 48 (32 / 8) = image (cpuToBe (row.key : BitVec 32)) := by
    rw [slice_take_append (by omega) (by decide)]
    exact h.key
  have hvalue : slice (pkt.take 52 ++ tail) 52 4 = tail.take 4 := by
    rw [slice, List.drop_left' (by rw [List.length_take, hlen]; rfl)]
  have hload : load 32 (pkt.take 52 ++ tail) 52 =
      if 4 ≤ tail.length then some (ofImage 32 (tail.take 4)) else none := by
    have hiff : 52 + 32 / 8 ≤ (pkt.take 52 ++ tail).length ↔ 4 ≤ tail.length := by omega
    rw [load, hvalue]
    exact if_congr hiff rfl rfl
  have hflowId' := load_field (w := 16) (by decide) (by omega) hflowId
  have hrowId' := load_field (w := 32) (by decide) (by omega) hrowId
  have hkey' := load_field (w := 32) (by decide) (by omega) hkey
  have hflow : (beToCpu (cpuToBe (row.flowId : BitVec 16)) : BitVec 16) = row.flowId :=
    beToCpu_cpuToBe (by decide) _
  have hkey'' : (beToCpu (cpuToBe (row.key : BitVec 32)) : BitVec 32) = row.key :=
    beToCpu_cpuToBe (by decide) _
  rw [unpackPayload_shipped, hflowId', hrowId', hkey', hload]
  split
  · simp only [Option.bind_some, BitVec.setWidth_eq, beToCpu_cpuToBe (w := 32) (by decide) row.rowId]
    exact congrArg some (Row.mk.injEq .. ▸ ⟨hflow, hkey'', rfl, rfl⟩)
  · rfl

/-- Which bytes a word in network byte order is read from. -/
theorem beToCpu_ofImage_eq_iff {w : Nat} (hw : 8 ∣ w) {bs : List Byte} (hlen : bs.length = w / 8)
    {x : BitVec w} : beToCpu (ofImage w bs) = x ↔ bs = image (cpuToBe x) := by
  constructor
  · intro hx
    rw [← hx, beToCpu, cpuToBe, byteSwap_byteSwap hw, image_ofImage hw hlen]
  · intro hbytes
    rw [hbytes, ofImage_image hw, beToCpu_cpuToBe hw]

/-- The value comes back from behind the cut when its bytes happen to be there. -/
theorem unpackPayload_trimmed_iff {row : Row shipped} (h : Carries shipped pkt row) (tail : List Byte) :
    unpackPayload shipped (pkt.take 52 ++ tail) = some row ↔
      tail.take 4 = image (cpuToBe (row.value : BitVec 32)) := by
  rw [unpackPayload_trimmed h]
  by_cases htail : 4 ≤ tail.length
  · have hfour : (tail.take 4).length = 32 / 8 := List.length_take_of_le htail
    rw [if_pos htail, Option.some.injEq]
    refine Iff.trans ?_ (beToCpu_ofImage_eq_iff (by decide) hfour)
    constructor
    · intro heq
      exact congrArg Row.value heq
    · intro hvalue
      rw [hvalue]
  · rw [if_neg htail]
    constructor
    · intro hnone
      cases hnone
    · intro hbytes
      have hfour : (tail.take 4).length = 4 := by
        rw [hbytes]
        exact length_image (w := 32) _
      rw [List.length_take] at hfour
      omega

/-- **A packet cut to its declared lengths** still gives its row back exactly when the four
bytes found behind the cut are those of the value; nothing behind it is never enough. -/
theorem trimmed_decodes_iff (state : ConnectionState) (pool : Mempool) {packetCount : Nat}
    (earlier : List (Nat × Row shipped)) (hin : ∀ fill ∈ earlier, fill.1 < packetCount) {i : Nat}
    (hi : i < packetCount) (row : Row shipped) :
    ∃ stream mem m pkt, Filled shipped state pool packetCount earlier i row stream mem ∧
      mem[i]? = some m ∧ trim m.frame = some pkt ∧
      ∀ tail, unpackPayload shipped (pkt ++ tail) = some row ↔
        tail.take 4 = image (cpuToBe (row.value : BitVec 32)) := by
  obtain ⟨stream, mem, m, hfilled, hm, hrow, hheaded⟩ := filled_headed state pool earlier hin hi row
  have hlen : m.frame.length = 56 := hrow.length
  exact ⟨stream, mem, m, m.frame.take 52, hfilled, hm, trim_eq hheaded (by omega),
    unpackPayload_trimmed_iff hrow⟩

end Trim

/-- A value of 0 survives the cut when the packet is padded with zeros. -/
theorem trimmed_decodes_iff_zero :
    ∃ stream mem m pkt, Filled shipped ControlFlow.zeroState ControlFlow.zeroPool 1 [] 0
        ⟨(5 : BitVec 16), (6 : BitVec 32), (0 : BitVec 32), 8⟩ stream mem ∧
      mem[0]? = some m ∧ trim m.frame = some pkt ∧
      ∀ tail, unpackPayload shipped (pkt ++ tail) =
          some ⟨(5 : BitVec 16), (6 : BitVec 32), (0 : BitVec 32), 8⟩ ↔
        tail.take 4 = image (cpuToBe (0 : BitVec 32)) :=
  trimmed_decodes_iff ControlFlow.zeroState ControlFlow.zeroPool [] (by simp) (by decide)
    ⟨(5 : BitVec 16), (6 : BitVec 32), (0 : BitVec 32), 8⟩

/-- Cut to its declared lengths a packet with the value 7 gives nothing back, and with the
padding of a short Ethernet frame the value 0. -/
theorem value_cut_off :
    ∃ stream mem m pkt, Filled shipped ControlFlow.zeroState ControlFlow.zeroPool 1 [] 0
        ⟨(5 : BitVec 16), (6 : BitVec 32), (7 : BitVec 32), 8⟩ stream mem ∧
      mem[0]? = some m ∧ trim m.frame = some pkt ∧ unpackPayload shipped pkt = none ∧
      unpackPayload shipped (pkt ++ List.replicate 8 0) =
        some ⟨(5 : BitVec 16), (6 : BitVec 32), (0 : BitVec 32), 8⟩ := by
  obtain ⟨stream, mem, m, hfilled, hm, hrow, hheaded⟩ := filled_headed (c := shipped) ControlFlow.zeroState
    ControlFlow.zeroPool [] (by simp) (show 0 < 1 by decide)
    ⟨(5 : BitVec 16), (6 : BitVec 32), (7 : BitVec 32), 8⟩
  have hlen : m.frame.length = 56 := hrow.length
  refine ⟨stream, mem, m, m.frame.take 52, hfilled, hm, trim_eq hheaded (by omega), ?_, ?_⟩
  · have hcut := unpackPayload_trimmed hrow []
    rwa [List.append_nil] at hcut
  · rw [unpackPayload_trimmed hrow]
    rfl

end Cheetah.Host.FastPacketStream
