import Cheetah.Host.PacketHeaders
import Cheetah.Lib.Buffer

/-! `packet_stream_receiver.c`: the rows of a burst of frames.

The receiver takes every frame apart at the offsets of a Cheetah packet and asks neither
what the frame is nor how long it is; what lies behind a short frame in its buffer is read
as well. The rows are right exactly when the burst has Cheetah packets only, with their
payloads where the decoder looks. -/
namespace Cheetah.Host.StreamReceiver
open Lib Lib.Bytes Mbuf

/-! ### Code -/

/-- An mbuf of a receive pool: a frame behind the headroom. -/
structure RxMbuf extends Mbuf where
  length_buf : buf.length = mbufDataSize
  dataOff_eq : dataOff = headroom

/-- `struct cheetah_packet_stream_receiver`, without its array of mbufs. -/
structure Receiver (c : Config) where
  payloadRowIdArr : Buffer (BitVec 32)
  payloadValueArr : Buffer (BitVec c.valueBits)
  payloadKeyArr : Buffer (BitVec c.keyBits)
  payloadFlowIdArr : Buffer (BitVec c.flowIdBits)
  packetBatchSize : Nat

section Code
variable {c : Config}

/-- `cheetah_packet_stream_receiver_create`. -/
def receiverCreate (c : Config) (packetBatchSize : Nat) : Receiver c :=
  ⟨Buffer.malloc packetBatchSize, Buffer.malloc packetBatchSize, Buffer.malloc packetBatchSize,
    Buffer.malloc packetBatchSize, packetBatchSize⟩

/-- One turn of the loop. The decoder reads the buffer, wherever the frame ends. -/
def receiveOne (r : Receiver c) (i : Nat) (mbuf : RxMbuf) : Option (Receiver c) := do
  let row ← unpackPayload c (mbuf.buf.drop mbuf.dataOff)
  let payloadRowIdArr ← r.payloadRowIdArr.write i row.rowId
  let payloadValueArr ← r.payloadValueArr.write i row.value
  let payloadKeyArr ← r.payloadKeyArr.write i row.key
  let payloadFlowIdArr ← r.payloadFlowIdArr.write i row.flowId
  some ⟨payloadRowIdArr, payloadValueArr, payloadKeyArr, payloadFlowIdArr, r.packetBatchSize⟩

/-- The loop over the frames from `i` on. -/
def receiveFrom (r : Receiver c) (i : Nat) : List RxMbuf → Option (Receiver c)
  | [] => some r
  | mbuf :: rest => do receiveFrom (← receiveOne r i mbuf) (i + 1) rest

/-- `cheetah_packet_stream_receiver_receive`, given the burst of `rte_eth_rx_burst`: the
receiver and `packets_received`. -/
def receive (r : Receiver c) (burst : List RxMbuf) : Option (Receiver c × Nat) := do
  some (← receiveFrom r 0 burst, burst.length)

/-- What the master reads at one index of the arrays. -/
def Receiver.row (r : Receiver c) (i : Nat) : Option (Row c) := do
  some ⟨← r.payloadFlowIdArr.read i, ← r.payloadKeyArr.read i, ← r.payloadValueArr.read i,
    ← r.payloadRowIdArr.read i⟩

/-- The rows the loop of `cheetah_control_flow_master` goes through. -/
def exposed (r : Receiver c) (packetsReceived : Nat) : List (Option (Row c)) :=
  (List.range packetsReceived).map r.row

end Code

/-! ### Cheetah packets -/

/-- An unfragmented IPv4 packet with a UDP datagram for port 4242 that is long enough for a
payload. -/
def isCheetah (c : Config) (pkt : List Byte) : Bool :=
  match load 16 pkt 12, load 8 pkt 14, load 16 pkt 20, load 8 pkt 23 with
  | some etherType, some versionIhl, some fragmentOffset, some nextProtoId =>
    let hdr := 4 * (versionIhl.toNat % 16)
    beToCpu etherType = 0x0800 && versionIhl.toNat / 16 = 4 && decide (20 ≤ hdr) &&
      beToCpu fragmentOffset &&& 0x1fff = 0 && nextProtoId = 0x11 &&
      (load 16 pkt (14 + hdr + 2)).map beToCpu = some 4242 &&
      decide (14 + hdr + 8 + (2 + 4 + c.keyBits / 8 + c.valueBits / 8) ≤ pkt.length)
  | _, _, _, _ => false

/-- The bytes of the options between an IPv4 header and what it carries. -/
def optionsLength (pkt : List Byte) : Nat := 4 * (((load 8 pkt 14).getD 0x45).toNat % 16) - 20

/-- The row a Cheetah packet carries: options move its payload back. -/
def payloadRow (c : Config) (pkt : List Byte) : Option (Row c) :=
  unpackPayload c (pkt.drop (optionsLength pkt))

section Frames
variable {c : Config} {pkt : List Byte}

theorem isCheetah_length (h : isCheetah c pkt = true) :
    c.frameLength + optionsLength pkt ≤ pkt.length := by
  unfold isCheetah at h
  split at h
  · rename_i versionIhl _ _ _ hversion _ _
    simp only [Bool.and_eq_true, decide_eq_true_eq] at h
    obtain ⟨⟨⟨⟨⟨⟨_, _⟩, hhdr⟩, _⟩, _⟩, _⟩, hlen⟩ := h
    have hoptions : optionsLength pkt = 4 * (versionIhl.toNat % 16) - 20 := by
      rw [optionsLength, hversion, Option.getD_some]
    unfold Config.frameLength
    omega
  · cases h

/-- A field of the IPv4 header, where it is. -/
theorem load_ip {state : ConnectionState} (h : Headed state pkt) (hlen : 34 ≤ pkt.length) {w : Nat}
    {x : BitVec w} (off : Nat) (hw : 8 ∣ w) (hmem : (off, image x) ∈ ipFields) (hin : 14 + off + w / 8 ≤ 34) :
    load w pkt (14 + off) = some x := by
  have hfield := h.ip (off, image x) hmem
  rw [length_image] at hfield
  rw [load, if_pos (by omega), hfield, ofImage_image hw]

/-- What the host sends to port 4242 is a Cheetah packet. -/
theorem isCheetah_of_headed {state : ConnectionState} (h : Headed state pkt)
    (hport : state.udpDestinationPort = 4242) (hlen : c.frameLength ≤ pkt.length) :
    isCheetah c pkt = true := by
  unfold Config.frameLength at hlen
  have hether : load 16 pkt 12 = some (cpuToBe (0x0800 : BitVec 16)) :=
    load_field (by decide) (by omega)
      (h.ether (12, image (cpuToBe (0x0800 : BitVec 16))) (by simp [etherFields]))
  have hversion : load 8 pkt 14 = some (0x40 ||| 0x05) :=
    load_ip h (by omega) 0 (by decide) (by simp [ipFields]) (by decide)
  have hfragment : load 16 pkt 20 = some (cpuToBe 0) :=
    load_ip h (by omega) 6 (by decide) (by simp [ipFields]) (by decide)
  have hproto : load 8 pkt 23 = some 0x11 :=
    load_ip h (by omega) 9 (by decide) (by simp [ipFields]) (by decide)
  have hdst : load 16 pkt (14 + 4 * ((0x40 ||| 0x05 : BitVec 8).toNat % 16) + 2) =
      some (cpuToBe (4242 : BitVec 16)) := by
    rw [← hport]
    exact load_field (by decide) (by simp; omega)
      (h.udp (2, image (cpuToBe state.udpDestinationPort)) (by simp [udpFields]))
  unfold isCheetah
  rw [hether, hversion, hfragment, hproto]
  simp only [hdst, Option.map_some, Bool.and_eq_true, decide_eq_true_eq]
  exact ⟨⟨⟨⟨⟨⟨beToCpu_cpuToBe (by decide) _, by decide⟩, by decide⟩, by decide⟩, by decide⟩,
    congrArg some (beToCpu_cpuToBe (by decide) _)⟩, by simp; omega⟩

/-- The host sends no options. -/
theorem optionsLength_of_headed {state : ConnectionState} (h : Headed state pkt) (hlen : 34 ≤ pkt.length) :
    optionsLength pkt = 0 := by
  have hversion : load 8 pkt 14 = some (0x40 ||| 0x05) :=
    load_ip h hlen 0 (by decide) (by simp [ipFields]) (by decide)
  rw [optionsLength, hversion]
  decide

end Frames

/-! ### What the decoder reads -/

section Decoder
variable {c : Config} {pkt : List Byte}

/-- The bytes of a packet the decoder needs. -/
def decodedLength (c : Config) : Nat := 48 + c.keyBits / 8 + c.unpackedBits / 8

theorem decodedLength_le (c : Config) : decodedLength c ≤ c.frameLength := by
  have hle := Nat.div_le_div_right (c := 8) c.unpackedBits_le
  unfold decodedLength Config.frameLength
  omega

theorem load_eq {w off : Nat} (h : off + w / 8 ≤ pkt.length) :
    load w pkt off = some (ofImage w (slice pkt off (w / 8))) := if_pos h

/-- A packet that is long enough is taken apart whatever its bytes are. -/
theorem unpackPayload_eq (h : decodedLength c ≤ pkt.length) : unpackPayload c pkt = some
    ⟨beToCpu (ofImage c.flowIdBits (slice pkt 42 (c.flowIdBits / 8))),
      beToCpu (ofImage c.keyBits (slice pkt 48 (c.keyBits / 8))),
      (beToCpu (ofImage c.unpackedBits (slice pkt (48 + c.keyBits / 8) (c.unpackedBits / 8)))).setWidth
        c.valueBits,
      beToCpu (ofImage 32 (slice pkt 44 (32 / 8)))⟩ := by
  have hflow := c.flowIdBits_le
  unfold decodedLength at h
  unfold unpackPayload
  simp only [Option.bind_eq_bind]
  rw [load_eq (by omega), Option.bind_some, load_eq (by omega), Option.bind_some, load_eq (by omega),
    Option.bind_some, load_eq (by omega), Option.bind_some]

/-- Where the decoder finds the fields, and how long they are. -/
def payloadFields (c : Config) : List (Nat × Nat) :=
  [(42, c.flowIdBits / 8), (44, 4), (48, c.keyBits / 8), (48 + c.keyBits / 8, c.unpackedBits / 8)]

/-- The places of the fields in `pkt` hold the fields of its payload: it has no options, or
the bytes happen to be the same. -/
def AtPlace (c : Config) (pkt : List Byte) : Prop :=
  ∀ field ∈ payloadFields c,
    slice pkt field.1 field.2 = slice pkt (field.1 + optionsLength pkt) field.2

theorem atPlace_of_headed {state : ConnectionState} (h : Headed state pkt) (hlen : 34 ≤ pkt.length) :
    AtPlace c pkt := by
  intro field _
  rw [optionsLength_of_headed h hlen, Nat.add_zero]

/-- A word in network byte order is the one it is stored as. -/
theorem beToCpu_inj {w n : Nat} (hw : 8 ∣ w) (hn : n = w / 8) {pkt' : List Byte} {off off' : Nat}
    (h : off + n ≤ pkt.length) (h' : off' + n ≤ pkt'.length) :
    beToCpu (ofImage w (slice pkt off n)) = beToCpu (ofImage w (slice pkt' off' n)) ↔
      slice pkt off n = slice pkt' off' n := by
  subst hn
  constructor
  · intro heq
    have hword := congrArg byteSwap heq
    rw [beToCpu, beToCpu, byteSwap_byteSwap hw, byteSwap_byteSwap hw] at hword
    have himage := congrArg image hword
    rwa [image_ofImage hw (length_slice h), image_ofImage hw (length_slice h')] at himage
  · intro heq
    rw [heq]

theorem setWidth_inj {u w : Nat} (h : u ≤ w) {x y : BitVec u} : x.setWidth w = y.setWidth w ↔ x = y := by
  constructor
  · intro heq
    have hnat := congrArg BitVec.toNat heq
    rw [BitVec.toNat_setWidth_of_le h, BitVec.toNat_setWidth_of_le h] at hnat
    exact BitVec.eq_of_toNat_eq hnat
  · intro heq
    rw [heq]

/-- The decoder reads the payload of a packet exactly when that is where it looks. -/
theorem unpackPayload_eq_payloadRow_iff (h : c.frameLength + optionsLength pkt ≤ pkt.length) :
    unpackPayload c pkt = payloadRow c pkt ↔ AtPlace c pkt := by
  have hle := decodedLength_le c
  have hflow := c.flowIdBits_le
  have hdecoded : 48 + c.keyBits / 8 + c.unpackedBits / 8 + optionsLength pkt ≤ pkt.length := by
    unfold decodedLength at hle
    omega
  have hslice : ∀ off n, slice (pkt.drop (optionsLength pkt)) off n = slice pkt (off + optionsLength pkt) n := by
    intro off n
    rw [slice, slice, List.drop_drop, Nat.add_comm]
  rw [payloadRow, unpackPayload_eq (by omega), unpackPayload_eq (by rw [List.length_drop]; omega),
    Option.some.injEq, Row.mk.injEq, setWidth_inj c.unpackedBits_le]
  simp only [hslice]
  rw [beToCpu_inj c.dvd_flowIdBits rfl (by omega) (by omega),
    beToCpu_inj c.dvd_keyBits rfl (by omega) (by omega),
    beToCpu_inj c.dvd_unpackedBits rfl (by omega) (by omega),
    beToCpu_inj (by decide) rfl (by omega) (by omega)]
  simp only [AtPlace, payloadFields, List.forall_mem_cons, List.not_mem_nil, false_implies, implies_true,
    and_true]
  constructor
  · intro hall
    obtain ⟨hflowId, hkey, hvalue, hrowId⟩ := hall
    exact ⟨hflowId, hrowId, hkey, hvalue⟩
  · intro hall
    obtain ⟨hflowId, hrowId, hkey, hvalue⟩ := hall
    exact ⟨hflowId, hkey, hvalue, hrowId⟩

theorem load_append {w off : Nat} {x : BitVec w} (h : load w pkt off = some x) (rest : List Byte) :
    load w (pkt ++ rest) off = some x := by
  unfold load at h
  split at h
  · rename_i hin
    rw [load_eq (by rw [List.length_append]; omega), slice, List.drop_append_of_le_length (by omega),
      List.take_append_of_le_length (by rw [List.length_drop]; omega)]
    exact h
  · cases h

/-- What is behind a packet does not matter when the decoder stays inside. -/
theorem unpackPayload_append {row : Row c} (h : unpackPayload c pkt = some row) (rest : List Byte) :
    unpackPayload c (pkt ++ rest) = some row := by
  obtain ⟨flowId, hflowId, h⟩ := Option.bind_eq_some_iff.mp h
  obtain ⟨rowId, hrowId, h⟩ := Option.bind_eq_some_iff.mp h
  obtain ⟨key, hkey, h⟩ := Option.bind_eq_some_iff.mp h
  obtain ⟨value, hvalue, h⟩ := Option.bind_eq_some_iff.mp h
  unfold unpackPayload
  simp only [Option.bind_eq_bind]
  rw [load_append hflowId, Option.bind_some, load_append hrowId, Option.bind_some, load_append hkey,
    Option.bind_some, load_append hvalue, Option.bind_some]
  exact h

/-- The buffer from the start of the frame on. -/
theorem drop_buf (m : Mbuf) : m.buf.drop m.dataOff = m.frame ++ m.buf.drop (m.dataOff + m.dataLen) := by
  rw [Mbuf.frame, slice, ← List.drop_drop, List.take_append_drop]

/-- When the decoder has a row of the frame alone, what is behind the frame does not matter. -/
theorem unpackPayload_frame {m : Mbuf} (h : (unpackPayload c m.frame).isSome) :
    unpackPayload c (m.buf.drop m.dataOff) = unpackPayload c m.frame := by
  obtain ⟨row, hrow⟩ := Option.isSome_iff_exists.mp h
  rw [drop_buf, unpackPayload_append hrow, hrow]

/-- A buffer is long enough for the decoder wherever the frame ends. -/
theorem RxMbuf.unpackPayload_isSome (mbuf : RxMbuf) :
    ∃ row, unpackPayload c (mbuf.buf.drop mbuf.dataOff) = some row := by
  have hframe := c.frameLength_le
  have hle := decodedLength_le c
  unfold headroom at hframe
  refine ⟨_, unpackPayload_eq ?_⟩
  rw [List.length_drop, mbuf.length_buf, mbuf.dataOff_eq]
  unfold mbufDataSize headroom
  omega

end Decoder

/-! ### A burst -/

section Burst
variable {c : Config}

/-- The rows of the burst, and the room for more. -/
structure Received (rows : List (Row c)) (r : Receiver c) : Prop where
  rowIds : r.payloadRowIdArr.Holds (rows.map Row.rowId)
  values : r.payloadValueArr.Holds (rows.map Row.value)
  keys : r.payloadKeyArr.Holds (rows.map Row.key)
  flowIds : r.payloadFlowIdArr.Holds (rows.map Row.flowId)
  rowIdRoom : r.payloadRowIdArr.length = r.packetBatchSize
  valueRoom : r.payloadValueArr.length = r.packetBatchSize
  keyRoom : r.payloadKeyArr.length = r.packetBatchSize
  flowIdRoom : r.payloadFlowIdArr.length = r.packetBatchSize

theorem received_create (c : Config) (packetBatchSize : Nat) :
    Received [] (receiverCreate c packetBatchSize) where
  rowIds := Buffer.holds_nil _
  values := Buffer.holds_nil _
  keys := Buffer.holds_nil _
  flowIds := Buffer.holds_nil _
  rowIdRoom := List.length_replicate
  valueRoom := List.length_replicate
  keyRoom := List.length_replicate
  flowIdRoom := List.length_replicate

/-- The rows of an earlier burst are overwritten. -/
theorem Received.restart {rows : List (Row c)} {r : Receiver c} (h : Received rows r) : Received [] r :=
  { h with
    rowIds := Buffer.holds_nil _
    values := Buffer.holds_nil _
    keys := Buffer.holds_nil _
    flowIds := Buffer.holds_nil _ }

/-- One frame is one row, whatever it is. -/
theorem receiveOne_spec {rows : List (Row c)} {r : Receiver c} (h : Received rows r)
    (hroom : rows.length < r.packetBatchSize) (mbuf : RxMbuf) {row : Row c}
    (hrow : unpackPayload c (mbuf.buf.drop mbuf.dataOff) = some row) :
    ∃ r', receiveOne r rows.length mbuf = some r' ∧ Received (rows ++ [row]) r' ∧
      r'.packetBatchSize = r.packetBatchSize := by
  obtain ⟨rowIds, hw₁, hh₁, hl₁⟩ := h.rowIds.push_map (by rw [h.rowIdRoom]; exact hroom) row
  obtain ⟨values, hw₂, hh₂, hl₂⟩ := h.values.push_map (by rw [h.valueRoom]; exact hroom) row
  obtain ⟨keys, hw₃, hh₃, hl₃⟩ := h.keys.push_map (by rw [h.keyRoom]; exact hroom) row
  obtain ⟨flowIds, hw₄, hh₄, hl₄⟩ := h.flowIds.push_map (by rw [h.flowIdRoom]; exact hroom) row
  refine ⟨⟨rowIds, values, keys, flowIds, r.packetBatchSize⟩, ?_, ?_, rfl⟩
  · simp only [receiveOne, hrow, hw₁, hw₂, hw₃, hw₄, Option.bind_eq_bind, Option.bind_some]
  · exact {
      rowIds := hh₁
      values := hh₂
      keys := hh₃
      flowIds := hh₄
      rowIdRoom := hl₁.trans h.rowIdRoom
      valueRoom := hl₂.trans h.valueRoom
      keyRoom := hl₃.trans h.keyRoom
      flowIdRoom := hl₄.trans h.flowIdRoom }

theorem receiveFrom_spec {rows : List (Row c)} {r : Receiver c} (h : Received rows r) (burst : List RxMbuf)
    (hroom : rows.length + burst.length ≤ r.packetBatchSize) :
    ∃ r' more, receiveFrom r rows.length burst = some r' ∧ Received (rows ++ more) r' ∧
      burst.map (fun mbuf => unpackPayload c (mbuf.buf.drop mbuf.dataOff)) = more.map some := by
  induction burst generalizing rows r with
  | nil => exact ⟨r, [], rfl, by rwa [List.append_nil], rfl⟩
  | cons mbuf rest ih =>
    rw [List.length_cons] at hroom
    obtain ⟨row, hrow⟩ := mbuf.unpackPayload_isSome (c := c)
    obtain ⟨r₁, hone, h₁, hsize⟩ := receiveOne_spec h (by omega) mbuf hrow
    obtain ⟨r', more, hrest, h', hmap⟩ := ih h₁ (by rw [hsize, List.length_append, List.length_singleton]; omega)
    refine ⟨r', row :: more, ?_, by rwa [List.append_assoc] at h', by rw [List.map_cons, hrow, hmap, List.map_cons]⟩
    rw [List.length_append, List.length_singleton] at hrest
    rw [receiveFrom, hone]
    exact hrest

/-- What the master reads at the index of a row. -/
theorem Received.row_eq {rows : List (Row c)} {r : Receiver c} (h : Received rows r) {i : Nat}
    (hi : i < rows.length) : r.row i = some rows[i] := by
  rw [Receiver.row, h.rowIds.read_map hi, h.values.read_map hi, h.keys.read_map hi, h.flowIds.read_map hi]
  rfl

/-- The master reads the rows of the burst. -/
theorem Received.exposed_eq {rows : List (Row c)} {r : Receiver c} (h : Received rows r) :
    exposed r rows.length = rows.map some := by
  unfold exposed
  refine List.ext_getElem (by simp) fun i hi _ => ?_
  rw [List.length_map, List.length_range] at hi
  rw [List.getElem_map, List.getElem_range, List.getElem_map, h.row_eq hi]

/-- **One row a frame.** The rows of a burst are what is at the payload's place in each
frame's buffer. -/
theorem receive_spec {rows : List (Row c)} {r : Receiver c} (h : Received rows r) (burst : List RxMbuf)
    (hburst : burst.length ≤ r.packetBatchSize) :
    ∃ r' more, receive r burst = some (r', burst.length) ∧ Received more r' ∧
      exposed r' burst.length =
        burst.map fun mbuf => unpackPayload c (mbuf.buf.drop mbuf.dataOff) := by
  obtain ⟨r', more, hrun, h', hmap⟩ :=
    receiveFrom_spec h.restart burst (by rw [List.length_nil, Nat.zero_add]; exact hburst)
  rw [List.nil_append] at h'
  have hlen : burst.length = more.length := by
    have hboth := congrArg List.length hmap
    rwa [List.length_map, List.length_map] at hboth
  refine ⟨r', more, ?_, h', ?_⟩
  · rw [List.length_nil] at hrun
    rw [receive, hrun]
    rfl
  · rw [hmap, hlen, h'.exposed_eq]

/-- **Only Cheetah packets become rows**, and no byte behind a frame is read, as the decoder has
a row of each frame alone, exactly when every frame of the burst is a Cheetah packet with its
payload where one without IP options has it. -/
theorem only_cheetah_rows_iff {rows : List (Row c)} {r : Receiver c} (h : Received rows r)
    (burst : List RxMbuf) (hburst : burst.length ≤ r.packetBatchSize) :
    ∃ r', receive r burst = some (r', burst.length) ∧
      ((exposed r' burst.length =
          (burst.filter fun mbuf => isCheetah c mbuf.frame).map fun mbuf => payloadRow c mbuf.frame) ∧
        (∀ mbuf ∈ burst, (unpackPayload c mbuf.frame).isSome) ↔
        ∀ mbuf ∈ burst, isCheetah c mbuf.frame = true ∧ AtPlace c mbuf.frame) := by
  obtain ⟨r', _, hrun, _, hexposed⟩ := receive_spec h burst hburst
  refine ⟨r', hrun, ?_⟩
  rw [hexposed]
  constructor
  · intro hboth
    have hlen := congrArg List.length hboth.1
    rw [List.length_map, List.length_map] at hlen
    have hall := List.length_filter_eq_length_iff.mp hlen.symm
    have hrows := hboth.1
    rw [List.filter_eq_self.mpr hall] at hrows
    intro mbuf hm
    refine ⟨hall mbuf hm, (unpackPayload_eq_payloadRow_iff (isCheetah_length (hall mbuf hm))).mp ?_⟩
    rw [← unpackPayload_frame (hboth.2 mbuf hm)]
    exact List.map_inj_left.mp hrows mbuf hm
  · intro hall
    have hread : ∀ mbuf ∈ burst, (unpackPayload c mbuf.frame).isSome := by
      intro mbuf hm
      have hlen := isCheetah_length (hall mbuf hm).1
      have hle := decodedLength_le c
      rw [unpackPayload_eq (by omega)]
      rfl
    refine ⟨?_, hread⟩
    rw [List.filter_eq_self.mpr fun mbuf hm => (hall mbuf hm).1]
    refine List.map_congr_left fun mbuf hm => ?_
    rw [unpackPayload_frame (hread mbuf hm)]
    exact (unpackPayload_eq_payloadRow_iff (isCheetah_length (hall mbuf hm).1)).mpr (hall mbuf hm).2

end Burst

/-! ### Frames -/

/-- A received frame, with zeros around it. -/
def rxMbuf (frame : List Byte) (h : frame.length ≤ 2048) : RxMbuf where
  buf := List.replicate headroom 0 ++ frame ++ List.replicate (2048 - frame.length) 0
  dataOff := headroom
  dataLen := frame.length
  fits := by simp
  length_buf := by
    simp only [List.length_append, List.length_replicate]
    unfold headroom mbufDataSize
    omega
  dataOff_eq := rfl

theorem rxMbuf_frame (frame : List Byte) (h : frame.length ≤ 2048) : (rxMbuf frame h).frame = frame := by
  rw [Mbuf.frame]
  show slice (List.replicate headroom 0 ++ frame ++ List.replicate (2048 - frame.length) 0) headroom
    frame.length = frame
  rw [slice, List.append_assoc, List.drop_left' List.length_replicate, List.take_left' rfl]

/-- The frame of an ARP request, 28 bytes behind its Ethernet header. -/
def arpRequest : List Byte :=
  List.replicate 6 0xff ++ List.replicate 6 0x02 ++ [0x08, 0x06] ++ [0, 1, 8, 0, 6, 4, 0, 1] ++
    List.replicate 20 0

/-- A receiver and a burst of one frame. -/
theorem only_cheetah_rows_iff_arp :
    ∃ r', receive (receiverCreate shipped 32) [rxMbuf arpRequest (by decide)] = some (r', 1) ∧
      ((exposed r' 1 =
          ([rxMbuf arpRequest (by decide)].filter fun mbuf => isCheetah shipped mbuf.frame).map
            fun mbuf => payloadRow shipped mbuf.frame) ∧
        (∀ mbuf ∈ [rxMbuf arpRequest (by decide)], (unpackPayload shipped mbuf.frame).isSome) ↔
        ∀ mbuf ∈ [rxMbuf arpRequest (by decide)],
          isCheetah shipped mbuf.frame = true ∧ AtPlace shipped mbuf.frame) :=
  only_cheetah_rows_iff (received_create shipped 32) [rxMbuf arpRequest (by decide)] (by decide)

/-- An ARP request becomes a row, made of bytes behind its end. -/
theorem arp_becomes_row :
    ∃ r', receive (receiverCreate shipped 32) [rxMbuf arpRequest (by decide)] = some (r', 1) ∧
      exposed r' 1 = [some ⟨(0 : BitVec 16), (0 : BitVec 32), (0 : BitVec 32), 0⟩] ∧
      isCheetah shipped (rxMbuf arpRequest (by decide)).frame = false ∧
      unpackPayload shipped (rxMbuf arpRequest (by decide)).frame = none := by
  obtain ⟨r', _, hrun, _, hexposed⟩ :=
    receive_spec (received_create shipped 32) [rxMbuf arpRequest (by decide)] (by decide)
  -- behind the request the buffer holds zeros
  have hbuf : (rxMbuf arpRequest (by decide)).buf.drop headroom =
      (arpRequest ++ List.replicate 14 0) ++ List.replicate 1992 0 := by
    show (List.replicate headroom 0 ++ arpRequest ++ List.replicate 2006 0).drop headroom = _
    rw [List.append_assoc, List.drop_left' List.length_replicate, List.append_assoc,
      List.replicate_append_replicate]
  have hrow : unpackPayload shipped (arpRequest ++ List.replicate 14 0) =
      some ⟨(0 : BitVec 16), (0 : BitVec 32), (0 : BitVec 32), 0⟩ := by decide
  refine ⟨r', hrun, ?_, ?_, ?_⟩
  · refine hexposed.trans ?_
    rw [List.map_singleton]
    refine congrArg (fun row => [row]) (Eq.trans ?_ (unpackPayload_append hrow (List.replicate 1992 0)))
    exact congrArg (unpackPayload shipped) hbuf
  · rw [rxMbuf_frame]
    decide
  · rw [rxMbuf_frame]
    decide

end Cheetah.Host.StreamReceiver
