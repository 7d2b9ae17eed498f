import Cheetah.Host.PacketBatch
import Cheetah.Host.FastPacketSend

/-! `packet_manager.c`: packets made from records as they are sent.

The payload is that of a fast packet stream, field after field, but for the order of the
bytes: the fields are stored as the host has them. The two paths send the same bytes when
every field reads the same in both orders. -/
namespace Cheetah.Host.PacketStream
open Lib Lib.Bytes Mbuf FastPacketStream

/-! ### Code -/

/-- The width of `value` in a record; it does not ask for string values. -/
def packetValueBits (c : Config) : Nat := if c.use64BitValues then 64 else 32

/-- `struct cheetah_packet`. -/
structure Packet (c : Config) where
  value : BitVec (packetValueBits c)
  key : BitVec c.keyBits
  rowId : BitVec 32
  flowId : BitVec 16
  deriving DecidableEq

section Code
variable (c : Config)

/-- A field in front of the data, as the host stores it. -/
def prependField {w : Nat} (x : BitVec w) (mbuf : Mbuf) : Option Mbuf := do
  let (mbuf, field) ← mbuf.prepend (w / 8)
  mbuf.store field x

/-- `cheetah_prepend_packet_payload`. -/
def prependPacketPayload (pkt : Packet c) (mbuf : Mbuf) : Option Mbuf := do
  let mbuf ← prependField pkt.value mbuf
  let mbuf ← prependField pkt.key mbuf
  let mbuf ← prependField pkt.rowId mbuf
  prependField pkt.flowId mbuf

/-- One packet of `cheetah_packet_stream_send`. -/
def build (state : ConnectionState) (pkt : Packet c) (mbuf : Mbuf) : Option Mbuf := do
  let mbuf ← prependPacketPayload c pkt mbuf
  let mbuf ← prependUdpHeader state mbuf
  let mbuf ← prependIpHeader state mbuf
  prependEthernetHeader state mbuf

/-- `cheetah_packet_stream_send`: the packets it makes and how many of them the port takes.
It asks once, and frees the rest. -/
def packetStreamSend (state : ConnectionState) (pool : Mempool) (port : Port) (calls : Nat)
    (packets : List (Packet c)) : Option (List Mbuf × Nat) := do
  let mbufBurstArr ← packets.zipIdx.mapM fun (pkt, i) => build c state pkt (pool.alloc i)
  let ret := port.accept calls (BitVec.ofNat 16 mbufBurstArr.length)
  some (mbufBurstArr, ret.toNat)

end Code

/-! ### What is sent -/

section Sent
variable {c : Config} {m m' : Mbuf}

theorem prepended_drop_frame {n : Nat} (h : Prepended n m m') : m'.frame.drop n = m.frame := by
  have hlen := h.dataLen
  have hslice : slice m'.frame (n + 0) m.dataLen = slice m.frame 0 m.dataLen := h.slice_frame (by omega)
  have hall : ∀ (x : List Byte) (k : Nat), x.length = k → slice x 0 k = x := by
    intro x k hk
    rw [slice, List.drop_zero, List.take_of_length_le (Nat.le_of_eq hk)]
  rw [hall m.frame m.dataLen (length_frame m)] at hslice
  rw [← hslice, Nat.add_zero, slice, List.take_of_length_le]
  rw [List.length_drop, length_frame]
  omega

theorem prependField_spec {w : Nat} (x : BitVec w) (h : w / 8 ≤ m.dataOff) :
    ∃ m', prependField x m = some m' ∧ m'.dataOff + w / 8 = m.dataOff ∧
      m'.frame = image x ++ m.frame := by
  obtain ⟨m₁, hp, h₁⟩ := prepend_spec h
  have hoff := h₁.dataOff
  have hdata := h₁.dataLen
  have hfits := m₁.fits
  obtain ⟨m₂, hw, h₂, ho⟩ := h₁.write m₁.dataOff (image x) (by rw [length_image]; omega)
  obtain ⟨hin, hbuf, _⟩ := write_inv hw
  refine ⟨m₂, ?_, by omega, ?_⟩
  · rw [prependField, hp]
    exact hw
  · have hfront : m₂.frame.take (w / 8) = image x := by
      have hfield : slice m₂.frame 0 (w / 8) = image x := by
        rw [slice_frame m₂ (by have := h₂.dataLen; omega), ho, Nat.add_zero, hbuf,
          slice_splice hin (length_image x)]
      exact hfield
    rw [← hfront, ← prepended_drop_frame h₂, List.take_append_drop]

/-- A record on the wire: every field as the host stores it. -/
def recordPayload (pkt : Packet c) : List Byte :=
  image pkt.flowId ++ image pkt.rowId ++ image pkt.key ++ image pkt.value

theorem packetValueBits_le (c : Config) : packetValueBits c ≤ 64 := by
  unfold packetValueBits
  split <;> decide

theorem keyBits_le (c : Config) : c.keyBits ≤ 32 := by
  unfold Config.keyBits
  split <;> decide

theorem prependPacketPayload_spec (pkt : Packet c) (h : 18 ≤ m.dataOff) :
    ∃ m', prependPacketPayload c pkt m = some m' ∧ m.dataOff ≤ m'.dataOff + 18 ∧
      m'.frame = recordPayload pkt ++ m.frame := by
  have hvalue := packetValueBits_le c
  have hkey := keyBits_le c
  obtain ⟨m₁, h₁, ho₁, hf₁⟩ := prependField_spec (m := m) pkt.value (by omega)
  obtain ⟨m₂, h₂, ho₂, hf₂⟩ := prependField_spec (m := m₁) pkt.key (by omega)
  obtain ⟨m₃, h₃, ho₃, hf₃⟩ := prependField_spec (m := m₂) pkt.rowId (by omega)
  obtain ⟨m₄, h₄, ho₄, hf₄⟩ := prependField_spec (m := m₃) pkt.flowId (by omega)
  refine ⟨m₄, ?_, by omega, ?_⟩
  · simp only [prependPacketPayload, h₁, h₂, h₃, h₄, Option.bind_eq_bind, Option.bind_some]
  · rw [hf₄, hf₃, hf₂, hf₁, recordPayload]
    simp only [List.append_assoc]

/-- A packet of the stream: 42 bytes of headers and the record. -/
theorem build_spec (state : ConnectionState) (pool : Mempool) (i : Nat) (pkt : Packet c) :
    ∃ m, build c state pkt (pool.alloc i) = some m ∧ Headed state m.frame ∧
      42 ≤ m.frame.length ∧ m.frame.drop 42 = recordPayload pkt := by
  have hroom : (pool.alloc i).dataOff = headroom := rfl
  have hempty : (pool.alloc i).frame = [] := rfl
  obtain ⟨m₁, h₁, ho₁, hf₁⟩ := prependPacketPayload_spec pkt (show 18 ≤ (pool.alloc i).dataOff by
    rw [hroom]; decide)
  have hoff : 110 ≤ m₁.dataOff := by
    rw [hroom] at ho₁
    unfold headroom at ho₁
    omega
  obtain ⟨m₂, hu, h₂⟩ := prependUdpHeader_spec state (show 8 ≤ m₁.dataOff by omega)
  have ho₂ := h₂.dataOff
  obtain ⟨m₃, hi, h₃⟩ := prependIpHeader_spec state (show 20 ≤ m₂.dataOff by omega)
  have ho₃ := h₃.dataOff
  obtain ⟨m₄, he, _⟩ := prependEthernetHeader_spec state (show 14 ≤ m₃.dataOff by omega)
  obtain ⟨hprep, hheaded⟩ := headers_inv hu hi he
  have hlen := hprep.dataLen
  refine ⟨m₄, ?_, hheaded, by rw [length_frame]; omega, ?_⟩
  · simp only [build, h₁, hu, hi, he, Option.bind_eq_bind, Option.bind_some]
  · rw [prepended_drop_frame hprep, hf₁, hempty, List.append_nil]

theorem packetStreamSend_spec (state : ConnectionState) (pool : Mempool) (port : Port) (calls : Nat)
    (packets : List (Packet c)) :
    ∃ burst ret, packetStreamSend c state pool port calls packets = some (burst, ret) ∧
      ∀ (k : Nat) (pkt : Packet c), packets[k]? = some pkt →
        ∃ m, burst[k]? = some m ∧ 42 ≤ m.frame.length ∧ m.frame.drop 42 = recordPayload pkt := by
  have heach : ∀ e ∈ packets.zipIdx, ∃ m : Mbuf, build c state e.1 (pool.alloc e.2) = some m ∧
      m.frame.drop 42 = recordPayload e.1 ∧ 42 ≤ m.frame.length := by
    intro e _
    obtain ⟨m, hbuild, _, hlen, hdrop⟩ := build_spec state pool e.2 e.1
    exact ⟨m, hbuild, hdrop, hlen⟩
  obtain ⟨burst, hrun, hmap, hlen⟩ := exists_mapM heach
  refine ⟨burst, (port.accept calls (BitVec.ofNat 16 burst.length)).toNat, ?_, fun k pkt hk => ?_⟩
  · rw [packetStreamSend]
    simp only [hrun, Option.bind_eq_bind, Option.bind_some]
  · have hentry := congrArg (·[k]?) hmap
    simp only [List.getElem?_map, List.getElem?_zipIdx, hk, Option.map_some] at hentry
    obtain ⟨m, hm, hdrop⟩ := Option.map_eq_some_iff.mp hentry
    exact ⟨m, hm, hlen m (List.mem_of_getElem? hm), hdrop⟩

end Sent

/-! ### The two paths -/

section Paths
variable {c : Config}

/-- The row of a record, as `modify` is given it. -/
def Packet.row (pkt : Packet c) : Row c where
  flowId := pkt.flowId.setWidth c.flowIdBits
  key := pkt.key
  value := pkt.value.setWidth c.valueBits
  rowId := pkt.rowId

/-- A record whose fields read the same in both byte orders, in a build whose values are as
wide in a record as in a stream. Without its macro the flow id is to be the default one, in
network byte order. -/
structure Packet.Symmetric (pkt : Packet c) : Prop where
  width : packetValueBits c = c.valueBits
  flowId : cpuToBe (if c.useFlowId then pkt.flowId else defaultFlowId) = pkt.flowId
  rowId : cpuToBe pkt.rowId = pkt.rowId
  key : cpuToBe pkt.key = pkt.key
  value : cpuToBe pkt.value = pkt.value

instance (pkt : Packet c) : Decidable pkt.Symmetric :=
  decidable_of_iff (packetValueBits c = c.valueBits ∧
      cpuToBe (if c.useFlowId then pkt.flowId else defaultFlowId) = pkt.flowId ∧
      cpuToBe pkt.rowId = pkt.rowId ∧ cpuToBe pkt.key = pkt.key ∧ cpuToBe pkt.value = pkt.value)
    ⟨fun h => ⟨h.1, h.2.1, h.2.2.1, h.2.2.2.1, h.2.2.2.2⟩,
      fun h => ⟨h.width, h.flowId, h.rowId, h.key, h.value⟩⟩

theorem image_inj {w : Nat} (hw : 8 ∣ w) {x y : BitVec w} : image x = image y ↔ x = y := by
  constructor
  · intro h
    rw [← ofImage_image hw x, h, ofImage_image hw]
  · intro h
    rw [h]

theorem dvd_packetValueBits (c : Config) : 8 ∣ packetValueBits c := by
  unfold packetValueBits
  split <;> decide

/-- The flow id of a record's row, in a stream. -/
theorem sentFlowId_row (pkt : Packet c) :
    sentFlowId pkt.row = if c.useFlowId then pkt.flowId else defaultFlowId := by
  unfold sentFlowId
  cases huse : c.useFlowId with
  | true =>
    have hbits : c.flowIdBits = 16 := by rw [Config.flowIdBits, huse, if_pos rfl]
    rw [if_pos rfl, if_pos rfl]
    show (pkt.flowId.setWidth c.flowIdBits).setWidth 16 = pkt.flowId
    rw [hbits, BitVec.setWidth_eq, BitVec.setWidth_eq]
  | false => rw [if_neg Bool.false_ne_true, if_neg Bool.false_ne_true]

/-- **When the two payloads are the same.** -/
theorem recordPayload_eq_iff (pkt : Packet c) : recordPayload pkt = payload pkt.row ↔ pkt.Symmetric := by
  have hrow : payload pkt.row = image (cpuToBe (if c.useFlowId then pkt.flowId else defaultFlowId)) ++
      image (cpuToBe pkt.rowId) ++ image (cpuToBe pkt.key) ++
      image (cpuToBe (pkt.value.setWidth c.valueBits)) := by
    rw [payload, sentFlowId_row]
    rfl
  rw [hrow, recordPayload]
  constructor
  · intro heq
    have hwidth : packetValueBits c = c.valueBits := by
      have hlen := congrArg List.length heq
      have hleft := dvd_packetValueBits c
      have hright := c.dvd_valueBits
      simp only [List.length_append, length_image] at hlen
      omega
    obtain ⟨heq, hvalue⟩ := List.append_inj' heq (by rw [length_image, length_image, hwidth])
    obtain ⟨heq, hkey⟩ := List.append_inj' heq (by rw [length_image, length_image])
    obtain ⟨hflowId, hrowId⟩ := List.append_inj' heq (by rw [length_image, length_image])
    rw [image_setWidth hwidth] at hvalue
    exact {
      width := hwidth
      flowId := ((image_inj (by decide)).mp hflowId).symm
      rowId := ((image_inj (by decide)).mp hrowId).symm
      key := ((image_inj c.dvd_keyBits).mp hkey).symm
      value := ((image_inj (dvd_packetValueBits c)).mp hvalue).symm }
  · intro h
    rw [image_setWidth h.width, h.flowId, h.rowId, h.key, h.value]

/-- A packet with the same payload carries the same row. -/
theorem carries_congr {pkt pkt' : List Byte} {row : Row c} (h : Carries c pkt row)
    (hlen : 42 ≤ pkt'.length) (hsame : pkt'.drop 42 = pkt.drop 42) : Carries c pkt' row := by
  have hslice : ∀ off n, 42 ≤ off → slice pkt' off n = slice pkt off n := by
    intro off n hoff
    have hcut : ∀ b : List Byte, slice b off n = slice (b.drop 42) (off - 42) n := by
      intro b
      rw [slice, slice, List.drop_drop, Nat.add_sub_cancel' hoff]
    rw [hcut pkt', hsame, ← hcut]
  have hlength : pkt'.length = pkt.length := by
    have hrest := congrArg List.length hsame
    have hframe := h.length
    unfold Config.frameLength at hframe
    rw [List.length_drop, List.length_drop] at hrest
    omega
  exact {
    length := hlength.trans h.length
    flowId := by rw [hslice _ _ (by decide), h.flowId]
    rowId := by rw [hslice _ _ (by decide), h.rowId]
    key := by rw [hslice _ _ (by decide), h.key]
    value := by rw [hslice _ _ (by omega), h.value] }

/-- **The two send paths make the same payload** for a record, and the decoder gives the
record back from both, exactly when its fields read the same in both byte orders. -/
theorem same_payload_iff (state : ConnectionState) (pool pool' : Mempool) (port : Port) (calls : Nat)
    (packets : List (Packet c)) {k : Nat} {pkt : Packet c} (hk : packets[k]? = some pkt) {packetCount : Nat}
    (earlier : List (Nat × Row c)) (hin : ∀ fill ∈ earlier, fill.1 < packetCount) {i : Nat}
    (hi : i < packetCount) :
    ∃ burst ret slow stream mem fast, packetStreamSend c state pool port calls packets = some (burst, ret) ∧
      burst[k]? = some slow ∧ Filled c state pool' packetCount earlier i pkt.row stream mem ∧
      mem[i]? = some fast ∧
      (slow.frame.drop 42 = fast.frame.drop 42 ∧ unpackPayload c slow.frame = some pkt.row ∧
          unpackPayload c fast.frame = some pkt.row ↔ pkt.Symmetric) := by
  obtain ⟨burst, ret, hsend, hall⟩ := packetStreamSend_spec state pool port calls packets
  obtain ⟨slow, hslow, hlen, hdrop⟩ := hall k pkt hk
  obtain ⟨stream, mem, fast, hfilled, hfast, hrow, hlabel⟩ := filled_spec state pool' earlier hin hi pkt.row
  have hpayload := drop_frame hrow hlabel
  refine ⟨burst, ret, slow, stream, mem, fast, hsend, hslow, hfilled, hfast, ?_⟩
  rw [← recordPayload_eq_iff, ← hdrop, ← hpayload]
  constructor
  · intro hboth
    exact hboth.1
  · intro hsame
    have hsymm : pkt.Symmetric := by
      rw [← recordPayload_eq_iff, ← hdrop, ← hpayload, hsame]
    have hwidth : c.unpackedBits = c.valueBits := hsymm.width
    exact ⟨hsame, (carries_congr hrow hlen hsame).unpackPayload_eq hwidth, hrow.unpackPayload_eq hwidth⟩

end Paths

/-- A record whose fields read the same in both byte orders. -/
def symmetricPacket : Packet shipped := ⟨(0x01020201 : BitVec 32), (0x07000007 : BitVec 32), 0, 0x0101⟩

theorem same_payload_iff_symmetric :
    ∃ burst ret slow stream mem fast,
      packetStreamSend shipped ControlFlow.zeroState ControlFlow.zeroPool ControlFlow.wholePort 0 [symmetricPacket] =
        some (burst, ret) ∧
      burst[0]? = some slow ∧
      Filled shipped ControlFlow.zeroState ControlFlow.zeroPool 1 [] 0 symmetricPacket.row stream mem ∧
      mem[0]? = some fast ∧
      (slow.frame.drop 42 = fast.frame.drop 42 ∧ unpackPayload shipped slow.frame = some symmetricPacket.row ∧
          unpackPayload shipped fast.frame = some symmetricPacket.row ↔ symmetricPacket.Symmetric) :=
  same_payload_iff ControlFlow.zeroState ControlFlow.zeroPool ControlFlow.zeroPool ControlFlow.wholePort 0
    [symmetricPacket] rfl [] (by simp) (by decide)

/-- A record with small fields. -/
def smallPacket : Packet shipped := ⟨(4 : BitVec 32), (3 : BitVec 32), 2, 1⟩

/-- The two paths send it in opposite byte orders. -/
theorem payloads_differ :
    ∃ burst ret slow stream mem fast,
      packetStreamSend shipped ControlFlow.zeroState ControlFlow.zeroPool ControlFlow.wholePort 0 [smallPacket] =
        some (burst, ret) ∧
      burst[0]? = some slow ∧
      Filled shipped ControlFlow.zeroState ControlFlow.zeroPool 1 [] 0 smallPacket.row stream mem ∧
      mem[0]? = some fast ∧
      slow.frame.drop 42 = [1, 0, 2, 0, 0, 0, 3, 0, 0, 0, 4, 0, 0, 0] ∧
      fast.frame.drop 42 = [0, 1, 0, 0, 0, 2, 0, 0, 0, 3, 0, 0, 0, 4] := by
  obtain ⟨burst, ret, hsend, hall⟩ := packetStreamSend_spec ControlFlow.zeroState ControlFlow.zeroPool
    ControlFlow.wholePort 0 [smallPacket]
  obtain ⟨slow, hslow, _, hdrop⟩ := hall 0 smallPacket rfl
  obtain ⟨stream, mem, fast, hfilled, hfast, hrow, hlabel⟩ := filled_spec ControlFlow.zeroState
    ControlFlow.zeroPool [] (by simp) (show 0 < 1 by decide) smallPacket.row
  refine ⟨burst, ret, slow, stream, mem, fast, hsend, hslow, hfilled, hfast, ?_, ?_⟩
  · rw [hdrop]
    decide
  · rw [drop_frame hrow hlabel]
    decide

end Cheetah.Host.PacketStream
