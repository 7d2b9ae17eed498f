import Cheetah.Host.Mbuf

/-! `packet_crafter.c`: the headers in front of a payload, and taking a payload apart.

The build macros select the fields of a payload. A field that is left out has width
0 here: prepending it, storing it and loading it do nothing. The flow id keeps its
two bytes in every build; without its macro nobody passes or reads it. -/
namespace Cheetah.Host
open Lib Lib.Bytes

/-! ### Build configurations -/

/-- The field macros of `cheetah_constants.h`. -/
structure Config where
  /-- `CHEETAH_USE_FLOW_ID_AT_WORKER` -/
  useFlowId : Bool
  /-- `CHEETAH_USE_KEY_AT_WORKER` -/
  useKey : Bool
  /-- `CHEETAH_USE_64_BIT_VALUES` -/
  use64BitValues : Bool
  /-- `CHEETAH_USE_STRING_VALUES` -/
  useStringValues : Bool
  deriving DecidableEq

/-- The configuration `cheetah_constants.h` is shipped with. -/
def shipped : Config := ⟨true, true, false, false⟩

namespace Config
variable (c : Config)

def flowIdBits : Nat := if c.useFlowId then 16 else 0
def keyBits : Nat := if c.useKey then 32 else 0
def valueBits : Nat := if c.use64BitValues || c.useStringValues then 64 else 32

/-- The width `cheetah_unpack_payload` reads the value at; it does not ask for string values. -/
def unpackedBits : Nat := if c.use64BitValues then 64 else 32

/-- The length of a frame: 42 bytes of headers, flow id, row id, key and value. -/
def frameLength : Nat := 42 + 2 + 4 + c.keyBits / 8 + c.valueBits / 8

theorem dvd_flowIdBits : 8 ∣ c.flowIdBits := by unfold flowIdBits; split <;> decide
theorem dvd_keyBits : 8 ∣ c.keyBits := by unfold keyBits; split <;> decide
theorem dvd_valueBits : 8 ∣ c.valueBits := by unfold valueBits; split <;> decide

theorem dvd_unpackedBits : 8 ∣ c.unpackedBits := by unfold unpackedBits; split <;> decide

theorem unpackedBits_le : c.unpackedBits ≤ c.valueBits := by
  unfold unpackedBits valueBits
  cases c.use64BitValues <;> cases c.useStringValues <;> decide

theorem flowIdBits_le : c.flowIdBits / 8 ≤ 2 := by unfold flowIdBits; split <;> decide

/-- The frame fits into the headroom. -/
theorem frameLength_le : c.frameLength ≤ headroom := by
  unfold frameLength keyBits valueBits headroom
  split <;> split <;> decide

end Config

/-- The fields one packet carries: a row of the dataset. -/
structure Row (c : Config) where
  flowId : BitVec c.flowIdBits
  key : BitVec c.keyBits
  value : BitVec c.valueBits
  rowId : BitVec 32
  deriving DecidableEq

/-! ### Headers -/

/-- `rte_cpu_to_be_16`, `_32` and `_64` on a little-endian host. -/
def cpuToBe {w : Nat} (x : BitVec w) : BitVec w := byteSwap x

/-- `rte_be_to_cpu_16`, `_32` and `_64`. -/
def beToCpu {w : Nat} (x : BitVec w) : BitVec w := byteSwap x

theorem beToCpu_cpuToBe {w : Nat} (hw : 8 ∣ w) (x : BitVec w) : beToCpu (cpuToBe x) = x :=
  byteSwap_byteSwap hw x

/-- `struct ether_addr`. -/
abbrev EtherAddr := Vector Byte 6

/-- What the header builders read of `struct cheetah_connection_state`, and `rte_ipv4_cksum`. -/
structure ConnectionState where
  macAddress : EtherAddr
  destinationMac : EtherAddr
  udpSourcePort : BitVec 16
  udpDestinationPort : BitVec 16
  rteIpv4Cksum : List Byte → BitVec 16

/-- `CHEETAH_DATAGRAM_LENGTH`. -/
def datagramLength : BitVec 16 := 38

/-- `CHEETAH_UDP_DATAGRAM_LENGTH`. -/
def udpDatagramLength : BitVec 16 := 18

/-- A header of `len` bytes in front of the data, its fields given by their offsets. -/
def prependHeader (len : Nat) (fields : List (Nat × List Byte)) (mbuf : Mbuf) : Option Mbuf := do
  let (mbuf, hdr) ← mbuf.prepend len
  mbuf.writeFields hdr fields

/-- `cheetah_prepend_udp_header`. -/
def prependUdpHeader (state : ConnectionState) : Mbuf → Option Mbuf :=
  prependHeader 8
    [ (0, image (cpuToBe state.udpSourcePort)),
      (2, image (cpuToBe state.udpDestinationPort)),
      (4, image (cpuToBe udpDatagramLength)),
      (6, image (cpuToBe (0 : BitVec 16))) ]

/-- The fields of the IPv4 header but for its checksum. -/
def ipFields : List (Nat × List Byte) :=
  [ (0, image (0x40 ||| 0x05 : BitVec 8)),              -- version_ihl
    (1, image (0 : BitVec 8)),                          -- type_of_service
    (2, image (cpuToBe datagramLength)),                -- total_length
    (4, image (cpuToBe (1 : BitVec 16))),               -- packet_id
    (6, image (cpuToBe (0 : BitVec 16))),               -- fragment_offset
    (8, image (64 : BitVec 8)),                         -- time_to_live
    (9, image (0x11 : BitVec 8)),                       -- next_proto_id
    (12, image (cpuToBe (0x19191907 : BitVec 32))),     -- CHEETAH_WORKER_DPDK_IP
    (16, image (cpuToBe (0x19191901 : BitVec 32))) ]    -- CHEETAH_MASTER_DPDK_IP

/-- `cheetah_prepend_ip_header`. The checksum is taken while its own field still holds
what the buffer held. -/
def prependIpHeader (state : ConnectionState) (mbuf : Mbuf) : Option Mbuf := do
  let mbuf ← prependHeader 20 ipFields mbuf
  let hdr := mbuf.dataOff
  mbuf.writeFields hdr [(10, image (state.rteIpv4Cksum (slice mbuf.buf hdr 20)))]

/-- `cheetah_prepend_ethernet_header`. -/
def prependEthernetHeader (state : ConnectionState) : Mbuf → Option Mbuf :=
  prependHeader 14
    [ (0, state.destinationMac.toList),
      (6, state.macAddress.toList),
      (12, image (cpuToBe (0x0800 : BitVec 16))) ]

section Headers
open Mbuf
variable (state : ConnectionState) {m : Mbuf}

theorem prependHeader_spec {len : Nat} (fields : List (Nat × List Byte))
    (hin : ∀ f ∈ fields, f.1 + f.2.length ≤ len) (h : len ≤ m.dataOff) :
    ∃ m', prependHeader len fields m = some m' ∧ Prepended len m m' := by
  obtain ⟨m₀, hp, h₀⟩ := prepend_spec h
  obtain ⟨m₁, hw, h₁, -⟩ := h₀.writeFields fields hin
  refine ⟨m₁, ?_, h₁⟩
  rw [prependHeader, hp]
  exact hw

theorem prependUdpHeader_spec (h : 8 ≤ m.dataOff) :
    ∃ m', prependUdpHeader state m = some m' ∧ Prepended 8 m m' :=
  prependHeader_spec _ (by simp) h

theorem prependIpHeader_spec (h : 20 ≤ m.dataOff) :
    ∃ m', prependIpHeader state m = some m' ∧ Prepended 20 m m' := by
  obtain ⟨m₁, hw, h₁⟩ := prependHeader_spec ipFields (by simp [ipFields]) h
  obtain ⟨m₂, hc, h₂, -⟩ := h₁.writeFields
    [(10, image (state.rteIpv4Cksum (slice m₁.buf m₁.dataOff 20)))] (by simp)
  refine ⟨m₂, ?_, h₂⟩
  rw [prependIpHeader, hw]
  exact hc

theorem prependEthernetHeader_spec (h : 14 ≤ m.dataOff) :
    ∃ m', prependEthernetHeader state m = some m' ∧ Prepended 14 m m' :=
  prependHeader_spec _ (by simp) h

end Headers

/-! ### Payloads -/

/-- `*rte_pktmbuf_mtod_offset(mbuf, _, off)` of a packet; there is no reading past its end. -/
def load (w : Nat) (pkt : List Byte) (off : Nat) : Option (BitVec w) :=
  if off + w / 8 ≤ pkt.length then some (ofImage w (slice pkt off (w / 8))) else none

/-- `cheetah_unpack_payload`. -/
def unpackPayload (c : Config) (pkt : List Byte) : Option (Row c) := do
  let totalHeaderSize := 14 + 20 + 8
  let flowId ← load c.flowIdBits pkt totalHeaderSize
  let totalHeaderSize := totalHeaderSize + 2
  let rowId ← load 32 pkt totalHeaderSize
  let totalHeaderSize := totalHeaderSize + 4
  let key ← load c.keyBits pkt totalHeaderSize
  let totalHeaderSize := totalHeaderSize + c.keyBits / 8
  let value ← load c.unpackedBits pkt totalHeaderSize
  some ⟨beToCpu flowId, beToCpu key, (beToCpu value).setWidth c.valueBits, beToCpu rowId⟩

/-- A packet whose payload is a row, each field most significant byte first. -/
structure Carries (c : Config) (pkt : List Byte) (row : Row c) : Prop where
  length : pkt.length = c.frameLength
  flowId : slice pkt 42 (c.flowIdBits / 8) = image (cpuToBe row.flowId)
  rowId : slice pkt 44 4 = image (cpuToBe row.rowId)
  key : slice pkt 48 (c.keyBits / 8) = image (cpuToBe row.key)
  value : slice pkt (48 + c.keyBits / 8) (c.valueBits / 8) = image (cpuToBe row.value)

/-- A field read at its own width or a smaller one: the upper bits of the stored word. -/
theorem load_slice {pkt : List Byte} {w u off : Nat} (hw : 8 ∣ w) (hu : 8 ∣ u) (h : u ≤ w)
    {x : BitVec w} (hin : off + w / 8 ≤ pkt.length)
    (hx : slice pkt off (w / 8) = image (cpuToBe x)) :
    load u pkt off = some (cpuToBe (x.extractLsb' (w - u) u)) := by
  have hbytes : u / 8 ≤ w / 8 := Nat.div_le_div_right h
  rw [load, if_pos (by omega), ← take_slice hbytes, hx, cpuToBe, cpuToBe, take_image_byteSwap hw hu h,
    ofImage_image hu]

theorem load_field {pkt : List Byte} {w off : Nat} (hw : 8 ∣ w) {x : BitVec w}
    (hin : off + w / 8 ≤ pkt.length) (hx : slice pkt off (w / 8) = image (cpuToBe x)) :
    load w pkt off = some (cpuToBe x) := by
  rw [load_slice hw hw (Nat.le_refl w) hin hx, Nat.sub_self, BitVec.extractLsb'_eq_self]

/-- **Taking a packet apart.** The value loses the bits it is not read at. -/
theorem Carries.unpackPayload {c : Config} {pkt : List Byte} {row : Row c} (h : Carries c pkt row) :
    unpackPayload c pkt =
      some {row with value := row.value >>> (c.valueBits - c.unpackedBits)} := by
  have hlen := h.length
  have hflow := c.flowIdBits_le
  unfold Config.frameLength at hlen
  have hvalue : (row.value.extractLsb' (c.valueBits - c.unpackedBits) c.unpackedBits).setWidth c.valueBits =
      row.value >>> (c.valueBits - c.unpackedBits) := by
    apply BitVec.eq_of_toNat_eq
    have hlt : row.value.toNat / 2 ^ (c.valueBits - c.unpackedBits) < 2 ^ c.unpackedBits := by
      rw [Nat.div_lt_iff_lt_mul (Nat.two_pow_pos _), ← pow_add, Nat.add_sub_cancel' c.unpackedBits_le]
      exact row.value.isLt
    rw [BitVec.toNat_setWidth, BitVec.extractLsb'_toNat, BitVec.toNat_ushiftRight,
      Nat.shiftRight_eq_div_pow, Nat.mod_eq_of_lt hlt,
      Nat.mod_eq_of_lt (hlt.trans_le (Nat.pow_le_pow_right Nat.two_pos c.unpackedBits_le))]
  rw [Host.unpackPayload]
  simp only [load_field c.dvd_flowIdBits (by omega) h.flowId,
    load_field (w := 32) (by decide) (by omega) h.rowId, load_field c.dvd_keyBits (by omega) h.key,
    load_slice c.dvd_valueBits c.dvd_unpackedBits c.unpackedBits_le (by omega) h.value,
    Option.bind_eq_bind, Option.bind_some, beToCpu_cpuToBe c.dvd_flowIdBits,
    beToCpu_cpuToBe c.dvd_keyBits, beToCpu_cpuToBe c.dvd_unpackedBits,
    beToCpu_cpuToBe (w := 32) (by decide), hvalue]

/-- The value comes back whole when it is read at the width it was written at. -/
theorem Carries.unpackPayload_eq {c : Config} {pkt : List Byte} {row : Row c} (h : Carries c pkt row)
    (hc : c.unpackedBits = c.valueBits) : Host.unpackPayload c pkt = some row := by
  rw [h.unpackPayload, hc, Nat.sub_self, BitVec.ushiftRight_zero]

end Cheetah.Host
