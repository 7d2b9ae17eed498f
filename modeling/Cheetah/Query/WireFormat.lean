import Cheetah.DataPlane.Extract
import Cheetah.Host.PacketCodec

/-! The host writes what the switch reads.

The build macros give three layouts of a payload that some program on the switch has a
header for. In each of them the header a program extracts from a packet filled by the host
consists of the fields the packet was filled with. -/
namespace Cheetah.Query.WireFormat
open Lib Lib.Bytes Host Host.FastPacketStream DataPlane

variable {c : Config}

theorem image_eq_nil (h : c.keyBits = 0) (row : Row c) : image (cpuToBe row.key) = [] := by
  apply List.eq_nil_of_length_eq_zero
  rw [length_image, h]

/-- The payload is one word behind the row id. -/
theorem payload_value (hkey : c.useKey = false) (hvalue : c.valueBits = 32) (row : Row c) :
    payload row = image (byteSwap (sentFlowId row)) ++ (image (byteSwap row.rowId) ++
      (image (byteSwap (row.value.setWidth 32)) ++ [])) := by
  have hnone : c.keyBits = 0 := by rw [Config.keyBits, hkey]; rfl
  have himage := image_setWidth hvalue row.value
  rw [payload, image_eq_nil hnone, ← himage, List.append_nil, List.append_nil, List.append_assoc]
  rfl

/-- The payload is two words behind the row id. -/
theorem payload_key_value (hkey : c.useKey = true) (hvalue : c.valueBits = 32) (row : Row c) :
    payload row = image (byteSwap (sentFlowId row)) ++ (image (byteSwap row.rowId) ++
      (image (byteSwap (row.key.setWidth 32)) ++ (image (byteSwap (row.value.setWidth 32)) ++ []))) := by
  have hbits : c.keyBits = 32 := by rw [Config.keyBits, hkey]; rfl
  have hkeyImage := image_setWidth hbits row.key
  have hvalueImage := image_setWidth hvalue row.value
  rw [payload, ← hkeyImage, ← hvalueImage, List.append_nil, List.append_assoc, List.append_assoc]
  rfl

/-- A 64-bit value is sent as its upper and its lower word. -/
theorem wireBits_payload (hkey : c.useKey = false) (hvalue : c.valueBits = 64) (row : Row c) :
    BitFields.wireBits (payload row) =
      BitFields.wireBits (image (byteSwap (sentFlowId row)) ++ (image (byteSwap row.rowId) ++
        (image (byteSwap (row.value.extractLsb' 32 32)) ++
          (image (byteSwap (row.value.extractLsb' 0 32)) ++ [])))) := by
  have hnone : c.keyBits = 0 := by rw [Config.keyBits, hkey]; rfl
  have hsplit : row.value.setWidth 64 = row.value.extractLsb' 32 32 ++ row.value.extractLsb' 0 32 := by
    apply BitVec.eq_of_toNat_eq
    have hlt : row.value.toNat < 2 ^ 64 := hvalue ▸ row.value.isLt
    simp only [BitVec.toNat_setWidth, BitVec.toNat_append, BitVec.extractLsb'_toNat,
      Nat.shiftLeft_eq, Nat.shiftRight_eq_div_pow]
    rw [Nat.mul_comm, ← Nat.two_pow_add_eq_or_of_lt (Nat.mod_lt _ (Nat.two_pow_pos 32))]
    omega
  have hwords := BitFields.wireBits_image_append (u := 32) (w := 32) (by decide) (by decide)
    (row.value.extractLsb' 32 32) (row.value.extractLsb' 0 32)
  rw [← hsplit] at hwords
  have himage := image_setWidth hvalue row.value
  rw [payload, image_eq_nil hnone, ← himage, List.append_nil, List.append_nil, BitFields.wireBits_append,
    cpuToBe, cpuToBe, cpuToBe, hwords, ← BitFields.wireBits_append, List.append_assoc]

/-- **The host and the switch agree on the format.** A filled packet gives every program
whose header has its layout the fields it was filled with; `setWidth` only says what a
field's width is under this layout. -/
theorem wire_format (state : ConnectionState) (pool : Mempool) {packetCount : Nat}
    (earlier : List (Nat × Row c)) (hin : ∀ fill ∈ earlier, fill.1 < packetCount) {i : Nat}
    (hi : i < packetCount) (row : Row c) :
    ∃ stream mem m, Filled c state pool packetCount earlier i row stream mem ∧ mem[i]? = some m ∧
      (c.useKey = true → c.valueBits = 32 →
        Groupby.extractCheetah (cheetahBits m.frame) =
          some ⟨sentFlowId row, row.rowId, row.key.setWidth 32, row.value.setWidth 32⟩ ∧
        (∀ dstPort, Join.extractCheetah dstPort (cheetahBits m.frame) =
          some ⟨dstPort, sentFlowId row, row.rowId, row.key.setWidth 32, row.value.setWidth 32⟩) ∧
        Skyline.extractCheetah (cheetahBits m.frame) =
          some ⟨sentFlowId row, row.rowId, row.key.setWidth 32, row.value.setWidth 32⟩) ∧
      (c.useKey = false → c.valueBits = 32 →
        Topn.extractCheetah (cheetahBits m.frame) =
          some ⟨sentFlowId row, row.rowId, row.value.setWidth 32⟩ ∧
        Filtering.extractCheetah (cheetahBits m.frame) =
          some ⟨sentFlowId row, row.rowId, row.value.setWidth 32⟩) ∧
      (c.useKey = false → c.valueBits = 64 →
        ∃ h, Distinct.extractCheetah (cheetahBits m.frame) = some h ∧ h.flowId = sentFlowId row ∧
          h.rowId = row.rowId ∧ h.valueHi.toNat * 2 ^ 32 + h.valueLo.toNat = row.value.toNat) := by
  obtain ⟨stream, mem, m, hfilled, hm, hrow, hlabel⟩ := filled_spec state pool earlier hin hi row
  have hbits : cheetahBits m.frame = BitFields.wireBits (payload row) := by
    rw [cheetahBits, cheetahOffset, drop_frame hrow hlabel]
  refine ⟨stream, mem, m, hfilled, hm, ?_, ?_, ?_⟩
  · intro hkey hvalue
    have hfields := extractTwo_image (sentFlowId row) row.rowId (row.key.setWidth 32)
      (row.value.setWidth 32) []
    rw [← payload_key_value hkey hvalue, ← hbits] at hfields
    rw [Groupby.extractCheetah, Skyline.extractCheetah, hfields]
    exact ⟨rfl, fun dstPort => by rw [Join.extractCheetah, hfields]; rfl, rfl⟩
  · intro hkey hvalue
    have hfields := extractOne_image (sentFlowId row) row.rowId (row.value.setWidth 32) []
    rw [← payload_value hkey hvalue, ← hbits] at hfields
    rw [Topn.extractCheetah, Filtering.extractCheetah, hfields]
    exact ⟨rfl, rfl⟩
  · intro hkey hvalue
    have hfields := extractTwo_image (sentFlowId row) row.rowId (row.value.extractLsb' 32 32)
      (row.value.extractLsb' 0 32) []
    rw [← wireBits_payload hkey hvalue, ← hbits] at hfields
    refine ⟨⟨sentFlowId row, row.rowId, row.value.extractLsb' 32 32, row.value.extractLsb' 0 32⟩, ?_, rfl,
      rfl, ?_⟩
    · rw [Distinct.extractCheetah, hfields]
      rfl
    · have hlt : row.value.toNat < 2 ^ 64 := hvalue ▸ row.value.isLt
      simp only [BitVec.extractLsb'_toNat, Nat.shiftRight_eq_div_pow]
      omega

/-- The shipped configuration sends keys and 32-bit values. -/
theorem wire_format_shipped :
    ∃ stream mem m, Filled shipped ControlFlow.zeroState ControlFlow.zeroPool 1 [] 0
        ⟨(5 : BitVec 16), (6 : BitVec 32), (7 : BitVec 32), 8⟩ stream mem ∧ mem[0]? = some m ∧
      (shipped.useKey = true → shipped.valueBits = 32 →
        Groupby.extractCheetah (cheetahBits m.frame) = some ⟨5, 8, 6, 7⟩ ∧
        (∀ dstPort, Join.extractCheetah dstPort (cheetahBits m.frame) = some ⟨dstPort, 5, 8, 6, 7⟩) ∧
        Skyline.extractCheetah (cheetahBits m.frame) = some ⟨5, 8, 6, 7⟩) := by
  obtain ⟨stream, mem, m, hfilled, hm, hkeyed, -⟩ := wire_format (c := shipped) ControlFlow.zeroState
    ControlFlow.zeroPool [] (by simp) (show 0 < 1 by decide)
    ⟨(5 : BitVec 16), (6 : BitVec 32), (7 : BitVec 32), 8⟩
  exact ⟨stream, mem, m, hfilled, hm, hkeyed⟩

end Cheetah.Query.WireFormat
