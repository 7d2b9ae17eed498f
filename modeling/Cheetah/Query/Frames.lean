import Cheetah.Query.WireFormat

/-! Any frame, taken apart by the host and by the switch.

`cheetah_unpack_payload` and the `extract` of a program on the switch look at the same
bytes. Whatever a frame holds, where the host reads a row the switch reads its fields: no
frame is one row to the switch and another to the master. -/
namespace Cheetah.Query.Frames
open Lib Lib.Bytes Host Host.FastPacketStream DataPlane WireFormat

variable {c : Config} {frame : List Byte} {row : Row c}

/-- A field that was read lies in the frame, as the bytes of its word. -/
theorem load_inv {w off : Nat} (hw : 8 ∣ w) {x : BitVec w} (h : load w frame off = some x) :
    off + w / 8 ≤ frame.length ∧ slice frame off (w / 8) = image x := by
  unfold load at h
  split at h
  · rename_i hin
    refine ⟨hin, ?_⟩
    rw [← Option.some.inj h, image_ofImage hw (length_slice hin)]
  · cases h

theorem image_beToCpu {w : Nat} (hw : 8 ∣ w) (x : BitVec w) : image (cpuToBe (beToCpu x)) = image x :=
  congrArg image (byteSwap_byteSwap hw x)

/-- A build that sends flow ids and reads values as wide as it sends them. -/
structure Readable (c : Config) : Prop where
  useFlowId : c.useFlowId = true
  unpackedBits : c.unpackedBits = c.valueBits

instance (c : Config) : Decidable (Readable c) :=
  decidable_of_iff (c.useFlowId = true ∧ c.unpackedBits = c.valueBits)
    ⟨fun h => ⟨h.1, h.2⟩, fun h => ⟨h.useFlowId, h.unpackedBits⟩⟩

/-- Such a build, with keys or without and values of a width: a switch program has a header
for three of these layouts. -/
structure Layout (c : Config) (keys : Bool) (bits : Nat) : Prop where
  readable : Readable c
  useKey : c.useKey = keys
  valueBits : c.valueBits = bits

/-- Behind the headers of a frame the host reads as a row is the payload of that row. -/
theorem payload_of_unpackPayload (hc : Readable c) (h : unpackPayload c frame = some row) :
    ∃ rest, frame.drop 42 = payload row ++ rest := by
  have hbits : c.flowIdBits = 16 := by rw [Config.flowIdBits, hc.useFlowId, if_pos rfl]
  obtain ⟨flowId, hflowId, h⟩ := Option.bind_eq_some_iff.mp h
  obtain ⟨rowId, hrowId, h⟩ := Option.bind_eq_some_iff.mp h
  obtain ⟨key, hkey, h⟩ := Option.bind_eq_some_iff.mp h
  obtain ⟨value, hvalue, h⟩ := Option.bind_eq_some_iff.mp h
  obtain rfl := (Option.some.inj h).symm
  obtain ⟨_, hflowId⟩ := load_inv c.dvd_flowIdBits hflowId
  obtain ⟨_, hrowId⟩ := load_inv (by decide) hrowId
  obtain ⟨_, hkey⟩ := load_inv c.dvd_keyBits hkey
  obtain ⟨_, hvalue⟩ := load_inv c.dvd_unpackedBits hvalue
  let row : Row c := ⟨beToCpu flowId, beToCpu key, (beToCpu value).setWidth c.valueBits, beToCpu rowId⟩
  have hsent : image (cpuToBe (sentFlowId row)) = slice frame 42 2 := by
    rw [sentFlowId, if_pos hc.useFlowId, image_setWidth hbits, image_beToCpu c.dvd_flowIdBits, ← hflowId,
      hbits]
  have hrow : image (cpuToBe row.rowId) = slice frame 44 4 := by
    rw [image_beToCpu (by decide), ← hrowId]
  have hkeyed : image (cpuToBe row.key) = slice frame 48 (c.keyBits / 8) := by
    rw [image_beToCpu c.dvd_keyBits, ← hkey]
  have hvalued : image (cpuToBe row.value) = slice frame (48 + c.keyBits / 8) (c.valueBits / 8) := by
    rw [image_setWidth hc.unpackedBits, image_beToCpu c.dvd_unpackedBits, ← hvalue, hc.unpackedBits]
  refine ⟨frame.drop (42 + (2 + 4 + c.keyBits / 8 + c.valueBits / 8)), ?_⟩
  show _ = payload row ++ _
  rw [payload, hsent, hrow, hkeyed, hvalued, show 48 + c.keyBits / 8 = 42 + (2 + 4 + c.keyBits / 8) from by omega,
    show (48 : Nat) = 42 + (2 + 4) from rfl, show (44 : Nat) = 42 + 2 from rfl, slice_append_slice,
    slice_append_slice, slice_append_slice, slice, ← List.drop_drop, List.take_append_drop]

/-- Two words behind the row id are its key and its value. -/
theorem extractTwo_of_unpackPayload (hc : Readable c) (hkey : c.useKey = true) (hvalue : c.valueBits = 32)
    (h : unpackPayload c frame = some row) :
    extractTwo (cheetahBits frame) =
      some (row.flowId.setWidth 16, row.rowId, row.key.setWidth 32, row.value.setWidth 32) := by
  obtain ⟨rest, hdrop⟩ := payload_of_unpackPayload hc h
  have hsent : sentFlowId row = row.flowId.setWidth 16 := if_pos hc.useFlowId
  have hbytes : payload row ++ rest = image (byteSwap (row.flowId.setWidth 16)) ++
      (image (byteSwap row.rowId) ++ (image (byteSwap (row.key.setWidth 32)) ++
        (image (byteSwap (row.value.setWidth 32)) ++ rest))) := by
    rw [payload_key_value hkey hvalue, hsent, List.append_nil]
    simp only [List.append_assoc]
  rw [cheetahBits, cheetahOffset, hdrop, hbytes]
  exact extractTwo_image _ _ _ _ _

/-- One word is its value. -/
theorem extractOne_of_unpackPayload (hc : Readable c) (hkey : c.useKey = false) (hvalue : c.valueBits = 32)
    (h : unpackPayload c frame = some row) :
    extractOne (cheetahBits frame) = some (row.flowId.setWidth 16, row.rowId, row.value.setWidth 32) := by
  obtain ⟨rest, hdrop⟩ := payload_of_unpackPayload hc h
  have hsent : sentFlowId row = row.flowId.setWidth 16 := if_pos hc.useFlowId
  have hbytes : payload row ++ rest = image (byteSwap (row.flowId.setWidth 16)) ++
      (image (byteSwap row.rowId) ++ (image (byteSwap (row.value.setWidth 32)) ++ rest)) := by
    rw [payload_value hkey hvalue, hsent, List.append_nil]
    simp only [List.append_assoc]
  rw [cheetahBits, cheetahOffset, hdrop, hbytes]
  exact extractOne_image _ _ _ _

/-- A 64-bit value is its upper and its lower word. -/
theorem extractTwo_of_unpackPayload_wide (hc : Readable c) (hkey : c.useKey = false) (hvalue : c.valueBits = 64)
    (h : unpackPayload c frame = some row) :
    extractTwo (cheetahBits frame) = some (row.flowId.setWidth 16, row.rowId,
      row.value.extractLsb' 32 32, row.value.extractLsb' 0 32) := by
  obtain ⟨rest, hdrop⟩ := payload_of_unpackPayload hc h
  have hsent : sentFlowId row = row.flowId.setWidth 16 := if_pos hc.useFlowId
  have hbits : BitFields.wireBits (payload row ++ rest) =
      BitFields.wireBits (image (byteSwap (row.flowId.setWidth 16)) ++ (image (byteSwap row.rowId) ++
        (image (byteSwap (row.value.extractLsb' 32 32)) ++
          (image (byteSwap (row.value.extractLsb' 0 32)) ++ rest)))) := by
    rw [BitFields.wireBits_append, wireBits_payload hkey hvalue, hsent, List.append_nil,
      ← BitFields.wireBits_append]
    simp only [List.append_assoc]
  rw [cheetahBits, cheetahOffset, hdrop, hbits]
  exact extractTwo_image _ _ _ _ _

/-- **The switch reads what the host reads**, in any frame that is long enough for the host
to read at all, whoever sent it. -/
theorem extract_of_unpackPayload (hc : Readable c) (h : unpackPayload c frame = some row) :
    (c.useKey = true → c.valueBits = 32 →
      Groupby.extractCheetah (cheetahBits frame) =
        some ⟨row.flowId.setWidth 16, row.rowId, row.key.setWidth 32, row.value.setWidth 32⟩ ∧
      (∀ dstPort, Join.extractCheetah dstPort (cheetahBits frame) =
        some ⟨dstPort, row.flowId.setWidth 16, row.rowId, row.key.setWidth 32, row.value.setWidth 32⟩) ∧
      Skyline.extractCheetah (cheetahBits frame) =
        some ⟨row.flowId.setWidth 16, row.rowId, row.key.setWidth 32, row.value.setWidth 32⟩) ∧
    (c.useKey = false → c.valueBits = 32 →
      Topn.extractCheetah (cheetahBits frame) =
        some ⟨row.flowId.setWidth 16, row.rowId, row.value.setWidth 32⟩ ∧
      Filtering.extractCheetah (cheetahBits frame) =
        some ⟨row.flowId.setWidth 16, row.rowId, row.value.setWidth 32⟩) ∧
    (c.useKey = false → c.valueBits = 64 →
      Distinct.extractCheetah (cheetahBits frame) = some ⟨row.flowId.setWidth 16, row.rowId,
        row.value.extractLsb' 32 32, row.value.extractLsb' 0 32⟩) := by
  refine ⟨fun hkey hvalue => ?_, fun hkey hvalue => ?_, fun hkey hvalue => ?_⟩
  · have hfields := extractTwo_of_unpackPayload hc hkey hvalue h
    rw [Groupby.extractCheetah, Skyline.extractCheetah, hfields]
    exact ⟨rfl, fun dstPort => by rw [Join.extractCheetah, hfields]; rfl, rfl⟩
  · have hfields := extractOne_of_unpackPayload hc hkey hvalue h
    rw [Topn.extractCheetah, Filtering.extractCheetah, hfields]
    exact ⟨rfl, rfl⟩
  · rw [Distinct.extractCheetah, extractTwo_of_unpackPayload_wide hc hkey hvalue h]
    rfl

/-- A frame that no worker has sent. -/
theorem extract_of_unpackPayload_counting :
    let frame := (List.range 60).map (BitVec.ofNat 8)
    ∃ row : Row shipped, unpackPayload shipped frame = some row ∧
      Groupby.extractCheetah (cheetahBits frame) =
        some ⟨row.flowId.setWidth 16, row.rowId, row.key.setWidth 32, row.value.setWidth 32⟩ := by
  have hread : unpackPayload shipped ((List.range 60).map (BitVec.ofNat 8)) = some
      ⟨(0x2a2b : BitVec 16), (0x30313233 : BitVec 32), (0x34353637 : BitVec 32), 0x2c2d2e2f⟩ := by decide
  obtain ⟨hkeyed, -⟩ := extract_of_unpackPayload ⟨rfl, rfl⟩ hread
  exact ⟨_, hread, (hkeyed rfl rfl).1⟩

end Cheetah.Query.Frames
