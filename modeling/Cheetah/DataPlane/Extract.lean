import Cheetah.DataPlane.Groupby
import Cheetah.DataPlane.Join
import Cheetah.DataPlane.Skyline
import Cheetah.DataPlane.Topn
import Cheetah.DataPlane.Distinct
import Cheetah.Lib.BitFields

/-! `extract(cheetah)`: the header each program takes off the wire.

A header's fields follow one another in the order of their declaration, most significant
bit first. The queries declare three headers: a 16-bit flow id and a row id, followed by
one or two words. -/
namespace Cheetah.DataPlane
open Lib.BitFields

/-- The cursor the deployment's parser leaves: after the Ethernet, IPv4 and UDP headers. -/
def cheetahOffset : Nat := 42

/-- The bits `parse_cheetah` starts at. -/
def cheetahBits (pkt : List Lib.Byte) : List Bool := wireBits (pkt.drop cheetahOffset)

/-- `flowId : 16; rowId : 32;` and one word. -/
def extractOne (bits : List Bool) : Option (FlowId × Word × Word) := do
  let (flowId, bits) ← field 16 bits
  let (rowId, bits) ← field 32 bits
  let (value, _) ← field 32 bits
  some (flowId, rowId, value)

/-- `flowId : 16; rowId : 32;` and two words. -/
def extractTwo (bits : List Bool) : Option (FlowId × Word × Word × Word) := do
  let (flowId, bits) ← field 16 bits
  let (rowId, bits) ← field 32 bits
  let (first, bits) ← field 32 bits
  let (second, _) ← field 32 bits
  some (flowId, rowId, first, second)

namespace Groupby

/-- `cheetah_t` of `cheetah_groupby.p4`. -/
def extractCheetah (bits : List Bool) : Option Header :=
  (extractTwo bits).map fun (flowId, rowId, key, value) => ⟨flowId, rowId, key, value⟩

end Groupby

namespace Join

/-- `cheetah_t` of `cheetah_join.p4`; the UDP port comes from the deployment's parser. -/
def extractCheetah (dstPort : BitVec 16) (bits : List Bool) : Option Header :=
  (extractTwo bits).map fun (flowId, rowId, key, value) => ⟨dstPort, flowId, rowId, key, value⟩

end Join

namespace Skyline

/-- `cheetah_t` of `cheetah_skyline.p4`. -/
def extractCheetah (bits : List Bool) : Option Header :=
  (extractTwo bits).map fun (flowId, rowId, x, y) => ⟨flowId, rowId, x, y⟩

end Skyline

namespace Distinct

/-- `cheetah_t` of `cheetah_distinct.p4`. -/
def extractCheetah (bits : List Bool) : Option Header :=
  (extractTwo bits).map fun (flowId, rowId, valueHi, valueLo) => ⟨flowId, rowId, valueHi, valueLo⟩

end Distinct

namespace Topn

/-- `cheetah_t` of `cheetah_topn.p4`. -/
def extractCheetah (bits : List Bool) : Option Header :=
  (extractOne bits).map fun (flowId, rowId, value) => ⟨flowId, rowId, value⟩

end Topn

namespace Filtering

/-- The fields of `cheetah_t` in `cheetah_filtering.p4`. -/
structure Header where
  flowId : FlowId
  rowId : Word
  value : Word
  deriving DecidableEq, Repr

/-- `cheetah_t` of `cheetah_filtering.p4`. -/
def extractCheetah (bits : List Bool) : Option Header :=
  (extractOne bits).map fun (flowId, rowId, value) => ⟨flowId, rowId, value⟩

end Filtering

/-! ### Words in network byte order -/

section Words
open Lib.Bytes

theorem extractOne_image (flowId : FlowId) (rowId value : Word) (rest : List Lib.Byte) :
    extractOne (wireBits (image (byteSwap flowId) ++ (image (byteSwap rowId) ++
      (image (byteSwap value) ++ rest)))) = some (flowId, rowId, value) := by
  simp only [extractOne, field_image (w := 16) (by decide), field_image (w := 32) (by decide),
    Option.bind_eq_bind, Option.bind_some]

theorem extractTwo_image (flowId : FlowId) (rowId first second : Word) (rest : List Lib.Byte) :
    extractTwo (wireBits (image (byteSwap flowId) ++ (image (byteSwap rowId) ++
      (image (byteSwap first) ++ (image (byteSwap second) ++ rest))))) =
      some (flowId, rowId, first, second) := by
  simp only [extractTwo, field_image (w := 16) (by decide), field_image (w := 32) (by decide),
    Option.bind_eq_bind, Option.bind_some]

end Words
end Cheetah.DataPlane
