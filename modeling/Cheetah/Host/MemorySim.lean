import Cheetah.Host.PacketCrafter

/-! A loaded dataset: `struct cheetah_memory_sim`.

Its arrays hold a field of every row each; `row` reads them at one index, as the
worker does, and `rows` is the dataset. -/
namespace Cheetah.Host

/-- `CHEETAH_MEMORY_ENTRY_COUNT`, the room the worker asks for. -/
def memoryEntryCount : Nat := 50000000

/-- The loaded part of the arrays. -/
structure MemorySim (c : Config) where
  rowIdArr : List (BitVec 32)
  valueArr : List (BitVec c.valueBits)
  keyArr : List (BitVec c.keyBits)
  flowIdArr : List (BitVec c.flowIdBits)
  entryCount : Nat
  length_rowIdArr : rowIdArr.length = entryCount
  length_valueArr : valueArr.length = entryCount
  length_keyArr : keyArr.length = entryCount
  length_flowIdArr : flowIdArr.length = entryCount
  entryCount_le : entryCount ≤ memoryEntryCount

namespace MemorySim
variable {c : Config} (sim : MemorySim c)

/-- The arguments of one `cheetah_fast_packet_stream_modify` call. -/
def row (i : Nat) : Option (Row c) := do
  some ⟨← sim.flowIdArr[i]?, ← sim.keyArr[i]?, ← sim.valueArr[i]?, ← sim.rowIdArr[i]?⟩

/-- Rows 0 to `entry_count - 1`. -/
def rows : List (Row c) :=
  List.ofFn fun i : Fin sim.entryCount =>
    ⟨sim.flowIdArr.get (i.cast sim.length_flowIdArr.symm),
      sim.keyArr.get (i.cast sim.length_keyArr.symm),
      sim.valueArr.get (i.cast sim.length_valueArr.symm),
      sim.rowIdArr.get (i.cast sim.length_rowIdArr.symm)⟩

@[simp] theorem length_rows : sim.rows.length = sim.entryCount := List.length_ofFn

theorem row_eq (i : Nat) : sim.row i = sim.rows[i]? := by
  by_cases hi : i < sim.entryCount
  · rw [List.getElem?_eq_getElem (by rwa [length_rows]), row,
      List.getElem?_eq_getElem (by rwa [sim.length_flowIdArr]),
      List.getElem?_eq_getElem (by rwa [sim.length_keyArr]),
      List.getElem?_eq_getElem (by rwa [sim.length_valueArr]),
      List.getElem?_eq_getElem (by rwa [sim.length_rowIdArr])]
    simp [rows]
  · rw [List.getElem?_eq_none (by rw [length_rows]; omega), row,
      List.getElem?_eq_none (by rw [sim.length_flowIdArr]; omega)]
    rfl

end MemorySim
end Cheetah.Host
