import Cheetah.DataPlane.Tofino

/-! `cheetah_groupby.p4`: five sketches of (key, value) cells.

Each sketch looks at one cell, chosen by a hash of the key at its own offset. A
packet whose key the cell holds with a larger value is pruned; any other packet
that reaches the sketch is written to the cell. Key and value are separate
registers, and the value action learns from metadata whether the key action found
the packet's key. `applySketch_eq` is the effect of one sketch. -/
namespace Cheetah.DataPlane.Groupby

/-- The fields of `cheetah_t`. -/
structure Header where
  flowId : FlowId
  rowId : Word
  key : Word
  value : Word
  deriving DecidableEq, Repr

inductive Sketch where
  | one | two | three | four | five
  deriving DecidableEq, Repr

/-- The fields of `cheetah_md_t`; `sameKey s` is the field `sketch_s_same_key`. -/
structure Metadata where
  prune : BitVec 8
  sameKey : Sketch → BitVec 8
  hashValue : Word

def Metadata.zero : Metadata := ⟨0, fun _ => 0, 0⟩

/-- `reg_sketch_s_key` and `reg_sketch_s_value`, indexed by `ι`. -/
structure Registers (ι : Type) where
  sketchKey : Sketch → ι → Word
  sketchValue : Sketch → ι → Word

def Registers.zero {ι : Type} : Registers ι := ⟨fun _ _ => 0, fun _ _ => 0⟩

abbrev Packet (ι : Type) := Pipe Header Metadata (Registers ι)

/-! ### The ALUs -/

/-- `alu_sketch_s_key`, the same for each sketch. -/
def aluSketchKey : StatefulAlu (Header × Metadata) where
  conditionLo := fun f reg => diff f.1.key reg = 0
  updateLo := [⟨fun lo _ => !lo, fun f _ => f.1.key⟩]
  updateHi := [⟨fun lo _ => lo, fun _ _ => 1⟩, ⟨fun lo _ => !lo, fun _ _ => 0⟩]

/-- `alu_sketch_s_value`, which reads its own sketch's `same_key`. -/
def aluSketchValue (s : Sketch) : StatefulAlu (Header × Metadata) where
  conditionLo := fun f _ => f.2.sameKey s = 1
  conditionHi := fun f reg => diff reg f.1.value > 0
  updateLo := [⟨fun lo hi => !lo || !hi, fun f _ => f.1.value⟩]
  updateHi := [⟨fun lo hi => lo && hi, fun _ _ => 1⟩, ⟨fun lo hi => lo || !hi, fun _ _ => 0⟩]

/-! ### Actions, tables, control -/

section Control
variable {ι : Type} [DecidableEq ι] (hash : Sketch → Word → ι)

/-- `action_sketch_s_key`: the ALU at the index its hash gives, output to `same_key`. -/
def actionSketchKey (s : Sketch) (p : Packet ι) : Packet ι :=
  let i := hash s p.md.hashValue
  let f := (p.hdr, p.md)
  let reg := p.regs.sketchKey s i
  let cells := Function.update (p.regs.sketchKey s) i (aluSketchKey.lo f reg)
  let out := (aluSketchKey.hi f reg).setWidth 8
  { p with
    regs := {p.regs with sketchKey := Function.update p.regs.sketchKey s cells}
    md := {p.md with sameKey := Function.update p.md.sameKey s out} }

/-- `action_sketch_s_value`: the ALU at the index its hash gives, output to `prune`. -/
def actionSketchValue (s : Sketch) (p : Packet ι) : Packet ι :=
  let i := hash s p.md.hashValue
  let f := (p.hdr, p.md)
  let reg := p.regs.sketchValue s i
  let cells := Function.update (p.regs.sketchValue s) i ((aluSketchValue s).lo f reg)
  let out := ((aluSketchValue s).hi f reg).setWidth 8
  { p with
    regs := {p.regs with sketchValue := Function.update p.regs.sketchValue s cells}
    md := {p.md with prune := out} }

/-- What every table of the program reads. -/
def readsFlowId (p : Packet ι) : FlowId := p.hdr.flowId

/-- `table_sketch_s_key` with its rule. -/
def tableSketchKey (s : Sketch) : Table FlowId (Packet ι) :=
  .install readsFlowId id [(1, actionSketchKey hash s)]

/-- `table_sketch_s_value` with its rule. -/
def tableSketchValue (s : Sketch) : Table FlowId (Packet ι) :=
  .install readsFlowId id [(1, actionSketchValue hash s)]

def modifyHash (p : Packet ι) : Packet ι := {p with md := {p.md with hashValue := p.hdr.key}}

/-- `add_to_field(cheetah_md.hash_value, n)`. -/
def addToHash (n : Word) (p : Packet ι) : Packet ι :=
  {p with md := {p.md with hashValue := p.md.hashValue + n}}

def modifyHashTwo : Packet ι → Packet ι := addToHash 3
def modifyHashThree : Packet ι → Packet ι := addToHash 2
def modifyHashFour : Packet ι → Packet ι := addToHash 2
def modifyHashFive : Packet ι → Packet ι := addToHash 2

def tableHashInit : Table FlowId (Packet ι) := .install readsFlowId id [(1, modifyHash)]
def tableHashInitTwo : Table FlowId (Packet ι) := .install readsFlowId id [(1, modifyHashTwo)]
def tableHashInitThree : Table FlowId (Packet ι) := .install readsFlowId id [(1, modifyHashThree)]
def tableHashInitFour : Table FlowId (Packet ι) := .install readsFlowId id [(1, modifyHashFour)]
def tableHashInitFive : Table FlowId (Packet ι) := .install readsFlowId id [(1, modifyHashFive)]

def tablePrune : Table FlowId (Packet ι) := .install readsFlowId id [(1, Pipe.drop)]

/-- Both tables of a sketch. -/
def applySketch (s : Sketch) (p : Packet ι) : Packet ι :=
  (tableSketchValue hash s).apply ((tableSketchKey hash s).apply p)

/-- A sketch after the first: skipped once the packet is marked. -/
def applyUnpruned (s : Sketch) (p : Packet ι) : Packet ι :=
  if p.md.prune = 0 then applySketch hash s p else p

/-- `ingress` up to its last `if`. -/
def applySketches (p : Packet ι) : Packet ι :=
  let p := tableHashInit.apply p
  let p := applySketch hash .one p
  let p := tableHashInitTwo.apply p
  let p := applyUnpruned hash .two p
  let p := tableHashInitThree.apply p
  let p := applyUnpruned hash .three p
  let p := tableHashInitFour.apply p
  let p := applyUnpruned hash .four p
  let p := tableHashInitFive.apply p
  applyUnpruned hash .five p

def ingress (p : Packet ι) : Packet ι :=
  let p := applySketches hash p
  if p.md.prune = 1 then tablePrune.apply p else p

/-- The switch running the group-by query. -/
def switch : Lib.Pruner Header (Registers ι) := pruner (fun _ => Metadata.zero) (ingress hash)

end Control

/-! ### One sketch -/

theorem aluSketchKey_lo (f : Header × Metadata) (reg : Word) : aluSketchKey.lo f reg = f.1.key := by
  by_cases h : f.1.key = reg
  · simp [StatefulAlu.lo, StatefulAlu.holds, aluSketchKey, diff_eq_zero, h]
  · simp [StatefulAlu.lo, StatefulAlu.holds, aluSketchKey, diff_eq_zero, h]

theorem aluSketchKey_hi (f : Header × Metadata) (reg : Word) :
    aluSketchKey.hi f reg = if f.1.key = reg then 1 else 0 := by
  by_cases h : f.1.key = reg
  · simp [StatefulAlu.hi, StatefulAlu.holds, aluSketchKey, diff_eq_zero, h]
  · simp [StatefulAlu.hi, StatefulAlu.holds, aluSketchKey, diff_eq_zero, h]

/-- The value register keeps its word for the packet's key and a smaller value. -/
theorem aluSketchValue_lo (s : Sketch) (f : Header × Metadata) (reg : Word) :
    (aluSketchValue s).lo f reg = if f.2.sameKey s = 1 ∧ f.1.value < reg then reg else f.1.value := by
  by_cases hk : f.2.sameKey s = 1#8 <;> by_cases hv : f.1.value < reg <;>
    simp [StatefulAlu.lo, StatefulAlu.holds, aluSketchValue, hk, diff_pos, hv]

/-- The two `hi` predicates overlap on a pruned packet, where 1 OR 0 is 1, and both
fail when the key differs and the register is larger, where the output is 0. -/
theorem aluSketchValue_hi (s : Sketch) (f : Header × Metadata) (reg : Word) :
    (aluSketchValue s).hi f reg = if f.2.sameKey s = 1 ∧ f.1.value < reg then 1 else 0 := by
  by_cases hk : f.2.sameKey s = 1#8 <;> by_cases hv : f.1.value < reg <;>
    simp [StatefulAlu.hi, StatefulAlu.holds, aluSketchValue, hk, diff_pos, hv]

section Stage
variable {ι : Type} [DecidableEq ι] (hash : Sketch → Word → ι)

/-- A cell prunes a packet with its key and a smaller value. -/
def Prunes (key value : Word) (h : Header) : Prop := key = h.key ∧ h.value < value

instance (key value : Word) (h : Header) : Decidable (Prunes key value h) :=
  inferInstanceAs (Decidable (_ ∧ _))

/-- The registers after a packet visits the cell of sketch `s` at `i`. -/
def visit (h : Header) (s : Sketch) (i : ι) (r : Registers ι) : Registers ι where
  sketchKey := Function.update r.sketchKey s (Function.update (r.sketchKey s) i h.key)
  sketchValue := Function.update r.sketchValue s (Function.update (r.sketchValue s) i
    (if Prunes (r.sketchKey s i) (r.sketchValue s i) h then r.sketchValue s i else h.value))

/-- One sketch on a flow-1 packet: the cell is visited and `prune` says whether the
cell prunes it. -/
theorem applySketch_eq (s : Sketch) (p : Packet ι) (hflow : p.hdr.flowId = 1) :
    ∃ sameKey, applySketch hash s p =
      ⟨p.hdr, ⟨if Prunes (p.regs.sketchKey s (hash s p.md.hashValue))
          (p.regs.sketchValue s (hash s p.md.hashValue)) p.hdr then 1 else 0, sameKey, p.md.hashValue⟩,
        visit p.hdr s (hash s p.md.hashValue) p.regs, p.dropped⟩ := by
  have hprunes : ∀ key value : Word,
      ((if p.hdr.key = key then (1 : BitVec 8) else 0) = 1 ∧ p.hdr.value < value) ↔
        Prunes key value p.hdr := by
    intro key value
    by_cases h : p.hdr.key = key
    · simp [Prunes, h]
    · simp [Prunes, h, Ne.symm h]
  have hflag : ∀ (c : Prop) [Decidable c],
      BitVec.setWidth 8 (if c then (1 : Word) else 0) = if c then 1 else 0 := by
    intro c _
    split <;> rfl
  have hkey : (tableSketchKey hash s).apply p = actionSketchKey hash s p := by
    rw [tableSketchKey, Table.apply_install_one]
    exact if_pos hflow
  have hvalue : (tableSketchValue hash s).apply (actionSketchKey hash s p) =
      actionSketchValue hash s (actionSketchKey hash s p) := by
    rw [tableSketchValue, Table.apply_install_one]
    exact if_pos hflow
  rw [applySketch, hkey, hvalue]
  refine ⟨(actionSketchKey hash s p).md.sameKey, ?_⟩
  simp only [actionSketchKey, actionSketchValue, aluSketchKey_lo, aluSketchKey_hi, aluSketchValue_lo,
    aluSketchValue_hi, Function.update_self, hprunes, hflag, visit]

end Stage

end Cheetah.DataPlane.Groupby
