import Cheetah.DataPlane.Extract

/-! `cheetah_filtering.p4`: the rows below a constant.

The ALU compares a packet's value with `FILTER_CONSTANT` and marks the packets that are
not below it; its register is never written. The tables that `rules.md` names for this
query are not those of the program: `filterRules` and `pruneRules` are the flow ids
installed in `table_filter` and in `table_prune`. -/
namespace Cheetah.DataPlane.Filtering

/-- The fields of `cheetah_md_t`. -/
structure Metadata where
  rowId : Word
  prune : BitVec 8

/-- `parse_cheetah`. -/
def parseCheetah (h : Header) : Metadata := ⟨h.rowId, 0⟩

/-- `filter_reg`, one word. -/
structure Registers where
  filter : Word
  deriving DecidableEq, Repr

abbrev Packet := Pipe Header Metadata Registers

section Control
variable (filterConstant : Word) (filterRules pruneRules : List FlowId)

def aluFilter : StatefulAlu (Header × Metadata) where
  conditionLo := fun f _ => diff f.1.value filterConstant < 0
  updateHi := [⟨fun lo _ => lo, fun _ _ => 0⟩, ⟨fun lo _ => !lo, fun _ _ => 1⟩]

def actionFilter (p : Packet) : Packet :=
  let f := (p.hdr, p.md)
  { p with
    regs := {p.regs with filter := (aluFilter filterConstant).lo f p.regs.filter}
    md := {p.md with prune := ((aluFilter filterConstant).hi f p.regs.filter).setWidth 8} }

/-- Both tables read the flow id and have one action. -/
def table (rules : List FlowId) (action : Packet → Packet) : Table FlowId Packet :=
  .install (fun p => p.hdr.flowId) id (rules.map fun k => (k, action))

def tableFilter : Table FlowId Packet := table filterRules (actionFilter filterConstant)
def tablePrune : Table FlowId Packet := table pruneRules Pipe.drop

def ingress (p : Packet) : Packet :=
  let p := (tableFilter filterConstant filterRules).apply p
  if p.md.prune = 1 then (tablePrune pruneRules).apply p else p

/-- The switch running the filter query. -/
def switch : Lib.Pruner Header Registers :=
  pruner parseCheetah (ingress filterConstant filterRules pruneRules)

/-! ### One packet -/

/-- A packet that comes out: its value is below the constant, or one of the tables has
no entry for its flow. -/
def Passes (h : Header) : Prop :=
  h.value < filterConstant ∨ h.flowId ∉ filterRules ∨ h.flowId ∉ pruneRules

instance (h : Header) : Decidable (Passes filterConstant filterRules pruneRules h) :=
  inferInstanceAs (Decidable (_ ∨ _ ∨ _))

/-- The register keeps its word. -/
theorem aluFilter_lo (f : Header × Metadata) (reg : Word) :
    (aluFilter filterConstant).lo f reg = reg := rfl

theorem aluFilter_hi (f : Header × Metadata) (reg : Word) :
    (aluFilter filterConstant).hi f reg = if f.1.value < filterConstant then 0 else 1 := by
  by_cases h : f.1.value < filterConstant <;>
    simp [StatefulAlu.hi, StatefulAlu.holds, aluFilter, diff_neg, h]

theorem table_apply (rules : List FlowId) (action : Packet → Packet) (p : Packet) :
    (table rules action).apply p = if p.hdr.flowId ∈ rules then action p else p :=
  Table.apply_install_mem _ _ _ _ _

/-- `table_filter` on a packet as it comes from the parser. -/
theorem tableFilter_apply (r : Registers) (h : Header) :
    (tableFilter filterConstant filterRules).apply ⟨h, parseCheetah h, r, false⟩ =
      ⟨h, ⟨h.rowId, if h.flowId ∈ filterRules ∧ ¬ h.value < filterConstant then 1 else 0⟩, r, false⟩ := by
  rw [tableFilter, table_apply]
  by_cases hit : h.flowId ∈ filterRules
  · rw [if_pos hit]
    by_cases hv : h.value < filterConstant <;>
      simp [actionFilter, aluFilter_lo, aluFilter_hi, parseCheetah, hit, hv]
  · rw [if_neg hit, if_neg fun hboth => hit hboth.1]
    rfl

/-- One packet: nothing is remembered, and it comes out when it passes. -/
theorem switch_packet (r : Registers) (h : Header) :
    (switch filterConstant filterRules pruneRules).step r h = r ∧
      ((switch filterConstant filterRules pruneRules).drops r h = true ↔
        ¬ Passes filterConstant filterRules pruneRules h) := by
  simp only [switch, pruner_step, pruner_drops, ingress, tableFilter_apply]
  unfold Passes
  by_cases hmark : h.flowId ∈ filterRules ∧ ¬ h.value < filterConstant
  · rw [if_pos hmark, if_pos rfl, tablePrune, table_apply]
    by_cases hprune : h.flowId ∈ pruneRules <;> simp [hprune, hmark, Pipe.drop]
  · have hkept : ¬ (if h.flowId ∈ filterRules ∧ ¬ h.value < filterConstant then (1 : BitVec 8) else 0) = 1 := by
      rw [if_neg hmark]
      decide
    rw [if_neg hkept]
    refine ⟨rfl, iff_of_false Bool.false_ne_true (not_not.mpr ?_)⟩
    by_cases hit : h.flowId ∈ filterRules
    · exact .inl (by_contra fun hv => hmark ⟨hit, hv⟩)
    · exact .inr (.inl hit)

/-! ### Any run -/

/-- **What comes out** of any run, from any register, is every packet that passes, in
order. -/
theorem forwarded_eq (r : Registers) (ps : List Header) :
    (switch filterConstant filterRules pruneRules).run r ps = r ∧
      (switch filterConstant filterRules pruneRules).forwarded r ps =
        ps.filter fun h => Passes filterConstant filterRules pruneRules h := by
  obtain ⟨hrun, hfwd⟩ := (switch filterConstant filterRules pruneRules).forwarded_of_fixed
    (fun h => (switch_packet filterConstant filterRules pruneRules r h).1) ps
  refine ⟨hrun, hfwd.trans (List.filter_congr fun h _ => ?_)⟩
  have hdrops := (switch_packet filterConstant filterRules pruneRules r h).2
  by_cases hpass : Passes filterConstant filterRules pruneRules h
  · simp [hpass, Bool.eq_false_iff.mpr fun hd => hdrops.mp hd hpass]
  · simp [hpass, hdrops.mpr hpass]

end Control
end Cheetah.DataPlane.Filtering
