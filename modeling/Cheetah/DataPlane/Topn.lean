import Cheetah.DataPlane.Tofino
import Mathlib.Algebra.Order.Ring.Nat

/-! `cheetah_topn.p4`: a cutoff learnt from the first packets.

The first `CHEETAH_TOPN_VALUE` packets lower a min register. From then on a packet is
compared with twice that minimum, by a subtraction modulo 2^32 whose result is read as
a sign, and a second counter counts the packets above it. `Learnt` is what the three
registers hold after a run; `learnt_run` also says which packets were dropped: those
above the cutoff once the second counter has passed `CHEETAH_TOPN_VALUE`. -/
namespace Cheetah.DataPlane.Topn

/-- The fields of `cheetah_t`. -/
structure Header where
  flowId : FlowId
  rowId : Word
  value : Word
  deriving DecidableEq, Repr

/-- The fields of `cheetah_md_t`. -/
structure Metadata where
  rowId : Word
  diff : Word
  process : BitVec 8
  prune : BitVec 8
  topnMinValOne : Word
  topnLessThanMin : BitVec 8
  topnMoreThanN : BitVec 8
  topnLessThanMinTwo : BitVec 8

/-- `parse_cheetah`. -/
def parseCheetah (h : Header) : Metadata := ⟨h.rowId, 0, 0, 0, 0, 0, 0, 0⟩

/-- `cheetah_topn_counter_reg`, `cheetah_topn_min_reg_one` and
`cheetah_topn_counter_two_reg`. The rules use index 1, the default actions index 0. -/
structure Registers where
  counterReg : Nat → Word
  minRegOne : Nat → Word
  counterTwoReg : Nat → Word

/-- The registers at the start: `preset` is written to the min register at index 1. -/
def Registers.init (preset : Word) : Registers :=
  ⟨fun _ => 0, Function.update (fun _ => 0) 1 preset, fun _ => 0⟩

/-- The value `rules.md` writes. -/
def minPreset : Word := 10000

abbrev Packet := Pipe Header Metadata Registers

/-- `CHEETAH_TOPN_INT_MAX`. -/
def cheetahTopnIntMax : Word := 0x7fffffff

/-! ### The ALUs -/

/-- `cheetah_topn_query_one`. -/
def cheetahTopnQueryOne : StatefulAlu (Header × Metadata) where
  conditionLo := fun f reg => DataPlane.diff reg f.1.value > 0
  updateLo := [⟨fun lo _ => lo, fun f _ => f.1.value⟩, ⟨fun lo _ => !lo, fun _ reg => reg⟩]
  updateHi := [⟨fun lo _ => lo, fun _ _ => 1⟩, ⟨fun lo _ => !lo, fun _ _ => 0⟩]

/-- `cheetah_topn_min_pack`, whose output is `alu_lo`. -/
def cheetahTopnMinPack : StatefulAlu (Header × Metadata) where
  updateLo := [⟨fun _ _ => true, fun _ reg => reg⟩]

section Alus
variable (cheetahTopnValue : Word)

/-- `cheetah_topn_count_pkt_one`. -/
def cheetahTopnCountPktOne : StatefulAlu (Header × Metadata) where
  conditionLo := fun _ reg => reg < cheetahTopnValue
  updateLo := [⟨fun lo _ => lo, fun _ reg => reg + 1⟩, ⟨fun lo _ => !lo, fun _ reg => reg⟩]
  updateHi := [⟨fun lo _ => lo, fun _ _ => 0⟩, ⟨fun lo _ => !lo, fun _ _ => 1⟩]

/-- `cheetah_topn_t_one`. -/
def cheetahTopnTOne : StatefulAlu (Header × Metadata) where
  conditionLo := fun f _ => cheetahTopnIntMax < f.2.topnMinValOne
  conditionHi := fun _ reg => DataPlane.diff reg cheetahTopnValue > 0
  updateLo := [⟨fun lo hi => lo && !hi, fun _ reg => reg + 1⟩]
  updateHi := [⟨fun lo hi => lo && hi, fun _ _ => 1⟩, ⟨fun lo hi => !lo || !hi, fun _ _ => 0⟩]

end Alus

/-! ### Actions, tables, control -/

def cheetahTopnMinAction (index : Nat) (p : Packet) : Packet :=
  let f := (p.hdr, p.md)
  let reg := p.regs.minRegOne index
  let out := (cheetahTopnQueryOne.hi f reg).setWidth 8
  { p with
    regs := {p.regs with
      minRegOne := Function.update p.regs.minRegOne index (cheetahTopnQueryOne.lo f reg)}
    md := {p.md with topnLessThanMin := out} }

def cheetahTopnMinPackAction (index : Nat) (p : Packet) : Packet :=
  let f := (p.hdr, p.md)
  let reg := p.regs.minRegOne index
  let out := cheetahTopnMinPack.lo f reg
  { p with
    regs := {p.regs with minRegOne := Function.update p.regs.minRegOne index out}
    md := {p.md with topnMinValOne := out} }

def cheetahTopnDoubleAction (p : Packet) : Packet :=
  {p with md := {p.md with topnMinValOne := p.md.topnMinValOne <<< 1}}

def cheetahTopnSubtractAction (p : Packet) : Packet :=
  {p with md := {p.md with topnMinValOne := p.md.topnMinValOne - p.hdr.value}}

section Control
variable (cheetahTopnValue : Word)

def cheetahTopnCount (index : Nat) (p : Packet) : Packet :=
  let f := (p.hdr, p.md)
  let reg := p.regs.counterReg index
  let alu := cheetahTopnCountPktOne cheetahTopnValue
  { p with
    regs := {p.regs with counterReg := Function.update p.regs.counterReg index (alu.lo f reg)}
    md := {p.md with topnMoreThanN := (alu.hi f reg).setWidth 8} }

def cheetahTopnTOneAction (index : Nat) (p : Packet) : Packet :=
  let f := (p.hdr, p.md)
  let reg := p.regs.counterTwoReg index
  let alu := cheetahTopnTOne cheetahTopnValue
  { p with
    regs := {p.regs with counterTwoReg := Function.update p.regs.counterTwoReg index (alu.lo f reg)}
    md := {p.md with topnLessThanMinTwo := (alu.hi f reg).setWidth 8} }

def cheetahTopnTableCount : Table FlowId Packet :=
  .install (fun p => p.hdr.flowId) (cheetahTopnCount cheetahTopnValue 0)
    [(1, cheetahTopnCount cheetahTopnValue 1)]

def cheetahTopnTableMin : Table (FlowId × BitVec 8) Packet :=
  .install (fun p => (p.hdr.flowId, p.md.topnMoreThanN)) (cheetahTopnMinAction 0)
    [((1, 0), cheetahTopnMinAction 1), ((1, 1), cheetahTopnMinPackAction 1)]

def cheetahTopnDouble : Table FlowId Packet :=
  .install (fun p => p.hdr.flowId) cheetahTopnDoubleAction []

def cheetahTopnSubtract : Table FlowId Packet :=
  .install (fun p => p.hdr.flowId) cheetahTopnSubtractAction []

def cheetahTopnTOneTable : Table (FlowId × BitVec 8) Packet :=
  .install (fun p => (p.hdr.flowId, p.md.topnMoreThanN)) id
    [((1, 1), cheetahTopnTOneAction cheetahTopnValue 1), ((1, 0), id)]

def cheetahTopnPruneCheck : Table (BitVec 8 × BitVec 8 × BitVec 8) Packet :=
  .install (fun p => (p.md.topnLessThanMin, p.md.topnLessThanMinTwo, p.md.topnMoreThanN)) id
    [((0, 1, 1), Pipe.drop), ((1, 1, 1), Pipe.drop), ((1, 0, 1), Pipe.drop)]

def ingress (p : Packet) : Packet :=
  let p := (cheetahTopnTableCount cheetahTopnValue).apply p
  let p := cheetahTopnTableMin.apply p
  let p := cheetahTopnDouble.apply p
  let p := cheetahTopnSubtract.apply p
  let p := (cheetahTopnTOneTable cheetahTopnValue).apply p
  cheetahTopnPruneCheck.apply p

/-- The switch running the top-N query. -/
def switch : Lib.Pruner Header Registers := pruner parseCheetah (ingress cheetahTopnValue)

end Control

/-! ### One packet -/

theorem cheetahTopnQueryOne_lo (f : Header × Metadata) (reg : Word) :
    cheetahTopnQueryOne.lo f reg = if f.1.value < reg then f.1.value else reg := by
  by_cases h : f.1.value < reg <;>
    simp [StatefulAlu.lo, StatefulAlu.holds, cheetahTopnQueryOne, diff_pos, h]

theorem cheetahTopnCountPktOne_lo (n : Word) (f : Header × Metadata) (reg : Word) :
    (cheetahTopnCountPktOne n).lo f reg = if reg < n then reg + 1 else reg := by
  by_cases h : reg < n <;> simp [StatefulAlu.lo, StatefulAlu.holds, cheetahTopnCountPktOne, h]

theorem cheetahTopnCountPktOne_hi (n : Word) (f : Header × Metadata) (reg : Word) :
    (cheetahTopnCountPktOne n).hi f reg = if reg < n then 0 else 1 := by
  by_cases h : reg < n <;> simp [StatefulAlu.hi, StatefulAlu.holds, cheetahTopnCountPktOne, h]

theorem cheetahTopnMinPack_lo (f : Header × Metadata) (reg : Word) :
    cheetahTopnMinPack.lo f reg = reg := rfl

/-- The second counter counts the packets above the cutoff until it passes `n`. -/
theorem cheetahTopnTOne_lo (n : Word) (f : Header × Metadata) (reg : Word) :
    (cheetahTopnTOne n).lo f reg =
      if cheetahTopnIntMax < f.2.topnMinValOne ∧ ¬ n < reg then reg + 1 else reg := by
  by_cases hc : cheetahTopnIntMax < f.2.topnMinValOne <;> by_cases hn : n < reg <;>
    simp [StatefulAlu.lo, StatefulAlu.holds, cheetahTopnTOne, diff_pos, hc, hn]

theorem cheetahTopnTOne_hi (n : Word) (f : Header × Metadata) (reg : Word) :
    (cheetahTopnTOne n).hi f reg =
      if cheetahTopnIntMax < f.2.topnMinValOne ∧ n < reg then 1 else 0 := by
  by_cases hc : cheetahTopnIntMax < f.2.topnMinValOne <;> by_cases hn : n < reg <;>
    simp [StatefulAlu.hi, StatefulAlu.holds, cheetahTopnTOne, diff_pos, hc, hn]

section Tables
variable (n : Word) {p : Packet}

theorem tableCount_apply (hflow : p.hdr.flowId = 1) :
    (cheetahTopnTableCount n).apply p = cheetahTopnCount n 1 p := by
  rw [cheetahTopnTableCount, Table.apply_install_one]
  exact if_pos hflow

theorem tableMin_apply_learning (hflow : p.hdr.flowId = 1) (hmore : p.md.topnMoreThanN = 0) :
    cheetahTopnTableMin.apply p = cheetahTopnMinAction 1 p := by
  simp [cheetahTopnTableMin, Table.apply_install, hflow, hmore]

theorem tableMin_apply_cutoff (hflow : p.hdr.flowId = 1) (hmore : p.md.topnMoreThanN = 1) :
    cheetahTopnTableMin.apply p = cheetahTopnMinPackAction 1 p := by
  simp [cheetahTopnTableMin, Table.apply_install, Table.lookup_cons_ite, hflow, hmore]

theorem double_apply : cheetahTopnDouble.apply p = cheetahTopnDoubleAction p := rfl

theorem subtract_apply : cheetahTopnSubtract.apply p = cheetahTopnSubtractAction p := rfl

theorem tOneTable_apply_learning (hflow : p.hdr.flowId = 1) (hmore : p.md.topnMoreThanN = 0) :
    (cheetahTopnTOneTable n).apply p = p := by
  simp [cheetahTopnTOneTable, Table.apply_install, Table.lookup_cons_ite, hflow, hmore]

theorem tOneTable_apply_cutoff (hflow : p.hdr.flowId = 1) (hmore : p.md.topnMoreThanN = 1) :
    (cheetahTopnTOneTable n).apply p = cheetahTopnTOneAction n 1 p := by
  simp [cheetahTopnTOneTable, Table.apply_install, hflow, hmore]

theorem pruneCheck_apply_learning (hmore : p.md.topnMoreThanN = 0) :
    cheetahTopnPruneCheck.apply p = p := by
  simp [cheetahTopnPruneCheck, Table.apply_install, Table.lookup_cons_ite, hmore]

/-- Past the first packets `topn_less_than_min` is 0, and the packet is pruned when the
second counter says so. -/
theorem pruneCheck_apply_cutoff (hmin : p.md.topnLessThanMin = 0) (hmore : p.md.topnMoreThanN = 1) :
    cheetahTopnPruneCheck.apply p = if p.md.topnLessThanMinTwo = 1 then p.drop else p := by
  by_cases htwo : p.md.topnLessThanMinTwo = 1#8 <;>
    simp [cheetahTopnPruneCheck, Table.apply_install, Table.lookup_cons_ite, hmin, hmore, htwo]

end Tables

section Step
variable {n : Word} {r : Registers} {h : Header}

/-- One of the first packets: it is counted, lowers the minimum and goes through. -/
theorem switch_learning (hflow : h.flowId = 1) (hlt : r.counterReg 1 < n) :
    (switch n).step r h =
        { r with
          counterReg := Function.update r.counterReg 1 (r.counterReg 1 + 1)
          minRegOne := Function.update r.minRegOne 1
            (if h.value < r.minRegOne 1 then h.value else r.minRegOne 1) } ∧
      (switch n).drops r h = false := by
  let start : Packet := ⟨h, parseCheetah h, r, false⟩
  have hmore : (cheetahTopnCount n 1 start).md.topnMoreThanN = 0 := by
    simp [cheetahTopnCount, cheetahTopnCountPktOne_hi, start, hlt]
  let out : Packet := cheetahTopnSubtractAction (cheetahTopnDoubleAction
    (cheetahTopnMinAction 1 (cheetahTopnCount n 1 start)))
  have hout : out.hdr.flowId = 1 := hflow
  have hout' : out.md.topnMoreThanN = 0 := hmore
  have hingress : ingress n start = out := by
    simp only [ingress]
    rw [tableCount_apply n hflow, tableMin_apply_learning hflow hmore, double_apply, subtract_apply,
      tOneTable_apply_learning n hout hout', pruneCheck_apply_learning hout']
  rw [switch, pruner_step, pruner_drops, show ingress n ⟨h, parseCheetah h, r, false⟩ = _ from hingress]
  refine ⟨?_, rfl⟩
  simp [out, cheetahTopnSubtractAction, cheetahTopnDoubleAction, cheetahTopnMinAction, cheetahTopnCount,
    cheetahTopnCountPktOne_lo, cheetahTopnQueryOne_lo, start, hlt]

/-- Twice the minimum less the value, as the switch computes it, is negative. -/
def Above (cutoff value : Word) : Prop := cheetahTopnIntMax < (cutoff <<< 1) - value

instance (cutoff value : Word) : Decidable (Above cutoff value) := inferInstanceAs (Decidable (_ < _))

/-- A later packet: it is counted if it lies above the cutoff, and dropped if more than
`n` did before it. -/
theorem switch_cutoff (hflow : h.flowId = 1) (hge : ¬ r.counterReg 1 < n) :
    (switch n).step r h =
        { r with
          counterTwoReg := Function.update r.counterTwoReg 1
            (if Above (r.minRegOne 1) h.value ∧ ¬ n < r.counterTwoReg 1 then r.counterTwoReg 1 + 1
              else r.counterTwoReg 1) } ∧
      ((switch n).drops r h = true ↔ Above (r.minRegOne 1) h.value ∧ n < r.counterTwoReg 1) := by
  let start : Packet := ⟨h, parseCheetah h, r, false⟩
  have hmore : (cheetahTopnCount n 1 start).md.topnMoreThanN = 1 := by
    simp [cheetahTopnCount, cheetahTopnCountPktOne_hi, start, hge]
  let mid : Packet := cheetahTopnSubtractAction (cheetahTopnDoubleAction
    (cheetahTopnMinPackAction 1 (cheetahTopnCount n 1 start)))
  have hmid : mid.hdr.flowId = 1 := hflow
  have hmid' : mid.md.topnMoreThanN = 1 := hmore
  let out : Packet := cheetahTopnTOneAction n 1 mid
  have hout : out.md.topnLessThanMin = 0 := rfl
  have hout' : out.md.topnMoreThanN = 1 := hmore
  have hingress : ingress n start = if out.md.topnLessThanMinTwo = 1 then out.drop else out := by
    simp only [ingress]
    rw [tableCount_apply n hflow, tableMin_apply_cutoff hflow hmore, double_apply, subtract_apply,
      tOneTable_apply_cutoff n hmid hmid', pruneCheck_apply_cutoff hout hout']
  have hregs : out.regs = { r with
      counterTwoReg := Function.update r.counterTwoReg 1
        (if Above (r.minRegOne 1) h.value ∧ ¬ n < r.counterTwoReg 1 then r.counterTwoReg 1 + 1
          else r.counterTwoReg 1) } := by
    simp [out, mid, cheetahTopnTOneAction, cheetahTopnSubtractAction, cheetahTopnDoubleAction,
      cheetahTopnMinPackAction, cheetahTopnCount, cheetahTopnCountPktOne_lo, cheetahTopnMinPack_lo,
      cheetahTopnTOne_lo, start, hge, Above]
  have htwo : out.md.topnLessThanMinTwo = 1 ↔ Above (r.minRegOne 1) h.value ∧ n < r.counterTwoReg 1 := by
    have hflag : out.md.topnLessThanMinTwo =
        (if Above (r.minRegOne 1) h.value ∧ n < r.counterTwoReg 1 then 1 else 0 : Word).setWidth 8 := by
      simp [out, mid, cheetahTopnTOneAction, cheetahTopnSubtractAction, cheetahTopnDoubleAction,
        cheetahTopnMinPackAction, cheetahTopnCount, cheetahTopnMinPack_lo, cheetahTopnTOne_hi, start, Above]
      rfl
    rw [hflag]
    split
    · rename_i hc
      exact iff_of_true rfl hc
    · rename_i hc
      exact iff_of_false (by decide) hc
  rw [switch, pruner_step, pruner_drops, show ingress n ⟨h, parseCheetah h, r, false⟩ = _ from hingress]
  by_cases hout : out.md.topnLessThanMinTwo = 1
  · rw [if_pos hout]
    exact ⟨hregs, iff_of_true rfl (htwo.mp hout)⟩
  · rw [if_neg hout]
    exact ⟨hregs, iff_of_false Bool.false_ne_true fun h => hout (htwo.mpr h)⟩

end Step

/-! ### A run -/

/-- The minimum after `vs`. -/
def lowest (preset : Nat) (vs : List Nat) : Nat := vs.foldl min preset

/-- The values after the first `n` that exceed twice the minimum of those. -/
def exceeders (n preset : Nat) (vs : List Nat) : List Nat :=
  (vs.drop n).filter fun v => 2 * lowest preset (vs.take n) < v

theorem lowest_concat (preset : Nat) (vs : List Nat) (v : Nat) :
    lowest preset (vs ++ [v]) = min (lowest preset vs) v := by
  rw [lowest, List.foldl_append]
  rfl

theorem lowest_le (preset : Nat) (vs : List Nat) : lowest preset vs ≤ preset := by
  induction vs using List.reverseRecOn with
  | nil => exact Nat.le_refl preset
  | append_singleton vs v ih =>
    rw [lowest_concat]
    exact Nat.le_trans (Nat.min_le_left _ _) ih

theorem exceeders_first {n : Nat} (preset : Nat) {vs : List Nat} (h : vs.length ≤ n) :
    exceeders n preset vs = [] := by
  rw [exceeders, List.drop_eq_nil_of_le h, List.filter_nil]

theorem exceeders_concat {n : Nat} (preset : Nat) {vs : List Nat} (h : n ≤ vs.length) (v : Nat) :
    exceeders n preset (vs ++ [v]) =
      exceeders n preset vs ++ if 2 * lowest preset (vs.take n) < v then [v] else [] := by
  rw [exceeders, exceeders, List.drop_append_of_le_length h, List.take_append_of_le_length h,
    List.filter_append]
  by_cases hv : 2 * lowest preset (vs.take n) < v <;> simp [hv]

/-- The subtraction is negative exactly above twice the minimum: neither side comes near
2^31. -/
theorem above_iff {cutoff value : Word} (hmin : cutoff.toNat < 2 ^ 30) (hvalue : value.toNat < 2 ^ 31) :
    Above cutoff value ↔ 2 * cutoff.toNat < value.toNat := by
  have hdouble : (cutoff <<< 1).toNat = 2 * cutoff.toNat := by
    rw [BitVec.toNat_shiftLeft, Nat.shiftLeft_eq, Nat.pow_one, Nat.mod_eq_of_lt (by omega), Nat.mul_comm]
  rw [Above, BitVec.lt_def, BitVec.toNat_sub, hdouble,
    show cheetahTopnIntMax.toNat = 2 ^ 31 - 1 from rfl]
  omega

/-- The registers at index 1 after the values `vs`. -/
structure Learnt (n preset : Nat) (vs : List Nat) (r : Registers) : Prop where
  counter : (r.counterReg 1).toNat = min n vs.length
  minimum : (r.minRegOne 1).toNat = lowest preset (vs.take n)
  counterTwo : (r.counterTwoReg 1).toNat = min (n + 1) (exceeders n preset vs).length

section Run
variable {n : Word} {preset : Nat} {vs : List Nat} {r : Registers} {h : Header}

/-- **One packet** among the first `n`. -/
theorem learnt_learning (hl : Learnt n.toNat preset vs r) (hflow : h.flowId = 1)
    (hlen : vs.length < n.toNat) :
    Learnt n.toNat preset (vs ++ [h.value.toNat]) ((switch n).step r h) ∧
      (switch n).drops r h = false := by
  have hcounter : (r.counterReg 1).toNat = vs.length := by
    rw [hl.counter]
    exact Nat.min_eq_right (Nat.le_of_lt hlen)
  have hlt : r.counterReg 1 < n := by
    rw [BitVec.lt_def, hcounter]
    exact hlen
  obtain ⟨hstep, hdrops⟩ := switch_learning hflow hlt
  rw [hstep]
  have hlen' : (vs ++ [h.value.toNat]).length ≤ n.toNat := by
    rw [List.length_append]
    exact hlen
  have htake : (vs ++ [h.value.toNat]).take n.toNat = vs ++ [h.value.toNat] :=
    List.take_of_length_le hlen'
  have hmin : (r.minRegOne 1).toNat = lowest preset vs := by
    rw [hl.minimum, List.take_of_length_le (Nat.le_of_lt hlen)]
  refine ⟨⟨?_, ?_, ?_⟩, hdrops⟩
  · have hn := n.isLt
    simp only [Function.update_self, BitVec.toNat_add, hcounter, List.length_append,
      List.length_singleton]
    rw [show (1 : Word).toNat = 1 from rfl, Nat.mod_eq_of_lt (by omega)]
    exact (Nat.min_eq_right hlen).symm
  · simp only [Function.update_self]
    rw [htake, lowest_concat, ← hmin]
    split
    · rename_i hv
      exact (Nat.min_eq_right (Nat.le_of_lt hv)).symm
    · rename_i hv
      exact (Nat.min_eq_left (Nat.not_lt.mp hv)).symm
  · rw [exceeders_first preset hlen']
    have htwo := hl.counterTwo
    rwa [exceeders_first preset (Nat.le_of_lt hlen)] at htwo

/-- **One packet** after the first `n`. -/
theorem learnt_cutoff (hl : Learnt n.toNat preset vs r) (hflow : h.flowId = 1)
    (hlen : n.toNat ≤ vs.length) (hn : n.toNat ≤ 2 ^ 31) (hmin : preset < 2 ^ 30)
    (hvalue : h.value.toNat < 2 ^ 31) :
    Learnt n.toNat preset (vs ++ [h.value.toNat]) ((switch n).step r h) ∧
      ((switch n).drops r h = true ↔
        2 * lowest preset (vs.take n.toNat) < h.value.toNat ∧
          n.toNat + 1 ≤ (exceeders n.toNat preset vs).length) := by
  have hcounter : (r.counterReg 1).toNat = n.toNat := by
    rw [hl.counter]
    exact Nat.min_eq_left hlen
  have hge : ¬ r.counterReg 1 < n := by
    rw [BitVec.lt_def, hcounter]
    exact Nat.lt_irrefl _
  have hreg : (r.minRegOne 1).toNat < 2 ^ 30 := by
    rw [hl.minimum]
    exact Nat.lt_of_le_of_lt (lowest_le _ _) hmin
  have habove : Above (r.minRegOne 1) h.value ↔ 2 * lowest preset (vs.take n.toNat) < h.value.toNat := by
    rw [above_iff hreg hvalue, hl.minimum]
  have htwo : n < r.counterTwoReg 1 ↔ n.toNat + 1 ≤ (exceeders n.toNat preset vs).length := by
    rw [BitVec.lt_def, hl.counterTwo, Nat.lt_min]
    omega
  obtain ⟨hstep, hdrops⟩ := switch_cutoff hflow hge
  rw [hstep]
  refine ⟨⟨?_, ?_, ?_⟩, hdrops.trans (and_congr habove htwo)⟩
  · rw [hcounter]
    simp only [List.length_append, List.length_singleton]
    exact (Nat.min_eq_left (Nat.le_succ_of_le hlen)).symm
  · rw [List.take_append_of_le_length hlen]
    exact hl.minimum
  · simp only [Function.update_self]
    rw [exceeders_concat preset hlen]
    by_cases hv : 2 * lowest preset (vs.take n.toNat) < h.value.toNat
    · rw [if_pos hv, List.length_append, List.length_singleton]
      by_cases hfull : n < r.counterTwoReg 1
      · rw [if_neg (fun hc => hc.2 hfull), hl.counterTwo, Nat.min_eq_left (htwo.mp hfull),
          Nat.min_eq_left (Nat.le_succ_of_le (htwo.mp hfull))]
      · have hcount : (r.counterTwoReg 1).toNat = (exceeders n.toNat preset vs).length := by
          rw [hl.counterTwo]
          exact Nat.min_eq_right (Nat.le_of_lt (Nat.not_le.mp (mt htwo.mpr hfull)))
        have hsucc := Nat.not_le.mp (mt htwo.mpr hfull)
        rw [if_pos ⟨habove.mpr hv, hfull⟩, BitVec.toNat_add, hcount, show (1 : Word).toNat = 1 from rfl,
          Nat.mod_eq_of_lt (by omega), Nat.min_eq_right hsucc]
    · rw [if_neg (fun hc => hv (habove.mp hc.1)), if_neg hv, List.append_nil]
      exact hl.counterTwo

theorem learnt_init (n preset : Word) : Learnt n.toNat preset.toNat [] (Registers.init preset) where
  counter := (Nat.min_zero n.toNat).symm
  minimum := by
    rw [List.take_nil]
    rfl
  counterTwo := by
    rw [exceeders_first _ (Nat.zero_le _)]
    exact (Nat.min_zero _).symm

/-- **Any run**: what the registers hold, and the values that were dropped. -/
theorem learnt_run (hn : n.toNat ≤ 2 ^ 31) (preset : Word) (hpreset : preset.toNat < 2 ^ 30)
    (ps : List Header) (hflow : ∀ h ∈ ps, h.flowId = 1) (hvalue : ∀ h ∈ ps, h.value.toNat < 2 ^ 31) :
    Learnt n.toNat preset.toNat (ps.map (·.value.toNat)) ((switch n).run (Registers.init preset) ps) ∧
      ((switch n).dropped (Registers.init preset) ps).map (·.value.toNat) =
        (exceeders n.toNat preset.toNat (ps.map (·.value.toNat))).drop (n.toNat + 1) := by
  induction ps using List.reverseRecOn with
  | nil =>
    refine ⟨learnt_init n preset, ?_⟩
    rw [List.map_nil, exceeders_first _ (Nat.zero_le _)]
    rfl
  | append_singleton ps h ih =>
    obtain ⟨hl, hdropped⟩ := ih (fun q hq => hflow q (List.mem_append_left _ hq))
      (fun q hq => hvalue q (List.mem_append_left _ hq))
    have hf := hflow h (by simp)
    have hv := hvalue h (by simp)
    rw [Lib.Pruner.run_concat, Lib.Pruner.dropped_concat, List.map_append, List.map_append, hdropped,
      List.map_singleton]
    rcases Nat.lt_or_ge (ps.map (·.value.toNat)).length n.toNat with hlen | hlen
    · have hlen' : (ps.map (·.value.toNat) ++ [h.value.toNat]).length ≤ n.toNat := by
        rw [List.length_append]
        exact hlen
      obtain ⟨hl', hkept⟩ := learnt_learning hl hf hlen
      refine ⟨hl', ?_⟩
      rw [hkept, exceeders_first _ (Nat.le_of_lt hlen), exceeders_first _ hlen']
      rfl
    · obtain ⟨hl', hdrops⟩ := learnt_cutoff hl hf hlen hn hpreset hv
      refine ⟨hl', ?_⟩
      rw [exceeders_concat _ hlen, List.drop_append]
      refine congrArg _ ?_
      by_cases hc : 2 * lowest preset.toNat ((ps.map (·.value.toNat)).take n.toNat) < h.value.toNat
      · by_cases hfull : n.toNat + 1 ≤ (exceeders n.toNat preset.toNat (ps.map (·.value.toNat))).length
        · rw [if_pos hc, if_pos (hdrops.mpr ⟨hc, hfull⟩), Nat.sub_eq_zero_of_le hfull]
          rfl
        · rw [if_pos hc, if_neg (fun hd => hfull (hdrops.mp hd).2)]
          exact (List.drop_eq_nil_of_le (by simp; omega)).symm
      · rw [if_neg hc, if_neg (fun hd => hc (hdrops.mp hd).1), List.drop_nil]
        rfl

/-- The exceeding values, counted over the packets that bring them. -/
theorem length_exceeders (n preset : Nat) (ps : List Header) :
    (exceeders n preset (ps.map (·.value.toNat))).length =
      (ps.drop n).countP fun q => 2 * lowest preset ((ps.take n).map (·.value.toNat)) < q.value.toNat := by
  rw [exceeders, ← List.countP_eq_length_filter, ← List.map_drop, ← List.map_take, List.countP_map]
  rfl

/-- **The drop condition**, after any `m` packets of a run: the registers hold the counts and
the minimum, which stays after the first `n` packets, and the next packet is dropped when it
comes after those, exceeds twice the minimum, and more than `n` packets did so before it. -/
theorem drops_next_iff (hn : n.toNat ≤ 2 ^ 31) (preset : Word) (hpreset : preset.toNat < 2 ^ 30)
    (ps : List Header) (hflow : ∀ h ∈ ps, h.flowId = 1) (hvalue : ∀ h ∈ ps, h.value.toNat < 2 ^ 31)
    {m : Nat} (hm : m ≤ ps.length) :
    let r := (switch n).run (Registers.init preset) (ps.take m)
    let above := ((ps.take m).drop n.toNat).countP fun q => 2 * (r.minRegOne 1).toNat < q.value.toNat
    (r.counterReg 1).toNat = min n.toNat m ∧
      (r.minRegOne 1).toNat = lowest preset.toNat ((ps.take (min n.toNat m)).map (·.value.toNat)) ∧
      (n.toNat ≤ m →
        r.minRegOne 1 = ((switch n).run (Registers.init preset) (ps.take n.toNat)).minRegOne 1) ∧
      (r.counterTwoReg 1).toNat = min (n.toNat + 1) above ∧
      ∀ h, ps[m]? = some h → ((switch n).drops r h = true ↔
        n.toNat ≤ m ∧ 2 * (r.minRegOne 1).toNat < h.value.toNat ∧ n.toNat + 1 ≤ above) := by
  intro r above
  have hlearnt : ∀ k, Learnt n.toNat preset.toNat ((ps.take k).map (·.value.toNat))
      ((switch n).run (Registers.init preset) (ps.take k)) := fun k =>
    (learnt_run hn preset hpreset (ps.take k) (fun q hq => hflow q (List.mem_of_mem_take hq))
      (fun q hq => hvalue q (List.mem_of_mem_take hq))).1
  have hl : Learnt n.toNat preset.toNat ((ps.take m).map (·.value.toNat)) r := hlearnt m
  have hlen : ((ps.take m).map (·.value.toNat)).length = m := by
    rw [List.length_map, List.length_take, Nat.min_eq_left hm]
  have hmin : (r.minRegOne 1).toNat =
      lowest preset.toNat ((ps.take (min n.toNat m)).map (·.value.toNat)) := by
    rw [hl.minimum, ← List.map_take, List.take_take]
  have habove : above = (exceeders n.toNat preset.toNat ((ps.take m).map (·.value.toNat))).length := by
    rw [length_exceeders, List.take_take, ← hmin]
  refine ⟨?_, hmin, ?_, ?_, ?_⟩
  · rw [hl.counter, hlen]
  · intro hnm
    refine BitVec.eq_of_toNat_eq ?_
    rw [hmin, (hlearnt n.toNat).minimum, ← List.map_take, List.take_take, Nat.min_self,
      Nat.min_eq_left hnm]
  · rw [hl.counterTwo, habove]
  · intro h hh
    have hmem := List.mem_of_getElem? hh
    rcases Nat.lt_or_ge m n.toNat with hlt | hge
    · obtain ⟨_, hkept⟩ := learnt_learning hl (hflow h hmem) (by rw [hlen]; exact hlt)
      rw [hkept]
      exact iff_of_false Bool.false_ne_true fun hc => absurd hc.1 (Nat.not_le.mpr hlt)
    · obtain ⟨_, hdrops⟩ := learnt_cutoff hl (hflow h hmem) (by rw [hlen]; exact hge) hn hpreset
        (hvalue h hmem)
      rw [hdrops, habove, hl.minimum]
      exact (and_iff_right hge).symm

end Run

/-- One value is asked for; the fourth packet is the third that exceeds twice the minimum. -/
theorem drops_next_iff_three :
    let ps : List Header := [⟨1, 0, 1⟩, ⟨1, 1, 3⟩, ⟨1, 2, 3⟩, ⟨1, 3, 100⟩]
    let r := (switch 1).run (Registers.init 10000) (ps.take 3)
    let above := ((ps.take 3).drop 1).countP fun q => 2 * (r.minRegOne 1).toNat < q.value.toNat
    (r.counterReg 1).toNat = min 1 3 ∧
      (r.minRegOne 1).toNat = lowest 10000 ((ps.take (min 1 3)).map (·.value.toNat)) ∧
      (1 ≤ 3 → r.minRegOne 1 = ((switch 1).run (Registers.init 10000) (ps.take 1)).minRegOne 1) ∧
      (r.counterTwoReg 1).toNat = min (1 + 1) above ∧
      ∀ h, ps[3]? = some h → ((switch 1).drops r h = true ↔
        1 ≤ 3 ∧ 2 * (r.minRegOne 1).toNat < h.value.toNat ∧ 1 + 1 ≤ above) :=
  drops_next_iff (n := 1) (by decide) 10000 (by decide) [⟨1, 0, 1⟩, ⟨1, 1, 3⟩, ⟨1, 2, 3⟩, ⟨1, 3, 100⟩]
    (by decide) (by decide) (m := 3) (by decide)

end Cheetah.DataPlane.Topn
