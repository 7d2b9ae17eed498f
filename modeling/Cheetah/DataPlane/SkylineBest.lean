import Cheetah.DataPlane.Skyline
import Cheetah.Lib.Records

/-! The stored point of `cheetah_skyline.p4` as the best one so far.

`val_sum` is a 32-bit field, so `alu_heuristic` compares sums modulo 2^32. `run_eq_best`
says what that stores: the first point with the largest sum modulo 2^32. It is a point
with the largest sum as long as a carry out of `val_sum` does not change which packets
exceed all those before them. -/
namespace Cheetah.DataPlane.Skyline
open Lib

/-- `x + y` as an integer. -/
def Header.total (h : Header) : Nat := h.x.toNat + h.y.toNat

/-- `x + y` as `val_sum` has it. -/
def Header.valSum (h : Header) : Nat := (h.x + h.y).toNat

/-- The packet whose point the zero registers hold. -/
def origin : Header := ⟨0, 0, 0, 0⟩

/-- The registers when the point of a packet is stored. -/
def Registers.of (h : Header) : Registers := ⟨h.x + h.y, h.x, h.y⟩

section Best
variable {rules : List FlowId}

theorem valSum_eq (h : Header) : h.valSum = h.total % 2 ^ 32 := BitVec.toNat_add _ _

/-- One packet makes its point the stored one when its sum modulo 2^32 is larger. -/
theorem step_of (s h : Header) (hit : h.flowId ∈ rules) :
    (switch rules).step (.of s) h = .of (if s.valSum < h.valSum then h else s) := by
  rw [(switch_hit (.of s) h hit).1]
  by_cases hlt : s.valSum < h.valSum
  · have hr : Replaces (.of s) h := BitVec.lt_def.mpr hlt
    rw [if_pos hr, if_pos hlt]
    rfl
  · have hr : ¬ Replaces (.of s) h := fun hr => hlt (BitVec.lt_def.mp hr)
    rw [if_neg hr, if_neg hlt]

/-- **Any run** stores the first point whose sum modulo 2^32 is the largest. -/
theorem run_eq_best (ps : List Header) (hit : ∀ h ∈ ps, h.flowId ∈ rules) :
    (switch rules).run Registers.zero ps = .of (best Header.valSum origin ps) := by
  induction ps using List.reverseRecOn with
  | nil => rfl
  | append_singleton ps p ih =>
    have hps : ∀ h ∈ ps, h.flowId ∈ rules := fun h hh => hit h (List.mem_append_left _ hh)
    have hp : p.flowId ∈ rules := hit p (List.mem_append_right _ (List.mem_singleton.mpr rfl))
    rw [Pruner.run_concat, ih hps, step_of _ p hp, best_concat]

/-! ### When it is the best point -/

/-- The stored point is the origin or the point of a packet seen, and no packet seen has a
larger sum. -/
def HoldsBest (seen : List Header) (r : Registers) : Prop :=
  ((r.x, r.y) = (0, 0) ∨ ∃ q ∈ seen, (r.x, r.y) = q.point) ∧
    ∀ q ∈ seen, q.x.toNat + q.y.toNat ≤ r.x.toNat + r.y.toNat

instance (seen : List Header) (r : Registers) : Decidable (HoldsBest seen r) :=
  inferInstanceAs (Decidable (_ ∧ _))

/-- After each packet the stored point is the best one so far. -/
def KeepsBest (rules : List FlowId) (ps : List Header) : Prop :=
  ∀ pre post, ps = pre ++ post → pre ≠ [] → HoldsBest pre ((switch rules).run Registers.zero pre)

/-- The packets whose sum exceeds those of all packets before them, and 0, are the ones for
which the sum modulo 2^32 does. -/
def RecordsAgree (ps : List Header) : Prop :=
  ∀ pre p post, ps = pre ++ p :: post →
    (SetsRecord Header.valSum (origin :: pre) p ↔ SetsRecord Header.total (origin :: pre) p)

/-- Sums that do not carry out of `val_sum` agree. -/
theorem recordsAgree_of_no_carry {ps : List Header} (h : ∀ p ∈ ps, p.total < 2 ^ 32) : RecordsAgree ps := by
  have heq : ∀ p ∈ origin :: ps, p.valSum = p.total := by
    intro p hp
    rw [valSum_eq]
    rcases List.mem_cons.mp hp with rfl | hp
    · rfl
    · exact Nat.mod_eq_of_lt (h p hp)
  intro pre p post he
  have hsub : ∀ q ∈ origin :: pre, q ∈ origin :: ps := by
    intro q hq
    rw [he]
    exact List.cons_subset_cons _ (List.subset_append_left _ _) hq
  have hp : p ∈ origin :: ps := by
    rw [he]
    simp
  constructor
  · intro hrecord q hq
    have hlt := hrecord q hq
    rwa [heq q (hsub q hq), heq p hp] at hlt
  · intro hrecord q hq
    rw [heq q (hsub q hq), heq p hp]
    exact hrecord q hq

/-- What the registers of a run are is what the scan keeps. -/
theorem holdsBest_iff {ps : List Header} (hit : ∀ h ∈ ps, h.flowId ∈ rules) :
    HoldsBest ps ((switch rules).run Registers.zero ps) ↔
      ∀ q ∈ origin :: ps, q.total ≤ (best Header.valSum origin ps).total := by
  rw [run_eq_best ps hit]
  constructor
  · intro h q hq
    rcases List.mem_cons.mp hq with rfl | hq
    · exact Nat.zero_le _
    · exact h.2 q hq
  · intro h
    refine ⟨?_, fun q hq => h q (List.mem_cons_of_mem _ hq)⟩
    rcases List.mem_cons.mp (best_mem Header.valSum (a := origin) (l := ps)) with hbest | hbest
    · rw [hbest]
      exact .inl rfl
    · exact .inr ⟨_, hbest, rfl⟩

/-- **The stored point is the best one throughout exactly when** the packets that set a
record of the sum are those that set one of the sum modulo 2^32. -/
theorem keeps_best_iff {ps : List Header} (hit : ∀ h ∈ ps, h.flowId ∈ rules) :
    KeepsBest rules ps ↔ RecordsAgree ps := by
  have hfg : ∀ p q : Header, p.total = q.total → p.valSum = q.valSum := by
    intro p q heq
    rw [valSum_eq, valSum_eq, heq]
  have hpart : ∀ pre post, ps = pre ++ post → ∀ q ∈ pre, q.flowId ∈ rules := by
    intro pre post he q hq
    rw [he] at hit
    exact hit q (List.mem_append_left _ hq)
  refine Iff.trans ?_ (best_max_iff hfg origin ps)
  constructor
  · intro h pre post he
    by_cases hnil : pre = []
    · rw [hnil]
      exact le_best Header.total
    · exact (holdsBest_iff (hpart pre post he)).mp (h pre post he hnil)
  · intro h pre post he _
    exact (holdsBest_iff (hpart pre post he)).mpr (h pre post he)

/-- The third packet replaces the first, the second does not. -/
theorem keeps_best_iff_three :
    KeepsBest [1] [⟨1, 0, 5, 5⟩, ⟨1, 1, 2, 3⟩, ⟨1, 2, 4, 9⟩] ↔
      RecordsAgree [⟨1, 0, 5, 5⟩, ⟨1, 1, 2, 3⟩, ⟨1, 2, 4, 9⟩] :=
  keeps_best_iff (by decide)

/-- The sum of the second packet is 2^32, which `val_sum` has as 0. -/
theorem carry_not_stored :
    (switch [1]).run Registers.zero [⟨1, 0, 1, 1⟩, ⟨1, 1, 0x80000000, 0x80000000⟩] = ⟨2, 1, 1⟩ ∧
      ¬ KeepsBest [1] [⟨1, 0, 1, 1⟩, ⟨1, 1, 0x80000000, 0x80000000⟩] := by
  refine ⟨by decide, fun h => ?_⟩
  have hbest := h [⟨1, 0, 1, 1⟩, ⟨1, 1, 0x80000000, 0x80000000⟩] [] rfl (by simp)
  revert hbest
  decide

end Best
end Cheetah.DataPlane.Skyline
