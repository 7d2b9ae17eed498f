import Cheetah.Lib.Pruning
import Mathlib.Data.Multiset.Filter
import Mathlib.Algebra.Order.Group.Multiset
import Mathlib.Order.Defs.Unbundled

/-! The maximal elements of a multiset under a transitive relation.

`maxima_add` is the pruning rule: elements below something that stays can be
taken out without changing which elements are maximal, however often they occur.
`Pruner.maxima_forwarded` is the rule for a stream. -/
namespace Cheetah.Lib

variable {α : Type*} (lt : α → α → Prop) [DecidableRel lt]

/-- The elements that no element exceeds, with their multiplicity. -/
def maxima (s : Multiset α) : Multiset α := s.filter fun x => ∀ y ∈ s, ¬ lt x y

theorem maxima_add [IsTrans α lt] (kept pruned : Multiset α)
    (h : ∀ x ∈ pruned, ∃ y ∈ kept, lt x y) : maxima lt (kept + pruned) = maxima lt kept := by
  have hpruned : pruned.filter (fun x => ∀ y ∈ kept + pruned, ¬ lt x y) = 0 := by
    apply Multiset.filter_eq_nil.mpr
    intro x hx hmax
    obtain ⟨y, hy, hlt⟩ := h x hx
    exact hmax y (Multiset.mem_add.mpr (.inl hy)) hlt
  have hkept : kept.filter (fun x => ∀ y ∈ kept + pruned, ¬ lt x y) = maxima lt kept := by
    apply Multiset.filter_congr
    intro x _
    constructor
    · intro hmax y hy
      exact hmax y (Multiset.mem_add.mpr (.inl hy))
    · intro hmax y hy hlt
      rcases Multiset.mem_add.mp hy with hy | hy
      · exact hmax y hy hlt
      · -- a pruned element above `x` is itself below a kept one
        obtain ⟨z, hz, hyz⟩ := h y hy
        exact hmax z hz (IsTrans.trans x y z hlt hyz)
  rw [maxima, Multiset.filter_add, hpruned, hkept, add_zero]

/-- A machine that drops what lies below something it forwards keeps the maximal elements. -/
theorem Pruner.maxima_forwarded [IsTrans α lt] {P S : Type*} (F : Pruner P S) (key : P → α) (s : S) (ps : List P)
    (h : ∀ p ∈ F.dropped s ps, ∃ q ∈ F.forwarded s ps, lt (key p) (key q)) :
    maxima lt ((F.forwarded s ps : Multiset P).map key) = maxima lt ((ps : Multiset P).map key) := by
  rw [F.split s ps, Multiset.map_add]
  refine (maxima_add lt _ _ fun x hx => ?_).symm
  obtain ⟨p, hp, rfl⟩ := Multiset.mem_map.mp hx
  obtain ⟨q, hq, hlt⟩ := h p (Multiset.mem_coe.mp hp)
  exact ⟨key q, Multiset.mem_map_of_mem key (Multiset.mem_coe.mpr hq), hlt⟩

end Cheetah.Lib
