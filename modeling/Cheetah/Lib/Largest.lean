import Mathlib.Data.Multiset.Sort
import Mathlib.Data.Finset.Max
import Mathlib.Data.Multiset.Filter

/-! The `n` largest elements of a multiset over a linear order.

`count_largest` computes how often an element is among them from two counts of
the whole multiset. `largest_add_eq_iff` says exactly when taking elements out
leaves the `n` largest as they were: when each of them has `n` elements at least
as large among those that stay. -/
namespace Cheetah.Lib

variable {α : Type*} [LinearOrder α]

/-- The `n` largest elements, with multiplicity; all of them when there are fewer. -/
def largest (n : Nat) (s : Multiset α) : Multiset α := ((s.sort (· ≥ ·)).take n : List α)

/-- In a descending list the first `n` hold `x` as often as it occurs, up to the
places the larger elements leave. -/
theorem count_take_sorted (x : α) (n : Nat) (l : List α) (hl : l.Pairwise (· ≥ ·)) :
    (l.take n).count x = min (l.count x) (n - l.countP (x < ·)) := by
  induction l generalizing n with
  | nil => simp
  | cons a rest ih =>
    obtain ⟨ha, hrest⟩ := List.pairwise_cons.mp hl
    cases n with
    | zero => simp
    | succ n =>
      rw [List.take_succ_cons, List.count_cons, List.count_cons, List.countP_cons, ih n hrest]
      rcases lt_trichotomy x a with hlt | heq | hgt
      · have hne : (a == x) = false := beq_eq_false_iff_ne.mpr hlt.ne'
        simp [hlt, hne]
      · subst heq
        have hzero : rest.countP (x < ·) = 0 := by
          apply List.countP_eq_zero.mpr
          intro b hb
          simpa using ha b hb
        simp [hzero]
      · have hnot : x ∉ rest := fun hx => absurd (ha x hx) (not_le.mpr hgt)
        have hne : (a == x) = false := beq_eq_false_iff_ne.mpr hgt.ne
        simp [List.count_eq_zero_of_not_mem hnot, hne]

theorem count_largest (x : α) (n : Nat) (s : Multiset α) :
    (largest n s).count x = min (s.count x) (n - s.countP (x < ·)) := by
  have hsort : ((s.sort (· ≥ ·) : List α) : Multiset α) = s := Multiset.sort_eq s (· ≥ ·)
  have hcount : (s.sort (· ≥ ·)).count x = s.count x := by
    rw [← Multiset.coe_count, hsort]
  have hcountP : (s.sort (· ≥ ·)).countP (x < ·) = s.countP (x < ·) := by
    rw [← Multiset.coe_countP, hsort]
  rw [largest, Multiset.coe_count, count_take_sorted x n _ (Multiset.pairwise_sort s (· ≥ ·)),
    hcount, hcountP]

/-- The elements at least `x` are those above it and those equal to it. -/
theorem countP_le_eq (x : α) (s : Multiset α) :
    s.countP (x ≤ ·) = s.countP (x < ·) + s.count x := by
  induction s using Multiset.induction_on with
  | empty => simp
  | cons a s ih =>
    rw [Multiset.countP_cons, Multiset.countP_cons, Multiset.count_cons, ih]
    rcases lt_trichotomy x a with hlt | heq | hgt
    · simp only [hlt.le, hlt, hlt.ne, if_true, if_false]
      omega
    · subst heq
      simp only [le_refl, lt_irrefl, if_true, if_false]
      omega
    · simp only [not_le.mpr hgt, not_lt.mpr hgt.le, hgt.ne', if_false]
      omega

/-- Taking `pruned` out of `kept + pruned` keeps the `n` largest. -/
theorem largest_add_eq_iff (n : Nat) (kept pruned : Multiset α) :
    largest n (kept + pruned) = largest n kept ↔ ∀ d ∈ pruned, n ≤ kept.countP (d ≤ ·) := by
  constructor
  · -- the largest pruned element with too few above it would be counted once more
    intro heq d hd
    by_contra hlt
    obtain ⟨x, hx, hmax⟩ : ∃ x ∈ pruned, ∀ y ∈ pruned, y ≤ x := by
      have hne : pruned.toFinset.Nonempty := ⟨d, Multiset.mem_toFinset.mpr hd⟩
      refine ⟨pruned.toFinset.max' hne, Multiset.mem_toFinset.mp (Finset.max'_mem _ hne), ?_⟩
      intro y hy
      exact Finset.le_max' _ y (Multiset.mem_toFinset.mpr hy)
    have hxd : kept.countP (x ≤ ·) ≤ kept.countP (d ≤ ·) := by
      simp only [Multiset.countP_eq_card_filter]
      exact Multiset.card_le_card
        (Multiset.monotone_filter_right _ fun y (hy : x ≤ y) => (hmax d hd).trans hy)
    have habove : pruned.countP (x < ·) = 0 := by
      apply Multiset.countP_eq_zero.mpr
      intro y hy
      exact not_lt.mpr (hmax y hy)
    have hx1 : 0 < pruned.count x := Multiset.count_pos.mpr hx
    have hcount := congrArg (Multiset.count x) heq
    rw [count_largest, count_largest, Multiset.count_add, Multiset.countP_add, habove] at hcount
    rw [countP_le_eq] at hxd
    omega
  · intro h
    ext x
    rw [count_largest, count_largest, Multiset.count_add, Multiset.countP_add]
    by_cases habove : pruned.countP (x < ·) = 0
    · by_cases hx : x ∈ pruned
      · have hn := h x hx
        rw [countP_le_eq] at hn
        omega
      · rw [habove, Multiset.count_eq_zero_of_notMem hx]
        rfl
    · -- some pruned element is above `x`, so `n` kept ones are
      obtain ⟨d, hd, hlt⟩ := Multiset.countP_pos.mp (Nat.pos_of_ne_zero habove)
      have hn : n ≤ kept.countP (x < ·) := by
        refine (h d hd).trans ?_
        simp only [Multiset.countP_eq_card_filter]
        exact Multiset.card_le_card
          (Multiset.monotone_filter_right _ fun y (hy : d ≤ y) => lt_of_lt_of_le hlt hy)
      omega

end Cheetah.Lib
