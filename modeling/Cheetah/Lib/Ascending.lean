import Mathlib.Data.List.Basic
import Mathlib.Order.Lattice

/-! Lists in ascending order, cut at a place.

What is counted below a bound stands in front, so a cut splits either the elements up to a
bound or those beyond it (`take_le_or_drop_lt`), and what is large stands behind every cut
(`mem_drop_of_max`). -/
namespace Cheetah.Lib.Ascending

variable {α : Type*} [LinearOrder α] {l : List α}

/-- What stands before a cut is at most what stands behind it. -/
theorem take_le_drop (h : l.Pairwise (· ≤ ·)) {k : Nat} {a b : α} (ha : a ∈ l.take k) (hb : b ∈ l.drop k) :
    a ≤ b := by
  rw [← List.take_append_drop k l] at h
  exact (List.pairwise_append.mp h).2.2 a ha b hb

/-- The elements before a cut are up to a bound, or those behind it are beyond it. -/
theorem take_le_or_drop_lt (h : l.Pairwise (· ≤ ·)) (w : α) (k : Nat) :
    (∀ a ∈ l.take k, a ≤ w) ∨ ∀ b ∈ l.drop k, w < b := by
  by_cases hall : ∀ a ∈ l.take k, a ≤ w
  · exact .inl hall
  · simp only [not_forall, not_le] at hall
    obtain ⟨a, ha, hlt⟩ := hall
    exact .inr fun b hb => lt_of_lt_of_le hlt (take_le_drop h ha hb)

/-- When enough elements are below a bound, so are the first. -/
theorem take_lt (h : l.Pairwise (· ≤ ·)) {w : α} {k : Nat} (hk : k ≤ l.countP (· < w)) {a : α}
    (ha : a ∈ l.take k) : a < w := by
  by_contra hge
  -- then nothing behind it counts
  have hdrop : (l.drop k).countP (· < w) = 0 := by
    refine List.countP_eq_zero.mpr fun b hb => ?_
    have hle := le_trans (not_lt.mp hge) (take_le_drop h ha hb)
    simpa using hle
  have htake : (l.take k).countP (· < w) < k := by
    refine Nat.lt_of_lt_of_le (Nat.lt_of_le_of_ne List.countP_le_length fun heq => ?_) (List.length_take_le k l)
    exact hge (of_decide_eq_true (List.countP_eq_length.mp heq a ha))
  rw [← List.take_append_drop k l, List.countP_append, hdrop, Nat.add_zero] at hk
  exact absurd hk (Nat.not_le.mpr htake)

/-- The largest element is behind every cut that leaves anything. -/
theorem mem_drop_of_max (h : l.Pairwise (· ≤ ·)) {w : α} (hw : w ∈ l) (hmax : ∀ a ∈ l, a ≤ w) {k : Nat}
    (hk : k < l.length) : w ∈ l.drop k := by
  rw [← List.take_append_drop k l] at hw
  rcases List.mem_append.mp hw with hfront | hback
  · have hlen : 0 < (l.drop k).length := by
      rw [List.length_drop]
      exact Nat.sub_pos_of_lt hk
    obtain ⟨b, hb⟩ := List.exists_mem_of_length_pos hlen
    have heq : b = w := le_antisymm (hmax b (List.mem_of_mem_drop hb)) (take_le_drop h hfront hb)
    exact heq ▸ hb
  · exact hback

/-- There is a largest element. -/
theorem exists_max (h : l.Pairwise (· ≤ ·)) (hne : l ≠ []) : ∃ w ∈ l, ∀ a ∈ l, a ≤ w := by
  refine ⟨l.getLast hne, List.getLast_mem hne, fun a ha => ?_⟩
  rw [← List.dropLast_append_getLast hne] at h ha
  rcases List.mem_append.mp ha with hfront | hback
  · exact (List.pairwise_append.mp h).2.2 a hfront _ (List.mem_singleton.mpr rfl)
  · exact le_of_eq (List.mem_singleton.mp hback)

end Cheetah.Lib.Ascending
