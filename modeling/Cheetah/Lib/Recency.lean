import Cheetah.Lib.Distinct

/-! The distinct elements of a history, most recent first: what a cache that evicts the
least recently used element holds.

`recent_concat` is one access: the element moves to the front. `getD_recent_stop` and
`getD_recent_shift` say what it does to one position, when the element is found at or
before the position and when it is not; `getD` lets positions past the end hold a filler. -/
namespace Cheetah.Lib

variable {α : Type*} [DecidableEq α]

def recent (xs : List α) : List α := xs.reverse.eraseDups

@[simp] theorem recent_nil : recent ([] : List α) = [] := rfl

theorem mem_recent {x : α} {xs : List α} : x ∈ recent xs ↔ x ∈ xs := by
  rw [recent, List.mem_eraseDups, List.mem_reverse]

theorem nodup_recent (xs : List α) : (recent xs).Nodup := nodup_eraseDups _

theorem length_recent (xs : List α) : (recent xs).length = xs.eraseDups.length := by
  have h : ∀ a b : List α, a ⊆ b → a.eraseDups.length ≤ b.eraseDups.length := fun _ _ =>
    length_eraseDups_le_of_subset
  refine Nat.le_antisymm (h _ _ fun x hx => List.mem_reverse.mp hx) (h _ _ fun x hx => ?_)
  exact List.mem_reverse.mpr hx

theorem eraseDups_filter (p : α → Bool) (l : List α) :
    (l.filter p).eraseDups = l.eraseDups.filter p := by
  induction l using List.reverseRecOn with
  | nil => rfl
  | append_singleton l a ih =>
    rw [List.filter_append]
    cases hp : p a with
    | true =>
      rw [List.filter_singleton, hp, cond_true]
      by_cases hmem : a ∈ l
      · rw [eraseDups_concat_of_mem hmem, eraseDups_concat_of_mem (List.mem_filter.mpr ⟨hmem, hp⟩), ih]
      · have hnot : a ∉ l.filter p := fun h => hmem (List.mem_filter.mp h).1
        rw [eraseDups_concat_of_not_mem hmem, eraseDups_concat_of_not_mem hnot, ih, List.filter_append,
          List.filter_singleton, hp, cond_true]
    | false =>
      rw [List.filter_singleton, hp, cond_false, List.append_nil, ih]
      by_cases hmem : a ∈ l
      · rw [eraseDups_concat_of_mem hmem]
      · rw [eraseDups_concat_of_not_mem hmem, List.filter_append, List.filter_singleton, hp, cond_false,
          List.append_nil]

/-- The last element of a history is the most recent one. -/
theorem recent_concat (xs : List α) (x : α) :
    recent (xs ++ [x]) = x :: (recent xs).filter fun y => !(y == x) := by
  rw [recent, List.reverse_concat, List.eraseDups_cons, eraseDups_filter, recent]

section Positions
variable {l : List α}

/-- Positions from where the element is found on keep their elements. -/
theorem getD_touch_stop (hl : l.Nodup) (x d : α) {j k : Nat} (hjk : j ≤ k) (hx : l.getD j d = x) :
    (x :: l.filter fun y => !(y == x)).getD (k + 1) d = l.getD (k + 1) d := by
  induction l generalizing j k with
  | nil => rfl
  | cons a rest ih =>
    obtain ⟨ha, hrest⟩ := List.nodup_cons.mp hl
    by_cases hax : a = x
    · have hkeep : rest.filter (fun y => !(y == x)) = rest := by
        apply List.filter_eq_self.mpr
        intro y hy
        have hne : y ≠ x := fun he => ha (by rwa [hax, ← he])
        simp [hne]
      rw [List.filter_cons, show (!(a == x)) = false by simp [hax], if_neg Bool.false_ne_true, hkeep]
      rfl
    · rw [List.filter_cons, show (!(a == x)) = true by simp [hax], if_pos rfl]
      cases j with
      | zero => exact absurd hx hax
      | succ j =>
        obtain ⟨k, rfl⟩ : ∃ k', k = k' + 1 := ⟨k - 1, by omega⟩
        exact ih hrest (Nat.le_of_succ_le_succ hjk) hx

/-- Positions before the element take over from their neighbours. -/
theorem getD_touch_shift (x d : α) {k : Nat} (hx : ∀ j ≤ k, l.getD j d ≠ x) :
    (x :: l.filter fun y => !(y == x)).getD (k + 1) d = l.getD k d := by
  induction l generalizing k with
  | nil => rfl
  | cons a rest ih =>
    have hax : a ≠ x := hx 0 (Nat.zero_le k)
    rw [List.filter_cons, show (!(a == x)) = true by simp [hax], if_pos rfl]
    cases k with
    | zero => rfl
    | succ k => exact ih fun j hj => hx (j + 1) (Nat.succ_le_succ hj)

end Positions

variable (xs : List α) (x d : α)

theorem getD_recent_front : (recent (xs ++ [x])).getD 0 d = x := by
  rw [recent_concat]
  rfl

theorem getD_recent_stop {j k : Nat} (hjk : j ≤ k) (hx : (recent xs).getD j d = x) :
    (recent (xs ++ [x])).getD (k + 1) d = (recent xs).getD (k + 1) d := by
  rw [recent_concat, getD_touch_stop (nodup_recent xs) x d hjk hx]

theorem getD_recent_shift {k : Nat} (hx : ∀ j ≤ k, (recent xs).getD j d ≠ x) :
    (recent (xs ++ [x])).getD (k + 1) d = (recent xs).getD k d := by
  rw [recent_concat, getD_touch_shift x d hx]

end Cheetah.Lib
