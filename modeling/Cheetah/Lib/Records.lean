import Cheetah.Lib.Splits
import Mathlib.Order.Lattice

/-! Scans that keep the best element so far.

`best f a l` starts with `a` and takes the next element when its measure `f` is larger
than that of the one it has. What it ends with is the largest under `f`; `best_max_iff`
says when it is also the largest under another measure `g`, of which `f` is a function:
the elements that exceed everything before them under `f` must be those that do so
under `g`. -/
namespace Cheetah.Lib

section Best
variable {α M N : Type*} [LinearOrder M] [LinearOrder N] (f : α → M) (g : α → N)

/-- The first element of largest measure. -/
def best (a : α) (l : List α) : α := l.foldl (fun s x => if f s < f x then x else s) a

/-- An element that exceeds everything before it. -/
def SetsRecord (past : List α) (x : α) : Prop := ∀ y ∈ past, f y < f x

variable {a x : α} {l : List α}

theorem best_concat : best f a (l ++ [x]) = if f (best f a l) < f x then x else best f a l := by
  rw [best, List.foldl_append, List.foldl_cons, List.foldl_nil]
  rfl

theorem best_mem : best f a l ∈ a :: l := by
  induction l using List.reverseRecOn with
  | nil => exact List.mem_cons_self
  | append_singleton l x ih =>
    rw [best_concat, ← List.cons_append]
    split
    · exact List.mem_append_right _ (List.mem_singleton.mpr rfl)
    · exact List.mem_append_left _ ih

theorem le_best : ∀ y ∈ a :: l, f y ≤ f (best f a l) := by
  induction l using List.reverseRecOn with
  | nil =>
    intro y hy
    rw [List.mem_singleton.mp hy]
    exact le_refl _
  | append_singleton l x ih =>
    rw [best_concat, ← List.cons_append]
    intro y hy
    split
    · rename_i hlt
      rcases List.mem_append.mp hy with hy | hy
      · exact (ih y hy).trans hlt.le
      · rw [List.mem_singleton.mp hy]
    · rename_i hge
      rcases List.mem_append.mp hy with hy | hy
      · exact ih y hy
      · rw [List.mem_singleton.mp hy]
        exact not_lt.mp hge

variable {f g}

/-- An element exceeds everything when it exceeds a largest one. -/
theorem setsRecord_iff {s : α} (hs : s ∈ l) (hmax : ∀ y ∈ l, f y ≤ f s) :
    SetsRecord f l x ↔ f s < f x :=
  ⟨fun h => h s hs, fun h y hy => (hmax y hy).trans_lt h⟩

/-- One element more keeps the largest under `g` when the two measures agree on whether it
sets a record. -/
theorem best_max_concat (hfg : ∀ x y, g x = g y → f x = f y)
    (hmax : ∀ y ∈ a :: l, g y ≤ g (best f a l)) :
    (∀ y ∈ a :: (l ++ [x]), g y ≤ g (best f a (l ++ [x]))) ↔
      (SetsRecord f (a :: l) x ↔ SetsRecord g (a :: l) x) := by
  rw [setsRecord_iff (best_mem f) (le_best f), setsRecord_iff (best_mem f) hmax, best_concat,
    ← List.cons_append]
  by_cases hlt : f (best f a l) < f x
  · rw [if_pos hlt]
    constructor
    · intro h
      refine iff_of_true hlt (lt_of_le_of_ne (h _ (List.mem_append_left _ (best_mem f))) ?_)
      intro heq
      exact hlt.ne (hfg _ _ heq)
    · intro h y hy
      rcases List.mem_append.mp hy with hy | hy
      · exact (hmax y hy).trans (h.mp hlt).le
      · rw [List.mem_singleton.mp hy]
  · rw [if_neg hlt]
    constructor
    · intro h
      exact iff_of_false hlt (h x (List.mem_append_right _ (List.mem_singleton.mpr rfl))).not_gt
    · intro h y hy
      rcases List.mem_append.mp hy with hy | hy
      · exact hmax y hy
      · rw [List.mem_singleton.mp hy]
        exact not_lt.mp fun hgt => hlt (h.mpr hgt)

/-- **A scan by `f` has the largest under `g` at every point exactly when** the two agree on
which elements set a record. -/
theorem best_max_iff (hfg : ∀ x y, g x = g y → f x = f y) (a : α) (l : List α) :
    (∀ pre post, l = pre ++ post → ∀ y ∈ a :: pre, g y ≤ g (best f a pre)) ↔
      ∀ pre x post, l = pre ++ x :: post → (SetsRecord f (a :: pre) x ↔ SetsRecord g (a :: pre) x) := by
  induction l using List.reverseRecOn with
  | nil =>
    refine iff_of_true (fun pre post he y hy => ?_) fun pre x post he => ?_
    · obtain ⟨rfl, _⟩ := List.append_eq_nil_iff.mp he.symm
      rw [List.mem_singleton.mp hy]
      exact le_refl _
    · simp at he
  | append_singleton l x ih =>
    rw [forall_prefix_concat (Q := fun pre => ∀ y ∈ a :: pre, g y ≤ g (best f a pre)),
      forall_split_concat (Q := fun pre x => (SetsRecord f (a :: pre) x ↔ SetsRecord g (a :: pre) x)), ih]
    refine and_congr_right fun hrecords => best_max_concat hfg ?_
    exact ih.mpr hrecords l [] (List.append_nil l).symm

end Best
end Cheetah.Lib
