import Mathlib.Data.List.Induction
import Mathlib.Data.Set.Card

/-! Items of a list together with what comes before them. -/
namespace Cheetah.Lib

/-- An item of a list with one more at its end: one that was there, or the new one. -/
theorem exists_split_concat {α : Type*} {l : List α} {x : α} {Q : List α → α → Prop} :
    (∃ pre b post, l ++ [x] = pre ++ b :: post ∧ Q pre b) ↔
      (∃ pre b post, l = pre ++ b :: post ∧ Q pre b) ∨ Q l x := by
  constructor
  · intro hsplit
    obtain ⟨pre, b, post, he, hQ⟩ := hsplit
    cases post using List.reverseRecOn with
    | nil =>
      obtain ⟨rfl, hb⟩ := List.append_inj' he rfl
      obtain rfl := (List.cons.inj hb).1
      exact .inr hQ
    | append_singleton post last =>
      rw [← List.cons_append, ← List.append_assoc] at he
      obtain ⟨rfl, _⟩ := List.append_inj' he rfl
      exact .inl ⟨pre, b, post, rfl, hQ⟩
  · intro h
    rcases h with ⟨pre, b, post, rfl, hQ⟩ | hQ
    · exact ⟨pre, b, post ++ [x], by simp, hQ⟩
    · exact ⟨l, x, [], rfl, hQ⟩

/-- What holds of every item and what comes before it, one more item at a time. -/
theorem forall_split_concat {α : Type*} {l : List α} {x : α} {Q : List α → α → Prop} :
    (∀ pre b post, l ++ [x] = pre ++ b :: post → Q pre b) ↔
      (∀ pre b post, l = pre ++ b :: post → Q pre b) ∧ Q l x := by
  constructor
  · intro h
    refine ⟨fun pre b post he => h pre b (post ++ [x]) (by simp [he]), h l x [] rfl⟩
  · intro h pre b post he
    have hsplit : ∃ pre' b' post', l ++ [x] = pre' ++ b' :: post' ∧ pre' = pre ∧ b' = b :=
      ⟨pre, b, post, he, rfl, rfl⟩
    rcases exists_split_concat.mp hsplit with ⟨_, _, post', he', rfl, rfl⟩ | ⟨rfl, rfl⟩
    · exact h.1 _ _ post' he'
    · exact h.2

/-- What holds of every initial part of a list, one more item at a time. -/
theorem forall_prefix_concat {α : Type*} {l : List α} {x : α} {Q : List α → Prop} :
    (∀ pre post, l ++ [x] = pre ++ post → Q pre) ↔
      (∀ pre post, l = pre ++ post → Q pre) ∧ Q (l ++ [x]) := by
  constructor
  · intro h
    exact ⟨fun pre post he => h pre (post ++ [x]) (by simp [he]), h _ [] (by simp)⟩
  · intro h pre post he
    cases post using List.reverseRecOn with
    | nil =>
      rw [List.append_nil] at he
      exact he ▸ h.2
    | append_singleton post last =>
      rw [← List.append_assoc] at he
      exact h.1 pre post (List.append_inj' he rfl).1

/-- The items of a list, each with the one before it; `d` is before the first. -/
def withPrevious {α : Type*} (d : α) (l : List α) : List (α × α) := (d :: l).zip l

theorem withPrevious_concat {α : Type*} (d : α) (l : List α) (x : α) :
    withPrevious d (l ++ [x]) = withPrevious d l ++ [(l.getLastD d, x)] := by
  induction l generalizing d with
  | nil => rfl
  | cons a rest ih =>
    rw [List.getLastD_cons]
    exact congrArg ((d, a) :: ·) (ih a)

theorem filterMap_withPrevious_concat {α β : Type*} (f : α × α → Option β) (d : α) (l : List α) (x : α) :
    (withPrevious d (l ++ [x])).filterMap f =
      (withPrevious d l).filterMap f ++ (f (l.getLastD d, x)).toList := by
  rw [withPrevious_concat, List.filterMap_append, List.filterMap_cons]
  split <;> rename_i hf <;> rw [hf] <;> rfl

/-- How many items satisfy `Q` together with what comes before them. -/
noncomputable def countSplits {α : Type*} (Q : List α → α → Prop) (l : List α) : Nat :=
  Set.ncard {i | ∃ b, l[i]? = some b ∧ Q (l.take i) b}

theorem countSplits_nil {α : Type*} (Q : List α → α → Prop) : countSplits Q [] = 0 := by
  simp [countSplits]

section Count
variable {α : Type*} {l : List α} {x : α} {Q : List α → α → Prop}

/-- The positions in a list with one more item: those there were, and perhaps the last. -/
theorem position_concat (i : Nat) : (∃ b, (l ++ [x])[i]? = some b ∧ Q ((l ++ [x]).take i) b) ↔
    (∃ b, l[i]? = some b ∧ Q (l.take i) b) ∨ (i = l.length ∧ Q l x) := by
  rcases Nat.lt_trichotomy i l.length with hlt | rfl | hgt
  · rw [List.getElem?_append_left hlt, List.take_append_of_le_length hlt.le]
    exact (or_iff_left fun hlast => hlt.ne hlast.1).symm
  · simp
  · rw [List.getElem?_eq_none (by simp; omega), List.getElem?_eq_none hgt.le]
    simp [hgt.ne']

theorem countSplits_concat_of_not (h : ¬ Q l x) : countSplits Q (l ++ [x]) = countSplits Q l := by
  simp only [countSplits, position_concat, h, and_false, or_false]

theorem countSplits_concat (h : Q l x) : countSplits Q (l ++ [x]) = countSplits Q l + 1 := by
  have hset : {i | ∃ b, (l ++ [x])[i]? = some b ∧ Q ((l ++ [x]).take i) b} =
      insert l.length {i | ∃ b, l[i]? = some b ∧ Q (l.take i) b} := by
    ext i
    rw [Set.mem_ofPred_eq, position_concat, Set.mem_insert_iff, Set.mem_ofPred_eq, or_comm]
    simp [h]
  have hfinite : Set.Finite {i | ∃ b, l[i]? = some b ∧ Q (l.take i) b} := by
    refine (Set.finite_lt_nat l.length).subset fun i hi => ?_
    obtain ⟨b, hb, _⟩ := hi
    exact (List.getElem?_eq_some_iff.mp hb).1
  rw [countSplits, hset, Set.ncard_insert_of_notMem (by simp) hfinite]
  rfl

end Count
end Cheetah.Lib
