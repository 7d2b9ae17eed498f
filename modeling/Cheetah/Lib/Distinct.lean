import Mathlib.Data.List.Nodup
import Mathlib.Data.List.Perm.Subperm
import Mathlib.Data.List.Induction
import Mathlib.Data.Set.Card

/-! The distinct elements of a list in order of first occurrence: `List.eraseDups`
one element at a time. -/
namespace Cheetah.Lib

variable {α : Type*} [DecidableEq α]

theorem eraseDups_concat_of_mem {l : List α} {a : α} (h : a ∈ l) :
    (l ++ [a]).eraseDups = l.eraseDups := by
  simp [List.eraseDups_append, List.removeAll, h]

theorem eraseDups_concat_of_not_mem {l : List α} {a : α} (h : a ∉ l) :
    (l ++ [a]).eraseDups = l.eraseDups ++ [a] := by
  simp [List.eraseDups_append, List.removeAll, h, List.eraseDups_cons]

theorem length_eraseDups_concat {l : List α} {a : α} (h : a ∉ l) :
    (l ++ [a]).eraseDups.length = l.eraseDups.length + 1 := by
  rw [eraseDups_concat_of_not_mem h, List.length_append, List.length_singleton]

theorem nodup_eraseDups (l : List α) : l.eraseDups.Nodup := by
  induction l using List.reverseRecOn with
  | nil => exact List.nodup_nil
  | append_singleton l a ih =>
    by_cases h : a ∈ l
    · rw [eraseDups_concat_of_mem h]
      exact ih
    · rw [eraseDups_concat_of_not_mem h, ← List.concat_eq_append, List.nodup_concat]
      exact ⟨fun ha => h (List.mem_eraseDups.mp ha), ih⟩

theorem length_eraseDups_le (l : List α) : l.eraseDups.length ≤ l.length := by
  induction l using List.reverseRecOn with
  | nil => exact Nat.le_refl 0
  | append_singleton l a ih =>
    rw [List.length_append, List.length_singleton]
    by_cases h : a ∈ l
    · rw [eraseDups_concat_of_mem h]
      exact Nat.le_succ_of_le ih
    · rw [length_eraseDups_concat h]
      exact Nat.succ_le_succ ih

/-- A list that is no longer than its distinct elements has no repetitions. -/
theorem nodup_of_length_le_eraseDups {l : List α} (h : l.length ≤ l.eraseDups.length) : l.Nodup := by
  induction l using List.reverseRecOn with
  | nil => exact List.nodup_nil
  | append_singleton l a ih =>
    rw [List.length_append, List.length_singleton] at h
    by_cases ha : a ∈ l
    · rw [eraseDups_concat_of_mem ha] at h
      have hle := length_eraseDups_le l
      omega
    · rw [length_eraseDups_concat ha] at h
      rw [← List.concat_eq_append, List.nodup_concat]
      exact ⟨ha, ih (Nat.le_of_succ_le_succ h)⟩

theorem eraseDups_of_nodup {l : List α} (h : l.Nodup) : l.eraseDups = l := by
  induction l using List.reverseRecOn with
  | nil => rfl
  | append_singleton l a ih =>
    rw [← List.concat_eq_append, List.nodup_concat] at h
    rw [eraseDups_concat_of_not_mem h.1, ih h.2]

/-- Repetitions may be dropped before or after a function is applied. -/
theorem eraseDups_map_eraseDups {β : Type*} [DecidableEq β] (f : α → β) (l : List α) :
    (l.eraseDups.map f).eraseDups = (l.map f).eraseDups := by
  induction l using List.reverseRecOn with
  | nil => rfl
  | append_singleton l a ih =>
    have hmem : f a ∈ l.eraseDups.map f ↔ f a ∈ l.map f := by simp [List.mem_eraseDups]
    rw [List.map_append, List.map_singleton]
    by_cases h : a ∈ l
    · rw [eraseDups_concat_of_mem h, eraseDups_concat_of_mem (List.mem_map_of_mem h), ih]
    · rw [eraseDups_concat_of_not_mem h, List.map_append, List.map_singleton]
      by_cases hf : f a ∈ l.map f
      · rw [eraseDups_concat_of_mem hf, eraseDups_concat_of_mem (hmem.mpr hf), ih]
      · rw [eraseDups_concat_of_not_mem hf, eraseDups_concat_of_not_mem (mt hmem.mp hf), ih]

/-- The distinct elements have distinct images exactly when different elements do. -/
theorem nodup_map_eraseDups_iff {β : Type*} (f : α → β) (l : List α) :
    (l.eraseDups.map f).Nodup ↔ ∀ a ∈ l, ∀ b ∈ l, f a = f b → a = b := by
  rw [List.nodup_map_iff_inj_on (nodup_eraseDups l)]
  simp only [List.mem_eraseDups]

/-- The distinct elements are as many as the set of the elements has. -/
theorem length_eraseDups_eq_ncard (l : List α) : l.eraseDups.length = Set.ncard {a | a ∈ l} := by
  have hset : {a | a ∈ l} = (l.eraseDups.toFinset : Set α) := by
    ext a
    simp
  rw [hset, Set.ncard_coe_finset, List.toFinset_card_of_nodup (nodup_eraseDups l)]

/-- A list has no fewer distinct elements than its parts. -/
theorem length_eraseDups_le_of_subset {a b : List α} (h : a ⊆ b) :
    a.eraseDups.length ≤ b.eraseDups.length := by
  have hsub : a.eraseDups ⊆ b.eraseDups := fun x hx =>
    List.mem_eraseDups.mpr (h (List.mem_eraseDups.mp hx))
  exact ((nodup_eraseDups a).subperm hsub).length_le

end Cheetah.Lib
