import Mathlib.Data.List.Basic

/-! Arrays from `malloc`: a fixed number of slots, each uninitialized until it is
written. An access outside the array has no result.

`Holds b xs` says that the array starts with the values `xs`; appending at index
`xs.length` is the one write the stores make. -/
namespace Cheetah.Lib

/-- The slots of an array, `none` where nothing has been written. -/
abbrev Buffer (α : Type*) := List (Option α)

namespace Buffer
variable {α : Type*}

def malloc (n : Nat) : Buffer α := List.replicate n none

def write (b : Buffer α) (i : Nat) (x : α) : Option (Buffer α) :=
  if i < b.length then some (b.set i (some x)) else none

/-- The value at an index that is in the array and initialized. -/
def read (b : Buffer α) (i : Nat) : Option α := (b[i]?).join

theorem read_write {b b' : Buffer α} {i : Nat} {x : α} (h : b.write i x = some b') (j : Nat) :
    b'.read j = if i = j then some x else b.read j := by
  rw [write] at h
  split at h
  · rename_i hi
    rw [← Option.some.inj h, read, read, List.getElem?_set]
    split
    · rfl
    · rfl
  · cases h

theorem read_malloc (n i : Nat) : (malloc n : Buffer α).read i = none := by
  rw [read, malloc, List.getElem?_replicate]
  split <;> rfl

theorem lt_of_write {b b' : Buffer α} {i : Nat} {x : α} (h : b.write i x = some b') :
    i < b.length ∧ b'.length = b.length := by
  rw [write] at h
  split at h
  · rename_i hi
    rw [← Option.some.inj h]
    exact ⟨hi, List.length_set⟩
  · cases h

/-- The first slots are `xs`. -/
def Holds (b : Buffer α) (xs : List α) : Prop := ∃ rest, b = xs.map some ++ rest

theorem holds_nil (b : Buffer α) : Holds b [] := ⟨b, rfl⟩

theorem Holds.length_le {b : Buffer α} {xs : List α} (h : Holds b xs) : xs.length ≤ b.length := by
  obtain ⟨rest, rfl⟩ := h
  simp

theorem Holds.left {b : Buffer α} {xs ys : List α} (h : Holds b (xs ++ ys)) : Holds b xs := by
  obtain ⟨rest, rfl⟩ := h
  exact ⟨ys.map some ++ rest, by rw [List.map_append, List.append_assoc]⟩

theorem Holds.read {b : Buffer α} {xs : List α} (h : Holds b xs) {i : Nat} (hi : i < xs.length) :
    b.read i = some xs[i] := by
  obtain ⟨rest, rfl⟩ := h
  have hlen : i < (xs.map some).length := by simpa using hi
  simp [Buffer.read, List.getElem?_append_left hlen, hi]

theorem Holds.map_read {b : Buffer α} {xs : List α} (h : Holds b xs) :
    (List.range xs.length).map b.read = xs.map some := by
  refine List.ext_getElem (by simp) fun i hi _ => ?_
  rw [List.length_map, List.length_range] at hi
  rw [List.getElem_map, List.getElem_map, List.getElem_range, h.read hi]

/-- Writing the first free slot appends. -/
theorem Holds.write_end {b : Buffer α} {xs : List α} (h : Holds b xs) (hlen : xs.length < b.length)
    (x : α) : ∃ b', b.write xs.length x = some b' ∧ Holds b' (xs ++ [x]) ∧ b'.length = b.length := by
  refine ⟨b.set xs.length (some x), if_pos hlen, ?_, List.length_set⟩
  obtain ⟨rest, rfl⟩ := h
  cases rest with
  | nil => simp at hlen
  | cons r rest =>
    refine ⟨rest, ?_⟩
    rw [List.set_append_right _ _ (by simp)]
    simp

/-- An array that holds a field of each row, at the index of a row. -/
theorem Holds.read_map {β : Type*} {f : β → α} {b : Buffer α} {rows : List β} (h : b.Holds (rows.map f))
    {i : Nat} (hi : i < rows.length) : b.read i = some (f rows[i]) := by
  rw [h.read (by rwa [List.length_map]), List.getElem_map]

/-- And with one row more. -/
theorem Holds.push_map {β : Type*} {f : β → α} {b : Buffer α} {rows : List β} (h : b.Holds (rows.map f))
    (hlen : rows.length < b.length) (row : β) :
    ∃ b', b.write rows.length (f row) = some b' ∧ b'.Holds ((rows ++ [row]).map f) ∧
      b'.length = b.length := by
  have hpush := h.write_end (by rwa [List.length_map]) (f row)
  rwa [List.length_map, ← List.map_singleton, ← List.map_append] at hpush

/-- `memcpy` of the first `n` slots of `src` to `dst`. -/
def memcpy (dst src : Buffer α) (n : Nat) : Option (Buffer α) :=
  if n ≤ dst.length ∧ n ≤ src.length then some (src.take n ++ dst.drop n) else none

/-- A copy that covers the values holds them. -/
theorem Holds.memcpy {src : Buffer α} {xs : List α} (h : Holds src xs) (dst : Buffer α) {n : Nat}
    (hxs : xs.length ≤ n) (hdst : n ≤ dst.length) (hsrc : n ≤ src.length) :
    ∃ b, Buffer.memcpy dst src n = some b ∧ Holds b xs ∧ b.length = dst.length := by
  refine ⟨src.take n ++ dst.drop n, if_pos ⟨hdst, hsrc⟩, ?_, ?_⟩
  · obtain ⟨rest, rfl⟩ := h
    rw [List.take_append, List.take_of_length_le (by simpa using hxs), List.append_assoc]
    exact ⟨_, rfl⟩
  · rw [List.length_append, List.length_take, List.length_drop]
    omega

end Buffer
end Cheetah.Lib
