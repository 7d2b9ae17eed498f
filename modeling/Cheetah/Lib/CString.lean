import Cheetah.Lib.Bytes

/-! Strings of C.

A string in memory ends with its first NUL byte, wherever the object that holds it ends.
`strncmp` compares two memories up to a count and stops at a difference or a NUL, so a
memory that is not terminated agrees with a string when it is a prefix of it, or holds it
with its NUL and goes on (`strncmp_eq`). -/
namespace Cheetah.Lib.CString

/-- A string in memory. -/
def cString (text : List Byte) : List Byte := text ++ [0]

/-- `strnlen`: the bytes before the first NUL, at most `max`. -/
def strnlen : List Byte → Nat → Nat
  | _, 0 => 0
  | [], _ + 1 => 0
  | x :: rest, max + 1 => if x = 0 then 0 else strnlen rest max + 1

/-- `strncmp`, with no result when it reads past the end of a memory. -/
def strncmp : List Byte → List Byte → Nat → Option Int
  | _, _, 0 => some 0
  | x :: a, y :: b, n + 1 =>
    if x = y then if x = 0 then some 0 else strncmp a b n else some (x.toNat - y.toNat)
  | _, _, _ + 1 => none

theorem strnlen_cString {text : List Byte} (hnul : (0 : Byte) ∉ text) {max : Nat} (hmax : text.length < max) :
    strnlen (cString text) max = text.length := by
  induction text generalizing max with
  | nil =>
    obtain ⟨max, rfl⟩ := Nat.exists_eq_add_one.mpr hmax
    rfl
  | cons x rest ih =>
    obtain ⟨hx, hrest⟩ := not_or.mp (mt List.mem_cons.mpr hnul)
    obtain ⟨max, rfl⟩ : ∃ k, max = k + 1 := Nat.exists_eq_add_one.mpr (by omega)
    rw [List.length_cons] at hmax ⊢
    rw [cString, List.cons_append, strnlen, if_neg (Ne.symm hx)]
    exact congrArg (· + 1) (ih hrest (by omega))

/-- The first `strnlen` bytes of a string are its text. -/
theorem take_strnlen {text : List Byte} (hnul : (0 : Byte) ∉ text) {max : Nat} (hmax : text.length < max) :
    (cString text).take (strnlen (cString text) max) = text := by
  rw [strnlen_cString hnul hmax, cString, List.take_left' rfl]

theorem byte_sub_ne_zero {x y : Byte} (h : x ≠ y) : ((x.toNat : Int) - y.toNat) ≠ 0 := by
  intro hzero
  exact h (BitVec.eq_of_toNat_eq (by omega))

/-- A string compared with a memory of as many bytes as are to be compared: the comparison
stays inside both, and finds them equal when the memory is a prefix of the text or starts
with the whole string. -/
theorem strncmp_eq {text mem : List Byte} (hnul : (0 : Byte) ∉ text) :
    ∃ r, strncmp (cString text) mem mem.length = some r ∧
      (r = 0 ↔ mem <+: text ∨ cString text <+: mem) := by
  induction text generalizing mem with
  | nil =>
    cases mem with
    | nil => exact ⟨0, rfl, by simp⟩
    | cons y rest =>
      by_cases hy : (0 : Byte) = y
      · subst hy
        exact ⟨0, rfl, by simp [cString]⟩
      · refine ⟨(0 : Byte).toNat - y.toNat, ?_, ?_⟩
        · rw [cString, List.nil_append, List.length_cons, strncmp, if_neg hy]
        · rw [iff_false_left (byte_sub_ne_zero hy)]
          simpa [cString, List.cons_prefix_cons] using hy
  | cons x text ih =>
    cases mem with
    | nil => exact ⟨0, rfl, by simp⟩
    | cons y rest =>
      obtain ⟨hx, hnul'⟩ := not_or.mp (mt List.mem_cons.mpr hnul)
      by_cases hxy : x = y
      · subst hxy
        obtain ⟨r, hr, hiff⟩ := @ih rest hnul'
        refine ⟨r, ?_, ?_⟩
        · rw [cString, List.cons_append, List.length_cons, strncmp, if_pos rfl, if_neg (Ne.symm hx)]
          exact hr
        · rw [hiff]
          simp [cString, List.cons_prefix_cons]
      · refine ⟨x.toNat - y.toNat, ?_, ?_⟩
        · rw [cString, List.cons_append, List.length_cons, strncmp, if_neg hxy]
        · rw [iff_false_left (byte_sub_ne_zero hxy)]
          simp [cString, List.cons_prefix_cons, hxy, Ne.symm hxy]

end Cheetah.Lib.CString
