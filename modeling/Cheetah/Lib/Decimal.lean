import Mathlib.Data.Nat.Digits.Defs
import Cheetah.Lib.Scanf

/-! `fprintf` of a `%d`, and the `%d` of `fscanf` that reads it back.

`printInt` writes the digits of a number, the most significant first, behind a minus sign
where there is one. Its text is an integer to `fscanf`, of the same number. -/
namespace Cheetah.Lib.Scanf

/-- The character of a digit. -/
def digitByte (d : Nat) : Byte := BitVec.ofNat 8 (0x30 + d)

/-- The digits of a natural number. -/
def printNat (n : Nat) : List Byte :=
  if n = 0 then [digitByte 0] else (Nat.digits 10 n).reverse.map digitByte

/-- `%d`. -/
def printInt (v : Int) : List Byte := if v < 0 then 0x2d :: printNat v.natAbs else printNat v.natAbs

theorem digitByte_toNat {d : Nat} (h : d < 10) : (digitByte d).toNat = 0x30 + d := by
  rw [digitByte, BitVec.toNat_ofNat]
  omega

theorem isDigit_digitByte {d : Nat} (h : d < 10) : isDigit (digitByte d) = true := by
  rw [isDigit, digitByte_toNat h, Bool.and_eq_true, decide_eq_true_eq, decide_eq_true_eq]
  omega

theorem printNat_isDigit (n : Nat) : ∀ b ∈ printNat n, isDigit b = true := by
  intro b hb
  rw [printNat] at hb
  split at hb
  · rw [List.mem_singleton.mp hb]
    exact isDigit_digitByte (by decide)
  · obtain ⟨d, hd, rfl⟩ := List.mem_map.mp hb
    exact isDigit_digitByte (Nat.digits_lt_base (by decide) (List.mem_reverse.mp hd))

theorem printNat_ne_nil (n : Nat) : printNat n ≠ [] := by
  rw [printNat]
  split
  · exact List.cons_ne_nil _ _
  · rename_i hn
    simp [Nat.digits_ne_nil_iff_ne_zero.mpr hn]

/-- Horner's rule on the digits. -/
theorem foldl_printNat (n : Nat) : (printNat n).foldl (fun n d => 10 * n + (d.toNat - 0x30)) 0 = n := by
  rw [printNat]
  split
  · rename_i hn
    rw [hn]
    rfl
  · have hdigits : ∀ l : List Nat, (∀ d ∈ l, d < 10) →
        l.foldr (fun d n => 10 * n + ((digitByte d).toNat - 0x30)) 0 = Nat.ofDigits 10 l := by
      intro l hl
      induction l with
      | nil => rfl
      | cons d rest ih =>
        have hd := digitByte_toNat (hl d (List.mem_cons_self ..))
        rw [List.foldr_cons, ih fun e he => hl e (List.mem_cons_of_mem d he), hd, Nat.ofDigits_cons,
          Nat.add_sub_cancel_left, Nat.add_comm]
    rw [List.foldl_map, List.foldl_reverse, hdigits _ fun d hd => Nat.digits_lt_base (by decide) hd,
      Nat.ofDigits_digits]

/-- The text of a number is an integer. -/
theorem isInt_printInt (v : Int) : IsInt (printInt v) := by
  refine ⟨printNat v.natAbs, printNat_ne_nil _, printNat_isDigit _, ?_⟩
  rw [printInt]
  split
  · exact .inr ⟨0x2d, by decide, rfl⟩
  · exact .inl rfl

/-- **Read back**, it is that number. -/
theorem decimal_printInt (v : Int) : decimal (printInt v) = v := by
  rw [printInt]
  split
  · rename_i hneg
    show -(((printNat v.natAbs).foldl (fun n d => 10 * n + (d.toNat - 0x30)) 0 : Nat) : Int) = v
    rw [foldl_printNat]
    omega
  · rename_i hpos
    obtain ⟨b, rest, htext⟩ := List.exists_cons_of_ne_nil (printNat_ne_nil v.natAbs)
    have hdigit := printNat_isDigit v.natAbs b (by rw [htext]; exact List.mem_cons_self ..)
    have hminus : b ≠ 0x2d := by
      intro hb
      rw [hb] at hdigit
      exact absurd hdigit (by decide)
    have hplus : b ≠ 0x2b := by
      intro hb
      rw [hb] at hdigit
      exact absurd hdigit (by decide)
    have hvalue := foldl_printNat v.natAbs
    rw [htext] at hvalue ⊢
    simp only [decimal, if_neg hminus, if_neg hplus, hvalue]
    omega

/-- An integer has no newline. -/
theorem IsInt.newline_not_mem {text : List Byte} (h : IsInt text) : newline ∉ text := by
  obtain ⟨digits, _, hdigits, hform⟩ := h
  have hnot : newline ∉ digits := by
    intro hmem
    exact absurd (hdigits _ hmem) (by decide)
  rcases hform with rfl | ⟨b, hsign, rfl⟩
  · exact hnot
  · intro hmem
    rcases List.mem_cons.mp hmem with rfl | hmem
    · exact absurd hsign (by decide)
    · exact hnot hmem

/-- A line that is ended by a newline. -/
theorem lines_append_newline {l : List Byte} (h : newline ∉ l) (rest : List Byte) :
    lines (l ++ newline :: rest) = l :: lines rest := by
  induction l with
  | nil => rw [List.nil_append, lines, if_pos rfl]
  | cons b l ih =>
    obtain ⟨hb, hl⟩ := not_or.mp (mt List.mem_cons.mpr h)
    rw [List.cons_append, lines, if_neg (Ne.symm hb), ih hl]
    rfl

end Cheetah.Lib.Scanf
