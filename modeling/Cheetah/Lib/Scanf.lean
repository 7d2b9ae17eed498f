import Mathlib.Data.List.TakeWhile
import Cheetah.Lib.Bytes

/-! `fscanf`, for the directives `%d`, an ordinary character and white space.

A directive that fails leaves what it did not read in the input: a `%d` that meets no digit
has read the white space and at most a sign, an ordinary character that differs is not read
at all. The result is the number of items assigned so far, or end of file when the input
ended before the first of them.

White space does not stop at the end of a line. `line` and `more` cut an input at its first
newline, and `conv_line` says when a `%d` stays in front of it. -/
namespace Cheetah.Lib.Scanf

/-! ### Characters -/

def newline : Byte := 0x0a

/-- `isspace`. -/
def isSpace (b : Byte) : Bool := b = 0x20 || (0x09 ≤ b.toNat && b.toNat ≤ 0x0d)

def isDigit (b : Byte) : Bool := 0x30 ≤ b.toNat && b.toNat ≤ 0x39

def isSign (b : Byte) : Bool := b = 0x2b || b = 0x2d

theorem isDigit_newline : isDigit newline = false := by decide
theorem isSpace_newline : isSpace newline = true := by decide

/-! ### Directives -/

/-- The longest start of an input that starts a decimal integer, and the rest. -/
def intItem : List Byte → List Byte × List Byte
  | [] => ([], [])
  | b :: rest =>
    if isSign b then (b :: rest.takeWhile isDigit, rest.dropWhile isDigit)
    else ((b :: rest).takeWhile isDigit, (b :: rest).dropWhile isDigit)

/-- What a `%d` does: the input ended, it read no integer, or it read one. -/
inductive Conv where
  | eof
  | fail (rest : List Byte)
  | item (text rest : List Byte)
  deriving DecidableEq

/-- `%d`. -/
def conv (input : List Byte) : Conv :=
  match input.dropWhile isSpace with
  | [] => .eof
  | b :: rest =>
    let (text, after) := intItem (b :: rest)
    if text.any isDigit then .item text after else .fail after

inductive Directive where
  | int
  | char (c : Byte)
  | space
  deriving DecidableEq

/-- What is returned when the input ends: `none` is `EOF`. -/
def inputFailure (items : List (List Byte)) : Option (List (List Byte)) :=
  if items.isEmpty then none else some items

/-- `fscanf`: the texts of the items assigned, `none` for `EOF`, and the rest of the input. -/
def scanf : List Directive → List Byte → List (List Byte) → Option (List (List Byte)) × List Byte
  | [], input, items => (some items, input)
  | .space :: format, input, items => scanf format (input.dropWhile isSpace) items
  | .char c :: format, input, items =>
    match input with
    | [] => (inputFailure items, [])
    | b :: rest => if b = c then scanf format rest items else (some items, input)
  | .int :: format, input, items =>
    match conv input with
    | .eof => (inputFailure items, [])
    | .fail rest => (some items, rest)
    | .item text rest => scanf format rest (items ++ [text])

/-! ### What a `%d` reads -/

section Integers
variable {s text rest : List Byte}

/-- An integer: digits, behind a sign or not. -/
def IsInt (text : List Byte) : Prop :=
  ∃ digits, digits ≠ [] ∧ (∀ d ∈ digits, isDigit d = true) ∧
    (text = digits ∨ ∃ b, isSign b = true ∧ text = b :: digits)

theorem not_isSpace_of_isDigit {b : Byte} (h : isDigit b = true) : isSpace b = false := by
  simp only [isDigit, isSpace, Bool.and_eq_true, Bool.or_eq_false_iff, Bool.and_eq_false_iff,
    decide_eq_true_eq, decide_eq_false_iff_not] at h ⊢
  refine ⟨?_, .inr (by omega)⟩
  intro hb
  subst hb
  exact absurd h (by decide)

theorem not_isDigit_of_isSign {b : Byte} (h : isSign b = true) : isDigit b = false := by
  simp only [isSign, Bool.or_eq_true, decide_eq_true_eq] at h
  rcases h with rfl | rfl <;> rfl

theorem not_isSpace_of_isSign {b : Byte} (h : isSign b = true) : isSpace b = false := by
  simp only [isSign, Bool.or_eq_true, decide_eq_true_eq] at h
  rcases h with rfl | rfl <;> rfl

theorem not_isSign_of_isDigit {b : Byte} (h : isDigit b = true) : isSign b = false := by
  by_contra hsign
  rw [Bool.not_eq_false] at hsign
  rw [not_isDigit_of_isSign hsign] at h
  cases h

theorem intItem_cons (b : Byte) (rest : List Byte) : intItem (b :: rest) =
    if isSign b then (b :: rest.takeWhile isDigit, rest.dropWhile isDigit)
    else ((b :: rest).takeWhile isDigit, (b :: rest).dropWhile isDigit) := rfl

theorem conv_of_dropWhile {b : Byte} (h : s.dropWhile isSpace = b :: rest) :
    conv s = if (intItem (b :: rest)).1.any isDigit then .item (intItem (b :: rest)).1 (intItem (b :: rest)).2
      else .fail (intItem (b :: rest)).2 := by
  rw [conv, h]

/-- Digits are taken up to what is none. -/
theorem span_digits {digits : List Byte} (hdigits : ∀ d ∈ digits, isDigit d = true)
    (hrest : ∀ b ∈ rest.head?, isDigit b = false) :
    (digits ++ rest).takeWhile isDigit = digits ∧ (digits ++ rest).dropWhile isDigit = rest := by
  have hstop : rest.takeWhile isDigit = [] ∧ rest.dropWhile isDigit = rest := by
    cases rest with
    | nil => exact ⟨rfl, rfl⟩
    | cons b rest =>
      have hb := hrest b rfl
      rw [List.takeWhile_cons, List.dropWhile_cons, hb]
      exact ⟨rfl, rfl⟩
  rw [List.takeWhile_append_of_pos hdigits, List.dropWhile_append_of_pos hdigits, hstop.1, hstop.2,
    List.append_nil]
  exact ⟨rfl, rfl⟩

theorem head?_dropWhile (p : Byte → Bool) (s : List Byte) : ∀ b ∈ (s.dropWhile p).head?, p b = false := by
  intro b hb
  have hnot := List.head?_dropWhile_not p s
  rw [Option.mem_def.mp hb] at hnot
  simpa using hnot

/-- Where a `%d` starts to read, and how far. -/
theorem intItem_append (htext : IsInt text) (hrest : ∀ b ∈ rest.head?, isDigit b = false) :
    intItem (text ++ rest) = (text, rest) := by
  obtain ⟨digits, hne, hdigits, hform⟩ := htext
  obtain ⟨htake, hdrop⟩ := span_digits hdigits hrest
  rcases hform with rfl | ⟨b, hsign, rfl⟩
  · cases text with
    | nil => exact absurd rfl hne
    | cons d more =>
      have hsign := not_isSign_of_isDigit (hdigits d (List.mem_cons_self ..))
      rw [List.cons_append] at htake hdrop ⊢
      rw [intItem_cons, hsign, htake, hdrop]
      rfl
  · rw [List.cons_append, intItem_cons, if_pos hsign, htake, hdrop]

theorem IsInt.any_isDigit (h : IsInt text) : text.any isDigit = true := by
  obtain ⟨digits, hne, hdigits, hform⟩ := h
  obtain ⟨d, hd⟩ := List.exists_mem_of_ne_nil digits hne
  refine List.any_eq_true.mpr ⟨d, ?_, hdigits d hd⟩
  rcases hform with rfl | ⟨b, _, rfl⟩
  · exact hd
  · exact List.mem_cons_of_mem b hd

/-- An integer does not start with white space. -/
theorem IsInt.dropWhile_append (h : IsInt text) (rest : List Byte) :
    ∃ b more, text ++ rest = b :: more ∧ (text ++ rest).dropWhile isSpace = b :: more := by
  obtain ⟨digits, hne, hdigits, hform⟩ := h
  have hhead : ∃ b more, text = b :: more ∧ isSpace b = false := by
    rcases hform with rfl | ⟨b, hsign, rfl⟩
    · cases text with
      | nil => exact absurd rfl hne
      | cons d more => exact ⟨d, more, rfl, not_isSpace_of_isDigit (hdigits d (List.mem_cons_self ..))⟩
    · exact ⟨b, digits, rfl, not_isSpace_of_isSign hsign⟩
  obtain ⟨b, more, rfl, hspace⟩ := hhead
  refine ⟨b, more ++ rest, rfl, ?_⟩
  rw [List.cons_append, List.dropWhile_cons, hspace]
  rfl

/-- The text of a `%d` that found digits is an integer. -/
theorem isInt_intItem (h : (intItem s).1.any isDigit = true) : IsInt (intItem s).1 := by
  cases s with
  | nil => cases h
  | cons b rest =>
    obtain ⟨d, hd, hdigit⟩ := List.any_eq_true.mp h
    rw [intItem_cons] at hd ⊢
    split at hd
    · rename_i hsign
      rw [if_pos hsign]
      refine ⟨rest.takeWhile isDigit, ?_, fun d hd => List.mem_takeWhile_imp hd, .inr ⟨b, hsign, rfl⟩⟩
      rcases List.mem_cons.mp hd with rfl | hd
      · rw [not_isDigit_of_isSign hsign] at hdigit
        cases hdigit
      · exact List.ne_nil_of_mem hd
    · rename_i hsign
      rw [if_neg hsign]
      exact ⟨(b :: rest).takeWhile isDigit, List.ne_nil_of_mem hd, fun d hd => List.mem_takeWhile_imp hd,
        .inl rfl⟩

theorem intItem_split (s : List Byte) :
    (intItem s).1 ++ (intItem s).2 = s ∧ ∀ b ∈ (intItem s).2.head?, isDigit b = false := by
  cases s with
  | nil => exact ⟨rfl, fun b hb => absurd hb (by simp [intItem])⟩
  | cons b rest =>
    rw [intItem_cons]
    split
    · exact ⟨by rw [List.cons_append, List.takeWhile_append_dropWhile], head?_dropWhile isDigit rest⟩
    · exact ⟨List.takeWhile_append_dropWhile, head?_dropWhile isDigit (b :: rest)⟩

/-- **What a `%d` reads**: white space, and then the longest integer. -/
theorem conv_eq_item_iff : conv s = .item text rest ↔
    IsInt text ∧ (∀ b ∈ rest.head?, isDigit b = false) ∧
      ∃ white : List Byte, (∀ b ∈ white, isSpace b = true) ∧ s = white ++ (text ++ rest) := by
  constructor
  · intro hconv
    cases hs : s.dropWhile isSpace with
    | nil => simp [conv, hs] at hconv
    | cons b more =>
      rw [conv_of_dropWhile hs] at hconv
      split at hconv
      · rename_i hdigit
        obtain ⟨hsplit, hstop⟩ := intItem_split (b :: more)
        injection hconv with htext hrest
        rw [← htext, ← hrest]
        refine ⟨isInt_intItem hdigit, hstop, s.takeWhile isSpace, fun b hb => List.mem_takeWhile_imp hb, ?_⟩
        rw [hsplit, ← hs, List.takeWhile_append_dropWhile]
      · cases hconv
  · intro h
    obtain ⟨htext, hstop, white, hwhite, rfl⟩ := h
    obtain ⟨b, more, heq, hskip⟩ := htext.dropWhile_append rest
    have hall : (white ++ (text ++ rest)).dropWhile isSpace = b :: more := by
      rw [List.dropWhile_append_of_pos hwhite, hskip]
    rw [conv_of_dropWhile hall, ← heq, intItem_append htext hstop, if_pos htext.any_isDigit]

end Integers

/-- The number of an integer. -/
def decimal (text : List Byte) : Int :=
  let value (digits : List Byte) : Nat := digits.foldl (fun n d => 10 * n + (d.toNat - 0x30)) 0
  match text with
  | [] => 0
  | b :: rest => if b = 0x2d then -value rest else if b = 0x2b then value rest else value (b :: rest)

/-! ### Lines -/

/-- The input up to its first newline. -/
def line (s : List Byte) : List Byte := s.takeWhile (· ≠ newline)

/-- The lines of a text. -/
def lines : List Byte → List (List Byte)
  | [] => [[]]
  | b :: rest => if b = newline then [] :: lines rest else (b :: (lines rest).headD []) :: (lines rest).tail

/-- The lines behind the first. -/
def more (s : List Byte) : List (List Byte) := (lines s).tail

theorem lines_eq (s : List Byte) : lines s = line s :: more s := by
  induction s with
  | nil => rfl
  | cons b rest ih =>
    by_cases hb : b = newline
    · simp [more, lines, line, hb]
    · have hhead : (lines rest).headD [] = line rest := by rw [ih]; rfl
      simp only [more, lines, if_neg hb, hhead, List.tail_cons]
      simp [line, hb]

@[simp] theorem line_nil : line [] = [] := rfl
@[simp] theorem more_nil : more [] = [] := rfl

theorem line_cons {b : Byte} (hb : b ≠ newline) (s : List Byte) : line (b :: s) = b :: line s := by
  simp [line, hb]

theorem more_cons {b : Byte} (hb : b ≠ newline) (s : List Byte) : more (b :: s) = more s := by
  rw [more, lines, if_neg hb, List.tail_cons, more]

theorem line_newline (s : List Byte) : line (newline :: s) = [] := by
  simp [line]

theorem more_newline (s : List Byte) : more (newline :: s) = lines s := by
  rw [more, lines, if_pos rfl, List.tail_cons]

/-- What newline does not satisfy is taken and dropped within the first line. -/
theorem takeWhile_line {p : Byte → Bool} (hp : p newline = false) (s : List Byte) :
    (line s).takeWhile p = s.takeWhile p ∧ (line s).dropWhile p = line (s.dropWhile p) ∧
      more (s.dropWhile p) = more s := by
  induction s with
  | nil => exact ⟨rfl, rfl, rfl⟩
  | cons b rest ih =>
    by_cases hb : b = newline
    · subst hb
      rw [line_newline, List.takeWhile_cons, List.dropWhile_cons, hp]
      exact ⟨rfl, (line_newline rest).symm, rfl⟩
    · rw [line_cons hb]
      obtain ⟨htake, hdrop, hmore⟩ := ih
      by_cases hpb : p b = true
      · rw [List.takeWhile_cons, List.takeWhile_cons, List.dropWhile_cons, List.dropWhile_cons, if_pos hpb,
          if_pos hpb, if_pos hpb, if_pos hpb, htake, more_cons hb]
        exact ⟨rfl, hdrop, hmore⟩
      · rw [List.takeWhile_cons, List.takeWhile_cons, List.dropWhile_cons, List.dropWhile_cons, if_neg hpb,
          if_neg hpb, if_neg hpb, if_neg hpb, line_cons hb]
        exact ⟨rfl, rfl, rfl⟩

/-- A line of white space. -/
def Blank (s : List Byte) : Prop := s.dropWhile isSpace = []

instance (s : List Byte) : Decidable (Blank s) := inferInstanceAs (Decidable (_ = _))

/-- White space in front of a line that is not blank ends within the line. -/
theorem skip_line {s : List Byte} (h : ¬ Blank (line s)) :
    (line s).dropWhile isSpace = line (s.dropWhile isSpace) ∧ more (s.dropWhile isSpace) = more s := by
  induction s with
  | nil => exact absurd rfl h
  | cons b rest ih =>
    by_cases hb : b = newline
    · subst hb
      rw [line_newline] at h
      exact absurd rfl h
    · rw [line_cons hb] at h ⊢
      by_cases hs : isSpace b = true
      · rw [Blank, List.dropWhile_cons, if_pos hs] at h
        rw [List.dropWhile_cons, List.dropWhile_cons, if_pos hs, if_pos hs, more_cons hb]
        exact ih h
      · rw [List.dropWhile_cons, List.dropWhile_cons, if_neg hs, if_neg hs, line_cons hb]
        exact ⟨rfl, rfl⟩

/-- An integer ends within its line. -/
theorem intItem_line {b : Byte} (hb : b ≠ newline) (rest : List Byte) :
    intItem (b :: line rest) = ((intItem (b :: rest)).1, line (intItem (b :: rest)).2) ∧
      more (intItem (b :: rest)).2 = more (b :: rest) := by
  have hrest := takeWhile_line isDigit_newline rest
  have hall := takeWhile_line isDigit_newline (b :: rest)
  rw [line_cons hb] at hall
  rw [intItem_cons, intItem_cons]
  split
  · rw [hrest.1, hrest.2.1, more_cons hb]
    exact ⟨rfl, hrest.2.2⟩
  · rw [hall.1, hall.2.1]
    exact ⟨rfl, hall.2.2⟩

theorem conv_eq_eof_iff {s : List Byte} : conv s = .eof ↔ Blank s := by
  unfold Blank
  cases hs : s.dropWhile isSpace with
  | nil => simp [conv, hs]
  | cons b rest =>
    rw [conv_of_dropWhile hs]
    split <;> simp

/-- A `%d` in front of a line that is not blank stays within the line. -/
theorem conv_line {s : List Byte} (h : ¬ Blank (line s)) :
    (∃ rest, conv s = .fail rest ∧ conv (line s) = .fail (line rest) ∧ more rest = more s) ∨
      ∃ text rest, conv s = .item text rest ∧ conv (line s) = .item text (line rest) ∧
        more rest = more s := by
  obtain ⟨hskip, hmore⟩ := skip_line h
  unfold Blank at h
  cases hs : s.dropWhile isSpace with
  | nil =>
    rw [hskip, hs] at h
    exact absurd rfl h
  | cons b rest =>
    have hb : b ≠ newline := by
      intro hnew
      rw [hskip, hs, hnew, line_newline] at h
      exact h rfl
    rw [hs, line_cons hb] at hskip
    rw [hs] at hmore
    obtain ⟨hitem, hmore'⟩ := intItem_line hb rest
    rw [conv_of_dropWhile hs, conv_of_dropWhile hskip, hitem]
    by_cases hdigit : (intItem (b :: rest)).1.any isDigit = true
    · rw [if_pos hdigit]
      exact .inr ⟨_, _, rfl, if_pos hdigit, hmore'.trans hmore⟩
    · rw [if_neg hdigit]
      exact .inl ⟨_, rfl, if_neg hdigit, hmore'.trans hmore⟩

end Cheetah.Lib.Scanf
