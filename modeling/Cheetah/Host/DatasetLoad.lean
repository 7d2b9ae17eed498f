import Mathlib.Algebra.Order.Ring.Nat
import Mathlib.Data.List.DropRight
import Cheetah.Lib.Buffer
import Cheetah.Lib.Scanf

/-! `cheetah_memory_sim_create`: the loop that parses the dataset, in the TPCH format.

The loop asks `fscanf` for two integers with a comma between them and goes on until the
end of the file, whatever it was given: a line that does not match is stored with the
values of the line before, or never read past. The dataset is what is loaded exactly when
every line matches or is blank and there are no more rows than fit. -/
namespace Cheetah.Host.DatasetLoad
open Lib Lib.Scanf

/-! ### Code -/

def comma : Byte := 0x2c

/-- `"%d,%d\n"`. -/
def format : List Directive := [.int, .char comma, .int, .space]

/-- A row of the dataset, as the arrays hold it. -/
structure LoadedRow where
  rowId : BitVec 32
  flowId : BitVec 16
  key : BitVec 32
  deriving DecidableEq

/-- The variables of the loop; `sim->value_arr` is not written in this format. `loaded` is
not in the code: the rows it has stored so far, in order. -/
structure Loading where
  stream : List Byte
  flowId : BitVec 32
  key : BitVec 32
  i : BitVec 32
  rowIdArr : Buffer (BitVec 32)
  flowIdArr : Buffer (BitVec 16)
  keyArr : Buffer (BitVec 32)
  loaded : List LoadedRow

section Code
variable (toInt : List Byte → BitVec 32)

/-- Before the loop. `flow_id` and `key` are not initialized. -/
def start (size : Nat) (flowId key : BitVec 32) (file : List Byte) : Loading :=
  ⟨file, flowId, key, 0, Buffer.malloc size, Buffer.malloc size, Buffer.malloc size, []⟩

/-- What `fscanf` leaves: `toInt` is the `int` that `%d` stores for a text, and an item that
is not assigned leaves its variable as it was. -/
def Loading.assign (s : Loading) (items : List (List Byte)) (rest : List Byte) : Loading :=
  {s with
    stream := rest
    flowId := (items[0]?.map toInt).getD s.flowId
    key := (items[1]?.map toInt).getD s.key}

/-- The loop condition: `none` for `EOF`. -/
def scanRow (s : Loading) : Option Loading :=
  match scanf format s.stream [] with
  | (none, _) => none
  | (some items, rest) => some (s.assign toInt items rest)

/-- The loop body. -/
def storeRow (s : Loading) : Option Loading := do
  let rowIdArr ← s.rowIdArr.write s.i.toNat s.i
  let flowIdArr ← s.flowIdArr.write s.i.toNat (s.flowId.setWidth 16)
  let keyArr ← s.keyArr.write s.i.toNat s.key
  some {s with
    rowIdArr, flowIdArr, keyArr
    i := s.i + 1
    loaded := s.loaded ++ [⟨s.i, s.flowId.setWidth 16, s.key⟩]}

/-- Where the loop has got to after some turns. -/
inductive Run where
  | running
  | outOfBounds
  | ended (s : Loading)

/-- The loop, for as many turns. -/
def loop : Nat → Loading → Run
  | 0, _ => .running
  | turns + 1, s =>
    match scanRow toInt s with
    | none => .ended s
    | some s =>
      match storeRow s with
      | none => .outOfBounds
      | some s => loop turns s

end Code

/-- `sim->entry_count`. -/
def Loading.entryCount (s : Loading) : Nat := s.i.toNat

/-- The arrays at one index. -/
def Loading.row (s : Loading) (k : Nat) : Option LoadedRow := do
  some ⟨← s.rowIdArr.read k, ← s.flowIdArr.read k, ← s.keyArr.read k⟩

/-! ### One call -/

section Calls
variable {s x y r : List Byte}

theorem scan_eof (h : conv s = .eof) : scanf format s [] = (none, []) := by
  rw [format, scanf, h]
  rfl

theorem scan_fail (h : conv s = .fail r) : scanf format s [] = (some [], r) := by
  rw [format, scanf, h]

/-- No comma behind the first integer. -/
theorem scan_short (h : conv s = .item x r) (hr : ∀ b ∈ r.head?, b ≠ comma) :
    scanf format s [] = (some [x], r) := by
  rw [format, scanf, h]
  cases r with
  | nil => rfl
  | cons b r =>
    have hb : b ≠ comma := hr b rfl
    simp only [scanf, if_neg hb, List.nil_append]

theorem scan_comma (h : conv s = .item x (comma :: r)) :
    scanf format s [] = scanf [.int, .space] r [x] := by
  rw [format, scanf, h]
  simp only [scanf, if_pos, List.nil_append]

theorem scan_comma_eof (h : conv s = .item x (comma :: r)) (h' : conv r = .eof) :
    scanf format s [] = (some [x], []) := by
  rw [scan_comma h, scanf, h']
  rfl

theorem scan_comma_fail {r' : List Byte} (h : conv s = .item x (comma :: r)) (h' : conv r = .fail r') :
    scanf format s [] = (some [x], r') := by
  rw [scan_comma h, scanf, h']

theorem scan_row {r' : List Byte} (h : conv s = .item x (comma :: r)) (h' : conv r = .item y r') :
    scanf format s [] = (some [x, y], r'.dropWhile isSpace) := by
  rw [scan_comma h, scanf, h']
  simp only [scanf, List.cons_append, List.nil_append]

/-- Whether there is a comma next. -/
theorem comma_cases (r : List Byte) : (∃ r', r = comma :: r') ∨ ∀ b ∈ r.head?, b ≠ comma := by
  cases r with
  | nil => exact .inr fun b hb => absurd hb (by simp)
  | cons b r =>
    by_cases hb : b = comma
    · subst hb
      exact .inl ⟨r, rfl⟩
    · refine .inr fun b' hb' => ?_
      rw [List.head?_cons, Option.mem_some] at hb'
      rwa [← hb']

/-- The outcomes of one call, by what it finds. -/
theorem scan_cases (s : List Byte) : conv s = .eof ∨ (∃ r, conv s = .fail r) ∨
    (∃ x r, conv s = .item x r ∧ ∀ b ∈ r.head?, b ≠ comma) ∨
    ∃ x r, conv s = .item x (comma :: r) := by
  cases hs : conv s with
  | eof => exact .inl rfl
  | fail r => exact .inr (.inl ⟨r, rfl⟩)
  | item x r =>
    rcases comma_cases r with ⟨r', rfl⟩ | hr
    · exact .inr (.inr (.inr ⟨x, r', rfl⟩))
    · exact .inr (.inr (.inl ⟨x, r, rfl, hr⟩))

end Calls

/-! ### Lines -/

section Lines
variable {s t l x y : List Byte}

/-- The two integers of a line that `format` matches. -/
def lineItems (l : List Byte) : Option (List Byte × List Byte) :=
  match scanf format l [] with
  | (some [x, y], []) => some (x, y)
  | _ => none

/-- A line `x,y`, with white space in front of the integers and at the end. -/
def Matches (l x y : List Byte) : Prop :=
  IsInt x ∧ IsInt y ∧ ∃ front middle back : List Byte, (∀ b ∈ front, isSpace b = true) ∧
    (∀ b ∈ middle, isSpace b = true) ∧ (∀ b ∈ back, isSpace b = true) ∧
    l = front ++ (x ++ comma :: (middle ++ (y ++ back)))

/-- The integers of the lines of a text. -/
def rowTexts (s : List Byte) : List (List Byte × List Byte) := (lines s).filterMap lineItems

/-- Every line matches or is blank. -/
def WellFormed (s : List Byte) : Prop := ∀ l ∈ lines s, Blank l ∨ (lineItems l).isSome = true

/-- The rows of a dataset: those of its lines that match, numbered. -/
def fileRows (toInt : List Byte → BitVec 32) (file : List Byte) : List LoadedRow :=
  (rowTexts file).mapIdx fun k items =>
    ⟨BitVec.ofNat 32 k, (toInt items.1).setWidth 16, toInt items.2⟩

/-- A line has two integers exactly when it is the two, a comma and white space. -/
theorem lineItems_eq_some_iff : lineItems l = some (x, y) ↔
    ∃ r r', conv l = .item x (comma :: r) ∧ conv r = .item y r' ∧ Blank r' := by
  unfold lineItems
  constructor
  · intro h
    rcases scan_cases l with heof | ⟨r, hfail⟩ | ⟨x', r, hitem, hr⟩ | ⟨x', r, hcomma⟩
    · rw [scan_eof heof] at h
      cases h
    · rw [scan_fail hfail] at h
      cases h
    · rw [scan_short hitem hr] at h
      cases h
    · cases hr : conv r with
      | eof =>
        rw [scan_comma_eof hcomma hr] at h
        cases h
      | fail r' =>
        rw [scan_comma_fail hcomma hr] at h
        cases h
      | item y' r' =>
        rw [scan_row hcomma hr] at h
        cases hblank : r'.dropWhile isSpace with
        | nil =>
          rw [hblank] at h
          cases h
          exact ⟨r, r', hcomma, hr, hblank⟩
        | cons b more =>
          rw [hblank] at h
          cases h
  · intro h
    obtain ⟨r, r', hcomma, hr, hblank⟩ := h
    rw [scan_row hcomma hr, hblank]

/-- **The lines that match**: `lineItems` finds the two integers of a line `x,y`. -/
theorem lineItems_eq_some_iff_matches : lineItems l = some (x, y) ↔ Matches l x y := by
  have hcommaDigit : isDigit comma = false := by decide
  rw [lineItems_eq_some_iff]
  constructor
  · intro h
    obtain ⟨r, r', hcomma, hr, hblank⟩ := h
    obtain ⟨hx, _, front, hfront, rfl⟩ := conv_eq_item_iff.mp hcomma
    obtain ⟨hy, _, middle, hmiddle, rfl⟩ := conv_eq_item_iff.mp hr
    exact ⟨hx, hy, front, middle, r', hfront, hmiddle, List.dropWhile_eq_nil_iff.mp hblank, rfl⟩
  · intro h
    obtain ⟨hx, hy, front, middle, back, hfront, hmiddle, hback, rfl⟩ := h
    refine ⟨middle ++ (y ++ back), back, conv_eq_item_iff.mpr ⟨hx, ?_, front, hfront, rfl⟩,
      conv_eq_item_iff.mpr ⟨hy, ?_, middle, hmiddle, rfl⟩, List.dropWhile_eq_nil_iff.mpr hback⟩
    · intro b hb
      rw [List.head?_cons, Option.mem_some] at hb
      rwa [← hb]
    · intro b hb
      have hspace := hback b (List.mem_of_mem_head? hb)
      by_contra hdigit
      rw [Bool.not_eq_false] at hdigit
      rw [not_isSpace_of_isDigit hdigit] at hspace
      cases hspace

theorem lineItems_eq_none_of_blank (h : Blank l) : lineItems l = none := by
  rw [lineItems, scan_eof (conv_eq_eof_iff.mpr h)]

theorem rowTexts_eq (s : List Byte) :
    rowTexts s = (lineItems (line s)).toList ++ (more s).filterMap lineItems := by
  rw [rowTexts, lines_eq, List.filterMap_cons]
  cases lineItems (line s) <;> rfl

theorem wellFormed_iff_matches : WellFormed s ↔ ∀ l ∈ lines s, Blank l ∨ ∃ x y, Matches l x y := by
  have hsome : ∀ l, (lineItems l).isSome = true ↔ ∃ x y, Matches l x y := by
    intro l
    rw [Option.isSome_iff_exists]
    simp only [Prod.exists, lineItems_eq_some_iff_matches]
  simp only [WellFormed, hsome]

theorem wellFormed_iff (s : List Byte) : WellFormed s ↔
    (Blank (line s) ∨ (lineItems (line s)).isSome = true) ∧
      ∀ l ∈ more s, Blank l ∨ (lineItems l).isSome = true := by
  rw [WellFormed, lines_eq, List.forall_mem_cons]

/-- White space in front of a line does not matter. -/
theorem lineItems_cons {b : Byte} (hb : isSpace b = true) (l : List Byte) :
    lineItems (b :: l) = lineItems l ∧ (Blank (b :: l) ↔ Blank l) := by
  have hskip : (b :: l).dropWhile isSpace = l.dropWhile isSpace := by
    rw [List.dropWhile_cons, if_pos hb]
  have hconv : conv (b :: l) = conv l := by rw [conv, conv, hskip]
  refine ⟨?_, by rw [Blank, Blank, hskip]⟩
  rw [lineItems, lineItems, format, scanf, scanf, hconv]

/-- Nor does white space in front of a text, with the lines it ends. -/
theorem skip_rows (s : List Byte) :
    rowTexts (s.dropWhile isSpace) = rowTexts s ∧ (WellFormed (s.dropWhile isSpace) ↔ WellFormed s) := by
  induction s with
  | nil => exact ⟨rfl, Iff.rfl⟩
  | cons b rest ih =>
    by_cases hb : isSpace b = true
    · rw [List.dropWhile_cons, if_pos hb, ih.1, ih.2]
      by_cases hnew : b = newline
      · subst hnew
        have hblank : Blank [] := rfl
        rw [rowTexts_eq (newline :: rest), wellFormed_iff (newline :: rest), line_newline, more_newline,
          lineItems_eq_none_of_blank hblank]
        exact ⟨rfl, ⟨fun h => ⟨.inl hblank, h⟩, And.right⟩⟩
      · obtain ⟨hitems, hblank⟩ := lineItems_cons hb (line rest)
        rw [rowTexts_eq rest, rowTexts_eq (b :: rest), wellFormed_iff rest, wellFormed_iff (b :: rest),
          line_cons hnew, more_cons hnew, hitems, hblank]
        exact ⟨rfl, Iff.rfl⟩
    · rw [List.dropWhile_cons, if_neg hb]
      exact ⟨rfl, Iff.rfl⟩

/-- A text that no `%d` gets past. -/
def Stuck (s : List Byte) : Prop :=
  ∃ b rest, s = b :: rest ∧ isSpace b = false ∧ isSign b = false ∧ isDigit b = false

theorem Stuck.scan (h : Stuck s) : scanf format s [] = (some [], s) := by
  obtain ⟨b, rest, rfl, hspace, hsign, hdigit⟩ := h
  have hskip : (b :: rest).dropWhile isSpace = b :: rest := by
    rw [List.dropWhile_cons, hspace]
    rfl
  have hitem : intItem (b :: rest) = ([], b :: rest) := by
    rw [intItem_cons, hsign, List.takeWhile_cons, List.dropWhile_cons, hdigit]
    rfl
  refine scan_fail ?_
  rw [conv_of_dropWhile hskip, hitem]
  rfl

theorem stuck_comma (s : List Byte) : Stuck (comma :: s) :=
  ⟨comma, s, rfl, by decide, by decide, by decide⟩

theorem not_wellFormed (hline : ¬ Blank (line s)) (hitems : lineItems (line s) = none) : ¬ WellFormed s := by
  intro hwf
  rcases ((wellFormed_iff s).mp hwf).1 with hblank | hsome
  · exact hline hblank
  · rw [hitems] at hsome
    cases hsome

theorem wellFormed_nil : WellFormed [] := by
  intro l hl
  obtain rfl := List.mem_singleton.mp hl
  exact .inl rfl

theorem rowTexts_of_none (h : lineItems (line s) = none) : rowTexts s = (more s).filterMap lineItems := by
  rw [rowTexts_eq, h]
  rfl

/-- What is left of a line that does not match is in front of the same lines. -/
theorem rowTexts_le (h : lineItems (line s) = none) (hmore : more t = more s) :
    (rowTexts s).length ≤ (rowTexts t).length := by
  rw [rowTexts_of_none h, rowTexts_eq t, hmore, List.length_append]
  exact Nat.le_add_left _ _

theorem lineItems_of_fail {r : List Byte} (h : conv l = .fail r) : lineItems l = none := by
  rw [lineItems, scan_fail h]

theorem lineItems_of_short {r : List Byte} (h : conv l = .item x r) (hr : ∀ b ∈ r.head?, b ≠ comma) :
    lineItems l = none := by
  rw [lineItems, scan_short h hr]

theorem line_comma (r : List Byte) : line (comma :: r) = comma :: line r := line_cons (by decide) r

theorem more_comma (r : List Byte) : more (comma :: r) = more r := more_cons (by decide) r

/-- A comma at the start of the line is one at the start of the text. -/
theorem head?_line {r : List Byte} (hr : ∀ b ∈ r.head?, b ≠ comma) : ∀ b ∈ (line r).head?, b ≠ comma := by
  cases r with
  | nil => exact hr
  | cons b r =>
    by_cases hb : b = newline
    · subst hb
      rw [line_newline]
      exact fun b hb => absurd hb (by simp)
    · rw [line_cons hb]
      exact hr

/-- Behind white space there is nothing, or a line that is not blank. -/
theorem skip_cases (s : List Byte) : Blank s ∨ ¬ Blank (line (s.dropWhile isSpace)) := by
  cases hs : s.dropWhile isSpace with
  | nil => exact .inl hs
  | cons b rest =>
    have hspace : isSpace b = false := head?_dropWhile isSpace s b (by rw [hs]; rfl)
    have hb : b ≠ newline := by
      intro hnew
      rw [hnew, isSpace_newline] at hspace
      cases hspace
    refine .inr fun hblank => ?_
    rw [line_cons hb, Blank, List.dropWhile_cons, hspace] at hblank
    cases hblank

theorem conv_skip (s : List Byte) : conv (s.dropWhile isSpace) = conv s := by
  rw [conv, conv, List.dropWhile_idempotent]

/-- What a call that leaves a line does: a row and the rows behind it, or the text was not
well formed. It then has passed no row, or stands in front of a comma. -/
def Advances (s : List Byte) (items : List (List Byte)) (rest : List Byte) : Prop :=
  (∃ x y, items = [x, y] ∧ rowTexts s = (x, y) :: rowTexts rest ∧ (WellFormed s ↔ WellFormed rest)) ∨
    ¬ WellFormed s ∧ ((rowTexts s).length ≤ (rowTexts rest).length ∨ Stuck rest)

/-- The second integer, looked for on whatever line it is. -/
theorem scan_next_line {r : List Byte} (hs : conv s = .item x (comma :: r)) :
    ∃ items rest, scanf format s [] = (some items, rest) ∧
      ((rowTexts r).length ≤ (rowTexts rest).length ∨ Stuck rest) := by
  have hskip := (skip_rows r).1
  rcases skip_cases r with heof | hline
  · refine ⟨[x], [], scan_comma_eof hs (conv_eq_eof_iff.mpr heof), .inl ?_⟩
    rw [← hskip, heof]
  · have hr := conv_skip r
    rcases conv_line hline with ⟨r', hfail, hlfail, hmore⟩ | ⟨y, r', hitem, hlitem, hmore⟩
    · rw [hr] at hfail
      refine ⟨[x], r', scan_comma_fail hs hfail, .inl ?_⟩
      rw [← hskip]
      exact rowTexts_le (lineItems_of_fail hlfail) hmore
    · rw [hr] at hitem
      refine ⟨[x, y], r'.dropWhile isSpace, scan_row hs hitem, ?_⟩
      rcases comma_cases r' with ⟨r'', rfl⟩ | hhead
      · exact .inr (stuck_comma r'')
      · refine .inl ?_
        rw [← hskip, (skip_rows r').1]
        exact rowTexts_le (lineItems_of_short hlitem (head?_line hhead)) hmore

/-- One call on a line that is not blank. -/
theorem scan_next_of_line (hline : ¬ Blank (line s)) :
    ∃ items rest, scanf format s [] = (some items, rest) ∧ Advances s items rest := by
  rcases conv_line hline with ⟨r, hfail, hlfail, hmore⟩ | ⟨x, r, hitem, hlitem, hmore⟩
  · have hnone := lineItems_of_fail hlfail
    exact ⟨[], r, scan_fail hfail, .inr ⟨not_wellFormed hline hnone, .inl (rowTexts_le hnone hmore)⟩⟩
  rcases comma_cases r with ⟨r, rfl⟩ | hhead
  swap
  · have hnone := lineItems_of_short hlitem (head?_line hhead)
    exact ⟨[x], r, scan_short hitem hhead, .inr ⟨not_wellFormed hline hnone, .inl (rowTexts_le hnone hmore)⟩⟩
  rw [line_comma] at hlitem
  rw [more_comma] at hmore
  by_cases hblank : Blank (line r)
  · have hnone : lineItems (line s) = none := by
      rw [lineItems, scan_comma_eof hlitem (conv_eq_eof_iff.mpr hblank)]
    obtain ⟨items, rest, hscan, hrest⟩ := scan_next_line hitem
    refine ⟨items, rest, hscan, .inr ⟨not_wellFormed hline hnone, ?_⟩⟩
    rwa [rowTexts_of_none hnone, ← hmore, ← rowTexts_of_none (lineItems_eq_none_of_blank hblank)]
  rcases conv_line hblank with ⟨r', hfail, hlfail, hmore'⟩ | ⟨y, r', hitem', hlitem', hmore'⟩
  · have hnone : lineItems (line s) = none := by
      rw [lineItems, scan_comma_fail hlitem hlfail]
    exact ⟨[x], r', scan_comma_fail hitem hfail,
      .inr ⟨not_wellFormed hline hnone, .inl (rowTexts_le hnone (hmore'.trans hmore))⟩⟩
  · refine ⟨[x, y], r'.dropWhile isSpace, scan_row hitem hitem', ?_⟩
    obtain ⟨hrows, hwf⟩ := skip_rows r'
    by_cases hend : Blank (line r')
    · have hsome : lineItems (line s) = some (x, y) :=
        lineItems_eq_some_iff.mpr ⟨_, _, hlitem, hlitem', hend⟩
      refine .inl ⟨x, y, rfl, ?_, ?_⟩
      · rw [hrows, rowTexts_of_none (lineItems_eq_none_of_blank hend), rowTexts_eq s, hsome, hmore', hmore]
        rfl
      · rw [hwf, wellFormed_iff s, wellFormed_iff r', hsome, hmore', hmore]
        exact ⟨fun h => ⟨.inl hend, h.2⟩, fun h => ⟨.inr rfl, h.2⟩⟩
    · have hnone : lineItems (line s) = none := by
        by_contra hne
        obtain ⟨⟨x', y'⟩, hsome⟩ := Option.ne_none_iff_exists'.mp hne
        obtain ⟨r₁, r₂, h₁, h₂, hend'⟩ := lineItems_eq_some_iff.mp hsome
        rw [hlitem] at h₁
        cases h₁
        rw [hlitem'] at h₂
        cases h₂
        exact hend hend'
      refine .inr ⟨not_wellFormed hline hnone, .inl ?_⟩
      rw [hrows]
      exact rowTexts_le hnone (hmore'.trans hmore)

theorem scan_skip (s : List Byte) : scanf format (s.dropWhile isSpace) [] = scanf format s [] := by
  rw [format, scanf, scanf, conv_skip]

/-- **One call**: the end of the file when only white space is left, and what `Advances`
says otherwise. -/
theorem scan_next (s : List Byte) : Blank s ∧ scanf format s [] = (none, []) ∨
    ∃ items rest, scanf format s [] = (some items, rest) ∧ Advances s items rest := by
  rcases skip_cases s with hblank | hline
  · exact .inl ⟨hblank, scan_eof (conv_eq_eof_iff.mpr hblank)⟩
  · obtain ⟨items, rest, hscan, hadvances⟩ := scan_next_of_line hline
    obtain ⟨hrows, hwf⟩ := skip_rows s
    rw [scan_skip] at hscan
    refine .inr ⟨items, rest, hscan, ?_⟩
    rwa [Advances, hrows, hwf] at hadvances

/-- A well formed text is rows and then the end. -/
theorem scan_wellFormed (h : WellFormed s) :
    rowTexts s = [] ∧ scanf format s [] = (none, []) ∨
      ∃ x y rest, scanf format s [] = (some [x, y], rest) ∧ rowTexts s = (x, y) :: rowTexts rest ∧
        WellFormed rest := by
  rcases scan_next s with ⟨hblank, heof⟩ | ⟨items, rest, hscan, ⟨x, y, rfl, hrows, hwf⟩ | ⟨hnot, _⟩⟩
  · refine .inl ⟨?_, heof⟩
    rw [← (skip_rows s).1, hblank]
    rfl
  · exact .inr ⟨x, y, rest, hscan, hrows, hwf.mp h⟩
  · exact absurd h hnot

end Lines

/-! ### Runs -/

section Runs
variable {toInt : List Byte → BitVec 32} {size : Nat} {s s' : Loading}

/-- The loop ends without a write outside the arrays, has stored the rows of the file, in
order and no others, and the arrays hold them. -/
def Loads (toInt : List Byte → BitVec 32) (size : Nat) (flowId key : BitVec 32) (file : List Byte) : Prop :=
  ∃ turns s, loop toInt turns (start size flowId key file) = .ended s ∧
    s.loaded = fileRows toInt file ∧
    (List.range s.entryCount).map s.row = (fileRows toInt file).map some

section Assign
variable (items : List (List Byte)) (rest : List Byte)

@[simp] theorem assign_stream : (s.assign toInt items rest).stream = rest := rfl
@[simp] theorem assign_loaded : (s.assign toInt items rest).loaded = s.loaded := rfl
@[simp] theorem assign_i : (s.assign toInt items rest).i = s.i := rfl
@[simp] theorem assign_rowIdArr : (s.assign toInt items rest).rowIdArr = s.rowIdArr := rfl
@[simp] theorem assign_flowIdArr : (s.assign toInt items rest).flowIdArr = s.flowIdArr := rfl
@[simp] theorem assign_keyArr : (s.assign toInt items rest).keyArr = s.keyArr := rfl

end Assign

theorem scanRow_of_scan {items : List (List Byte)} {rest : List Byte}
    (h : scanf format s.stream [] = (some items, rest)) : scanRow toInt s = some (s.assign toInt items rest) := by
  rw [scanRow, h]

theorem scanRow_of_eof {rest : List Byte} (h : scanf format s.stream [] = (none, rest)) :
    scanRow toInt s = none := by
  rw [scanRow, h]

/-- What every turn does, whatever it has read. -/
theorem storeRow_eq (h : storeRow s = some s') : s'.stream = s.stream ∧
    s'.loaded.length = s.loaded.length + 1 ∧ s'.rowIdArr.length = s.rowIdArr.length := by
  obtain ⟨rowIdArr, hrowId, h⟩ := Option.bind_eq_some_iff.mp h
  obtain ⟨flowIdArr, _, h⟩ := Option.bind_eq_some_iff.mp h
  obtain ⟨keyArr, _, h⟩ := Option.bind_eq_some_iff.mp h
  obtain rfl := Option.some.inj h
  refine ⟨rfl, List.length_append, ?_⟩
  unfold Buffer.write at hrowId
  split at hrowId
  · obtain rfl := Option.some.inj hrowId
    exact List.length_set
  · cases hrowId

/-- The loop takes a turn. -/
theorem loop_succ_ended {turns : Nat} {t : Loading} (h : loop toInt (turns + 1) s = .ended t) :
    scanRow toInt s = none ∧ t = s ∨
      ∃ s₁ s₂, scanRow toInt s = some s₁ ∧ storeRow s₁ = some s₂ ∧ loop toInt turns s₂ = .ended t := by
  rw [loop] at h
  cases hscan : scanRow toInt s with
  | none =>
    rw [hscan] at h
    cases h
    exact .inl ⟨rfl, rfl⟩
  | some s₁ =>
    rw [hscan] at h
    cases hstore : storeRow s₁ with
    | none =>
      simp only [hstore] at h
      cases h
    | some s₂ =>
      simp only [hstore] at h
      exact .inr ⟨s₁, s₂, rfl, hstore, h⟩

/-- The loop does not end in front of what no `%d` reads. -/
theorem Stuck.not_ended (h : Stuck s.stream) (turns : Nat) (t : Loading) : loop toInt turns s ≠ .ended t := by
  induction turns generalizing s with
  | zero => exact nofun
  | succ turns ih =>
    intro hrun
    rcases loop_succ_ended hrun with ⟨heof, _⟩ | ⟨s₁, s₂, hscan, hstore, hrest⟩
    · rw [scanRow_of_scan h.scan] at heof
      cases heof
    · rw [scanRow_of_scan h.scan] at hscan
      obtain rfl := Option.some.inj hscan
      obtain ⟨hstream, _, _⟩ := storeRow_eq hstore
      refine ih ?_ hrest
      rw [hstream]
      exact h

/-- A loop that ends has stored as many rows as there are to load, and just as many only
from a well formed text. -/
theorem loop_ended {turns : Nat} {t : Loading} (h : loop toInt turns s = .ended t) :
    t.rowIdArr.length = s.rowIdArr.length ∧
      s.loaded.length + (rowTexts s.stream).length ≤ t.loaded.length ∧
      (t.loaded.length = s.loaded.length + (rowTexts s.stream).length → WellFormed s.stream) := by
  induction turns generalizing s with
  | zero => cases h
  | succ turns ih =>
    rcases loop_succ_ended h with ⟨heof, rfl⟩ | ⟨s₁, s₂, hscan, hstore, hrest⟩
    · rcases scan_next t.stream with ⟨hblank, _⟩ | ⟨items, rest, hscan, _⟩
      · obtain ⟨hrows, hwf⟩ := skip_rows t.stream
        rw [hblank] at hrows hwf
        rw [← hrows]
        exact ⟨rfl, Nat.le_refl _, fun _ => hwf.mp wellFormed_nil⟩
      · rw [scanRow_of_scan hscan] at heof
        cases heof
    · obtain ⟨hstream, hcount, hlen⟩ := storeRow_eq hstore
      obtain ⟨hlen', hle, hwf⟩ := ih hrest
      rcases scan_next s.stream with ⟨_, heof⟩ | ⟨items, rest, hnext, hadvances⟩
      · rw [scanRow_of_eof heof] at hscan
        cases hscan
      · rw [scanRow_of_scan hnext] at hscan
        obtain rfl := Option.some.inj hscan
        rw [assign_stream] at hstream
        rw [assign_loaded] at hcount
        rw [hstream, hcount] at hle hwf
        refine ⟨hlen'.trans hlen, ?_⟩
        rcases hadvances with ⟨x, y, _, hrows, hiff⟩ | ⟨hnot, hrows | hstuck⟩
        · rw [hrows, List.length_cons, hiff]
          exact ⟨by omega, fun heq => hwf (by omega)⟩
        · exact ⟨by omega, fun heq => absurd heq (by omega)⟩
        · rw [← hstream] at hstuck
          exact absurd hrest (hstuck.not_ended turns t)

/-- Rows with the numbers from `n` on. -/
def numbered (toInt : List Byte → BitVec 32) (n : Nat) (texts : List (List Byte × List Byte)) :
    List LoadedRow :=
  texts.mapIdx fun k items => ⟨BitVec.ofNat 32 (n + k), (toInt items.1).setWidth 16, toInt items.2⟩

theorem numbered_cons (n : Nat) (items : List Byte × List Byte) (texts : List (List Byte × List Byte)) :
    numbered toInt n (items :: texts) =
      ⟨BitVec.ofNat 32 n, (toInt items.1).setWidth 16, toInt items.2⟩ :: numbered toInt (n + 1) texts := by
  rw [numbered, List.mapIdx_cons, numbered, Nat.add_zero]
  simp only [Nat.add_comm, Nat.add_left_comm]

theorem numbered_zero (file : List Byte) : numbered toInt 0 (rowTexts file) = fileRows toInt file := by
  simp only [numbered, fileRows, Nat.zero_add]

/-- The arrays hold the rows stored so far, one index a row. -/
structure Holding (size : Nat) (s : Loading) : Prop where
  count : s.i.toNat = s.loaded.length
  rowIds : s.rowIdArr.Holds (s.loaded.map LoadedRow.rowId)
  flowIds : s.flowIdArr.Holds (s.loaded.map LoadedRow.flowId)
  keys : s.keyArr.Holds (s.loaded.map LoadedRow.key)
  rowIdRoom : s.rowIdArr.length = size
  flowIdRoom : s.flowIdArr.length = size
  keyRoom : s.keyArr.length = size

theorem holding_start (size : Nat) (flowId key : BitVec 32) (file : List Byte) :
    Holding size (start size flowId key file) where
  count := rfl
  rowIds := Buffer.holds_nil _
  flowIds := Buffer.holds_nil _
  keys := Buffer.holds_nil _
  rowIdRoom := List.length_replicate
  flowIdRoom := List.length_replicate
  keyRoom := List.length_replicate

theorem Holding.assign (h : Holding size s) (toInt : List Byte → BitVec 32) (items : List (List Byte)) (rest : List Byte) :
    Holding size (s.assign toInt items rest) :=
  ⟨h.count, h.rowIds, h.flowIds, h.keys, h.rowIdRoom, h.flowIdRoom, h.keyRoom⟩

theorem storeRow_spec (h : Holding size s) (hroom : s.loaded.length < size)
    (hcount : s.loaded.length + 1 < 2 ^ 32) :
    ∃ s', storeRow s = some s' ∧ Holding size s' ∧ s'.stream = s.stream ∧
      s'.loaded = s.loaded ++ [⟨BitVec.ofNat 32 s.loaded.length, s.flowId.setWidth 16, s.key⟩] := by
  have hi : s.i = BitVec.ofNat 32 s.loaded.length := by
    rw [← h.count, BitVec.ofNat_toNat, BitVec.setWidth_eq]
  have hnext : (s.i + 1).toNat = s.loaded.length + 1 := by
    rw [BitVec.toNat_add, h.count]
    exact Nat.mod_eq_of_lt hcount
  obtain ⟨rowIds, hw₁, hh₁, hl₁⟩ :=
    h.rowIds.push_map (by rw [h.rowIdRoom]; exact hroom) ⟨s.i, s.flowId.setWidth 16, s.key⟩
  obtain ⟨flowIds, hw₂, hh₂, hl₂⟩ :=
    h.flowIds.push_map (by rw [h.flowIdRoom]; exact hroom) ⟨s.i, s.flowId.setWidth 16, s.key⟩
  obtain ⟨keys, hw₃, hh₃, hl₃⟩ :=
    h.keys.push_map (by rw [h.keyRoom]; exact hroom) ⟨s.i, s.flowId.setWidth 16, s.key⟩
  rw [← h.count] at hw₁ hw₂ hw₃
  refine ⟨{s with
    rowIdArr := rowIds
    flowIdArr := flowIds
    keyArr := keys
    i := s.i + 1
    loaded := s.loaded ++ [⟨s.i, s.flowId.setWidth 16, s.key⟩]}, ?_, ?_, rfl, by rw [← hi]⟩
  · simp only [storeRow, hw₁, hw₂, hw₃, Option.bind_eq_bind, Option.bind_some]
  · exact {
      count := by rw [hnext, List.length_append, List.length_singleton]
      rowIds := hh₁
      flowIds := hh₂
      keys := hh₃
      rowIdRoom := hl₁.trans h.rowIdRoom
      flowIdRoom := hl₂.trans h.flowIdRoom
      keyRoom := hl₃.trans h.keyRoom }

/-- A well formed text is loaded, if there is room. -/
theorem loop_wellFormed (toInt : List Byte → BitVec 32) (h : Holding size s) (hwf : WellFormed s.stream)
    (hroom : s.loaded.length + (rowTexts s.stream).length ≤ size)
    (hcount : s.loaded.length + (rowTexts s.stream).length < 2 ^ 32) :
    ∃ turns t, loop toInt turns s = .ended t ∧ Holding size t ∧
      t.loaded = s.loaded ++ numbered toInt s.loaded.length (rowTexts s.stream) := by
  generalize htexts : rowTexts s.stream = texts at hroom hcount ⊢
  induction texts generalizing s with
  | nil =>
    rcases scan_wellFormed hwf with ⟨_, heof⟩ | ⟨x, y, rest, _, hrows, _⟩
    · refine ⟨1, s, ?_, h, (List.append_nil _).symm⟩
      rw [loop, scanRow_of_eof heof]
    · rw [htexts] at hrows
      cases hrows
  | cons items texts ih =>
    rcases scan_wellFormed hwf with ⟨hnil, _⟩ | ⟨x, y, rest, hscan, hrows, hwf'⟩
    · rw [htexts] at hnil
      cases hnil
    · rw [htexts] at hrows
      obtain ⟨rfl, htexts'⟩ := List.cons.inj hrows
      rw [List.length_cons] at hroom hcount
      obtain ⟨s', hstore, h', hstream, hloaded⟩ :=
        storeRow_spec (h.assign toInt [x, y] rest) (by rw [assign_loaded]; omega)
          (by rw [assign_loaded]; omega)
      rw [assign_stream] at hstream
      rw [assign_loaded] at hloaded
      have hlen : s'.loaded.length = s.loaded.length + 1 := by
        rw [hloaded, List.length_append, List.length_singleton]
      obtain ⟨turns, t, hrun, ht, hall⟩ := ih h' (by rw [hstream]; exact hwf') (by rw [hstream, htexts'])
        (by rw [hlen]; omega) (by rw [hlen]; omega)
      refine ⟨turns + 1, t, ?_, ht, ?_⟩
      · rw [loop, scanRow_of_scan hscan]
        simp only [hstore, hrun]
      · rw [hall, hlen, numbered_cons, hloaded, List.append_assoc]
        rfl

/-- What the arrays hold. -/
theorem Holding.rows_eq (h : Holding size s) : (List.range s.entryCount).map s.row = s.loaded.map some := by
  refine List.ext_getElem (by simp [Loading.entryCount, h.count]) fun k hk _ => ?_
  rw [List.length_map, List.length_range, Loading.entryCount, h.count] at hk
  rw [List.getElem_map, List.getElem_range, List.getElem_map, Loading.row, h.rowIds.read_map hk,
    h.flowIds.read_map hk, h.keys.read_map hk]
  rfl

/-- What a file that is loaded looks like. -/
theorem Loads.wellFormed {flowId key : BitVec 32} {file : List Byte} (h : Loads toInt size flowId key file) :
    WellFormed file ∧ (rowTexts file).length ≤ size ∧ (rowTexts file).length < 2 ^ 32 := by
  obtain ⟨turns, s, hrun, hloaded, hrows⟩ := h
  obtain ⟨hlen, _, hwf⟩ := loop_ended hrun
  have hcount : (fileRows toInt file).length = (rowTexts file).length := List.length_mapIdx
  have hentries := congrArg List.length hrows
  rw [List.length_map, List.length_map, List.length_range, hcount] at hentries
  refine ⟨hwf (by rw [hloaded, hcount]; exact (Nat.zero_add _).symm), ?_, ?_⟩
  · by_contra hover
    rw [Nat.not_le, ← hentries] at hover
    -- the row behind the arrays is none
    have hrow := congrArg (fun l => l[size]?) hrows
    rw [List.getElem?_map, List.getElem?_range hover, List.getElem?_map] at hrow
    have hread : s.rowIdArr.read size = none := by
      rw [Buffer.read, List.getElem?_eq_none]
      · rfl
      · rw [hlen]
        exact Nat.le_of_eq List.length_replicate
    rw [Option.map_some, Loading.row, hread] at hrow
    cases hfile : (fileRows toInt file)[size]? with
    | none =>
      rw [hfile] at hrow
      cases hrow
    | some row =>
      rw [hfile] at hrow
      cases hrow
  · rw [← hentries]
    exact s.i.isLt

/-- **The dataset that is loaded**: whatever the size, the conversion and what `flow_id` and
`key` held before, the rows of the file are loaded exactly when every line of it matches or
is blank and there are no more rows than fit the arrays and the counter. -/
theorem loads_iff (toInt : List Byte → BitVec 32) (size : Nat) (flowId key : BitVec 32) (file : List Byte) :
    Loads toInt size flowId key file ↔
      WellFormed file ∧ (rowTexts file).length ≤ size ∧ (rowTexts file).length < 2 ^ 32 := by
  constructor
  · exact Loads.wellFormed
  · intro h
    obtain ⟨hwf, hroom, hcount⟩ := h
    obtain ⟨turns, t, hrun, ht, hloaded⟩ :=
      loop_wellFormed toInt (holding_start size flowId key file) hwf
        (by rw [show (start size flowId key file).loaded.length = 0 from rfl, Nat.zero_add]; exact hroom)
        (by rw [show (start size flowId key file).loaded.length = 0 from rfl, Nat.zero_add]; exact hcount)
    have hall : t.loaded = fileRows toInt file := by
      rw [hloaded, ← numbered_zero]
      rfl
    exact ⟨turns, t, hrun, hall, by rw [ht.rows_eq, hall]⟩

end Runs

/-! ### Files -/

/-- The `int` of a number that fits one. -/
def toInt32 (text : List Byte) : BitVec 32 := BitVec.ofInt 32 (decimal text)

/-- "7,-1" and "8,2". -/
def twoRows : List Byte := [0x37, 0x2c, 0x2d, 0x31, 0x0a, 0x38, 0x2c, 0x32, 0x0a]

example : fileRows toInt32 twoRows = [⟨0, 7, 0xffffffff⟩, ⟨1, 8, 2⟩] := by decide

/-- "k,v" and "7,1": a dataset with a header. -/
def headed : List Byte := [0x6b, 0x2c, 0x76, 0x0a, 0x37, 0x2c, 0x31, 0x0a]

/-- A header is never read past: the loop writes rows until it leaves the arrays. And so do
two rows for arrays of one. -/
theorem writes_out_of_bounds :
    loop toInt32 5 (start 4 0 0 headed) = .outOfBounds ∧ ¬ Loads toInt32 4 0 0 headed ∧
      loop toInt32 2 (start 1 0 0 twoRows) = .outOfBounds ∧ ¬ Loads toInt32 1 0 0 twoRows := by
  refine ⟨rfl, ?_, rfl, ?_⟩
  · intro h
    have hline := ((wellFormed_iff headed).mp h.wellFormed.1).1
    exact absurd hline (by decide)
  · intro h
    exact absurd h.wellFormed.2.1 (by decide)

end Cheetah.Host.DatasetLoad
