import Cheetah.DataPlane.DistinctCache
import Cheetah.Lib.Splits

/-! What the marks of `cheetah_distinct.p4` stand for.

A stage hands its value on with the top bit set in each half that is the packet's, and the
next stage stores it so. A half with the top bit is then one that had it from the start, or
one that a packet which moved the value on has as well. `Moved` is a value with those that
moved it on; `entered` tells, from the values that came to a slot, which ones got to each
stage. A stage holds the last of them (`held_last`), and a packet is dropped when it and the
values that moved it on have both its halves (`drops_iff_matches`). -/
namespace Cheetah.DataPlane.Distinct
open Lib

/-! ### Values that move on -/

/-- A value of a slot, the values that moved it on to the stage it is at, and the value that
came when it got there. -/
structure Moved where
  value : Word × Word
  past : List (Word × Word)
  latest : Word × Word
  deriving DecidableEq, Repr

/-- What every stage holds at the start. -/
def Moved.nothing : Moved := ⟨(0, 0), [], (0, 0)⟩

/-- Moved on by `v`. -/
def Moved.on (m : Moved) (v : Word × Word) : Moved := ⟨m.value, v :: m.past, v⟩

/-- A half has the top bit, or is one of `halves`. -/
def HalfMatches (half : Word) (halves : List Word) : Prop :=
  half &&& 0x80000000 = 0x80000000 ∨ half ∈ halves

/-- Each half of the value has the top bit, or is a half of `v` or of a value that moved it on. -/
def Moved.Matches (m : Moved) (v : Word × Word) : Prop :=
  HalfMatches m.value.1 ((v :: m.past).map Prod.fst) ∧ HalfMatches m.value.2 ((v :: m.past).map Prod.snd)

instance (half : Word) (halves : List Word) : Decidable (HalfMatches half halves) :=
  inferInstanceAs (Decidable (_ ∨ _))

instance (m : Moved) (v : Word × Word) : Decidable (m.Matches v) := inferInstanceAs (Decidable (_ ∧ _))

/-- Of the values that got to a stage in turn, those that moved on from it: when the next one
gets there, with a value that does not match. -/
def movedOn (l : List Moved) : List Moved :=
  (withPrevious .nothing l).filterMap fun m =>
    if m.1.Matches m.2.latest then none else some (m.1.on m.2.latest)

/-- Of the values that got to a stage in turn, those that made the one before move on. -/
def moving (l : List Moved) : List Moved :=
  (withPrevious .nothing l).filterMap fun m => if m.1.Matches m.2.latest then none else some m.2

def arrived (vs : List (Word × Word)) : List Moved := vs.map fun v => ⟨v, [], v⟩

/-- The values that got to a stage when `vs` came to a slot. The last stage takes what the
third one takes, not what moves on from it. -/
def entered (vs : List (Word × Word)) : Stage → List Moved
  | .one => arrived vs
  | .two => movedOn (arrived vs)
  | .three => movedOn (movedOn (arrived vs))
  | .four => moving (movedOn (movedOn (arrived vs)))

/-- The last value that got to a stage. -/
def lastEntered (vs : List (Word × Word)) (s : Stage) : Moved := (entered vs s).getLastD .nothing

theorem movedOn_concat (l : List Moved) (m : Moved) :
    movedOn (l ++ [m]) = movedOn l ++
      if (l.getLastD .nothing).Matches m.latest then [] else [(l.getLastD .nothing).on m.latest] := by
  rw [movedOn, filterMap_withPrevious_concat, ← movedOn]
  split <;> rfl

theorem moving_concat (l : List Moved) (m : Moved) :
    moving (l ++ [m]) = moving l ++ if (l.getLastD .nothing).Matches m.latest then [] else [m] := by
  rw [moving, filterMap_withPrevious_concat, ← moving]
  split <;> rfl

section Last
variable (vs : List (Word × Word)) (v : Word × Word)

theorem arrived_concat : arrived (vs ++ [v]) = arrived vs ++ [⟨v, [], v⟩] := by
  rw [arrived, List.map_append]
  rfl

theorem entered_two_concat : entered (vs ++ [v]) .two = entered vs .two ++
    if (lastEntered vs .one).Matches v then [] else [(lastEntered vs .one).on v] := by
  rw [entered, arrived_concat, movedOn_concat]
  rfl

theorem entered_three_concat : entered (vs ++ [v]) .three = entered vs .three ++
    if (lastEntered vs .one).Matches v ∨ (lastEntered vs .two).Matches v then []
    else [(lastEntered vs .two).on v] := by
  have htwo : entered (vs ++ [v]) .three = movedOn (entered (vs ++ [v]) .two) := rfl
  rw [htwo, entered_two_concat]
  by_cases hone : (lastEntered vs .one).Matches v
  · rw [if_pos hone, if_pos (.inl hone), List.append_nil, List.append_nil]
    rfl
  · rw [if_neg hone, movedOn_concat]
    simp only [hone, false_or]
    rfl

theorem entered_four_concat : entered (vs ++ [v]) .four = entered vs .four ++
    if (lastEntered vs .one).Matches v ∨ (lastEntered vs .two).Matches v ∨ (lastEntered vs .three).Matches v
    then [] else [(lastEntered vs .two).on v] := by
  have hthree : entered (vs ++ [v]) .four = moving (entered (vs ++ [v]) .three) := rfl
  rw [hthree, entered_three_concat]
  by_cases hstop : (lastEntered vs .one).Matches v ∨ (lastEntered vs .two).Matches v
  · rw [if_pos hstop, if_pos (or_assoc.mp (.inl hstop)), List.append_nil, List.append_nil]
    rfl
  · rw [if_neg hstop, moving_concat]
    simp only [← or_assoc, hstop, false_or]
    rfl

theorem getLastD_append_ite {α : Type*} (l : List α) (d x : α) (c : Prop) [Decidable c] :
    (l ++ if c then [] else [x]).getLastD d = if c then l.getLastD d else x := by
  split
  · rw [List.append_nil]
  · rw [List.getLastD_concat]

/-- **One more value** of the slot, and what it makes of the last values at the stages. -/
theorem lastEntered_concat (s : Stage) : lastEntered (vs ++ [v]) s =
    match s with
    | .one => ⟨v, [], v⟩
    | .two => if (lastEntered vs .one).Matches v then lastEntered vs .two else (lastEntered vs .one).on v
    | .three =>
      if (lastEntered vs .one).Matches v ∨ (lastEntered vs .two).Matches v then lastEntered vs .three
      else (lastEntered vs .two).on v
    | .four =>
      if (lastEntered vs .one).Matches v ∨ (lastEntered vs .two).Matches v ∨ (lastEntered vs .three).Matches v
      then lastEntered vs .four else (lastEntered vs .two).on v := by
  cases s with
  | one =>
    rw [lastEntered, entered, arrived_concat, List.getLastD_concat]
  | two => rw [lastEntered, entered_two_concat, getLastD_append_ite]; rfl
  | three => rw [lastEntered, entered_three_concat, getLastD_append_ite]; rfl
  | four => rw [lastEntered, entered_four_concat, getLastD_append_ite]; rfl

end Last

/-- The value came to the slot, unless it is what was there at the start, and so did those
that moved it on, none of which is the value itself. -/
structure Moved.From (vs : List (Word × Word)) (m : Moved) : Prop where
  value : m.value = (0, 0) ∨ m.value ∈ vs
  past : ∀ v ∈ m.past, v ∈ vs
  other : m.value ∉ m.past

section From
variable {vs : List (Word × Word)} {m : Moved}

theorem Moved.From.concat (h : m.From vs) (v : Word × Word) : m.From (vs ++ [v]) where
  value := h.value.imp_right (List.mem_append_left _)
  past w hw := List.mem_append_left _ (h.past w hw)
  other := h.other

theorem Moved.matches_value (m : Moved) : m.Matches m.value :=
  ⟨.inr List.mem_cons_self, .inr List.mem_cons_self⟩

/-- What does not match a value may move it on. -/
theorem Moved.From.on (h : m.From vs) {v : Word × Word} (hgo : ¬ m.Matches v) :
    (m.on v).From (vs ++ [v]) where
  value := (h.concat v).value
  past w hw := by
    rcases List.mem_cons.mp hw with rfl | hw
    · simp
    · exact (h.concat v).past w hw
  other hv := by
    rcases List.mem_cons.mp hv with heq | hv
    · exact hgo (heq ▸ m.matches_value)
    · exact h.other hv

/-- The last values at the stages. -/
theorem from_lastEntered (vs : List (Word × Word)) (s : Stage) : (lastEntered vs s).From vs := by
  induction vs using List.reverseRecOn generalizing s with
  | nil => cases s <;> exact ⟨.inl rfl, fun v hv => absurd hv List.not_mem_nil, List.not_mem_nil⟩
  | append_singleton vs v ih =>
    rw [lastEntered_concat]
    cases s with
    | one => exact ⟨.inr (by simp), fun v hv => absurd hv List.not_mem_nil, List.not_mem_nil⟩
    | two =>
      simp only
      split
      · exact (ih .two).concat v
      · rename_i hgo
        exact (ih .one).on hgo
    | three =>
      simp only
      split
      · exact (ih .three).concat v
      · rename_i hgo
        exact (ih .two).on fun hmatch => hgo (.inr hmatch)
    | four =>
      simp only
      split
      · exact (ih .four).concat v
      · rename_i hgo
        exact (ih .two).on fun hmatch => hgo (.inr (.inl hmatch))

end From

/-! ### Marks -/

/-- A half as it is stored: marked, when a value that moved it on has it. -/
def markHalf (half : Word) (halves : List Word) : Word :=
  if half ∈ halves then half ||| 0x80000000 else half

/-- The pair a stage stores for a value. -/
def Moved.stored (m : Moved) : Word × Word :=
  (markHalf m.value.1 (m.past.map Prod.fst), markHalf m.value.2 (m.past.map Prod.snd))

theorem halfSignals_markHalf (half : Word) (halves : List Word) (v : Word) :
    HalfSignals (markHalf half halves) v ↔ HalfMatches half (v :: halves) := by
  unfold HalfSignals HalfMatches markHalf
  rw [List.mem_cons]
  split
  · rename_i hin
    exact iff_of_true (.inr (or_and_top half)) (.inr (.inr hin))
  · rename_i hnot
    rw [eq_comm, or_comm]
    simp [hnot]

theorem handOn_markHalf (half : Word) (halves : List Word) (v : Word) :
    (if v = markHalf half halves then markHalf half halves ||| 0x80000000 else markHalf half halves) =
      markHalf half (v :: halves) := by
  have htwice : (half ||| 0x80000000) ||| 0x80000000 = half ||| 0x80000000 := by
    rw [BitVec.or_assoc, BitVec.or_self]
  have hmem : half ∈ v :: halves ↔ v = half ∨ half ∈ halves := by rw [List.mem_cons, eq_comm]
  unfold markHalf
  by_cases hin : half ∈ halves
  · rw [if_pos hin, if_pos (hmem.mpr (.inr hin)), htwice, ite_self]
  · simp only [hmem, hin, if_false, or_false]

/-- Handing a value on is moving it on. -/
theorem handOn_stored (h : Header) (m : Moved) : handOn h m.stored = (m.on h.pair).stored :=
  Prod.ext (handOn_markHalf _ _ h.valueHi) (handOn_markHalf _ _ h.valueLo)

section Run
variable {ι : Type} [DecidableEq ι] {lruCacheHash : Word → Word → ι} {r : Registers ι} {p : Header}

omit [DecidableEq ι] in
/-- A stage signals for the values that match what it stores. -/
theorem signals_stored {m : Moved} {s : Stage} (h : held r s (slot lruCacheHash p) = m.stored) :
    Signals lruCacheHash (r s) p ↔ m.Matches p.pair := by
  obtain ⟨hhi, hlo⟩ := Prod.mk.inj h
  rw [Signals, hhi, hlo, halfSignals_markHalf, halfSignals_markHalf, and_comm]
  rfl

/-- Every stage holds, at every slot, the last value that got to it. -/
def HoldsLast (lruCacheHash : Word → Word → ι) (ps : List Header) (r : Registers ι) : Prop :=
  ∀ s i, held r s i = (lastEntered (slotPairs lruCacheHash ps i) s).stored

variable {ps : List Header}

/-- What the stages take is what gets to them. -/
theorem HoldsLast.shifted (h : HoldsLast lruCacheHash ps r) (s : Stage) :
    shifted lruCacheHash r p s =
      (lastEntered (slotPairs lruCacheHash ps (slot lruCacheHash p) ++ [p.pair]) s).stored := by
  have hsignals : ∀ s, Signals lruCacheHash (r s) p ↔
      (lastEntered (slotPairs lruCacheHash ps (slot lruCacheHash p)) s).Matches p.pair :=
    fun s => signals_stored (h s _)
  rw [lastEntered_concat]
  cases s with
  | one => rfl
  | two =>
    simp only [Distinct.shifted, hsignals]
    split
    · exact h .two _
    · rw [h .one, handOn_stored]
  | three =>
    simp only [Distinct.shifted, hsignals]
    split
    · exact h .three _
    · rw [h .two, handOn_stored]
  | four =>
    simp only [Distinct.shifted, hsignals]
    split
    · exact h .four _
    · rw [h .two, handOn_stored]

/-- **One packet** moves the values of its slot on. -/
theorem HoldsLast.step (h : HoldsLast lruCacheHash ps r) (hflow : p.flowId = 1) :
    HoldsLast lruCacheHash (ps ++ [p]) ((switch lruCacheHash).step r p) := by
  intro s i
  rw [switch_held lruCacheHash r p hflow]
  by_cases hi : i = slot lruCacheHash p
  · rw [if_pos hi, h.shifted, hi, slotPairs_concat_self]
  · rw [if_neg hi, slotPairs_concat_of_ne hi, h s i]

/-- **Any run**: a stage holds the last value that got to it. -/
theorem held_last (hflow : ∀ p ∈ ps, p.flowId = 1) :
    HoldsLast lruCacheHash ps ((switch lruCacheHash).run Registers.zero ps) := by
  induction ps using List.reverseRecOn with
  | nil => exact fun s _ => by cases s <;> rfl
  | append_singleton ps p ih =>
    rw [Pruner.run_concat]
    exact (ih fun q hq => hflow q (List.mem_append_left _ hq)).step (hflow p (by simp))

/-- **When a packet is dropped**, told from the packets: its value and those that moved the
last value of some stage on have both halves of that one, up to those with the top bit. -/
theorem drops_iff_matches (hflow : ∀ q ∈ ps ++ [p], q.flowId = 1) :
    (switch lruCacheHash).drops ((switch lruCacheHash).run Registers.zero ps) p = true ↔
      ∃ s, (lastEntered (slotPairs lruCacheHash ps (slot lruCacheHash p)) s).Matches p.pair := by
  have hheld := @held_last _ _ lruCacheHash ps fun q hq => hflow q (List.mem_append_left _ hq)
  rw [switch_drops lruCacheHash _ p (hflow p (by simp))]
  exact exists_congr fun s => signals_stored (hheld s _)

end Run
end Cheetah.DataPlane.Distinct
