import Cheetah.Query.Distinct

/-! Values that DISTINCT keeps, in whatever order they come.

Whether a new value matches what stands in its slot depends on the packets before. It cannot
when one half of the values that share a slot tells them apart, is never 0, as an empty
cell, and never has the top bit: what has that half in common with the new value, or with
one that moved it on, is that value itself. -/
namespace Cheetah.Query.Distinct
open Lib DataPlane.Distinct Host Host.AggregateProcessing

/-! ### Halves -/

inductive Half where
  | hi | lo
  deriving DecidableEq

def Half.of : Half → Word × Word → Word
  | .hi, v => v.1
  | .lo, v => v.2

theorem value_eq_of_pair {p q : Header} (h : p.pair = q.pair) : p.value = q.value := by
  obtain ⟨hhi, hlo⟩ := Prod.mk.inj h
  rw [Header.value, Header.value, hhi, hlo]

section Slots
variable {ι : Type} [DecidableEq ι] (lruCacheHash : Word → Word → ι)

/-! ### A slot -/

/-- One half of the values of a slot tells them apart, is never 0 and has no top bit. -/
structure Apart (a : Half) (ps : List Header) (i : ι) : Prop where
  inj : ∀ p ∈ ps, ∀ q ∈ ps, slot lruCacheHash p = i → slot lruCacheHash q = i →
    a.of p.pair = a.of q.pair → p.pair = q.pair
  nonzero : ∀ p ∈ ps, slot lruCacheHash p = i → a.of p.pair ≠ 0
  topless : ∀ p ∈ ps, slot lruCacheHash p = i → a.of p.pair &&& 0x80000000 ≠ 0x80000000

/-- In every slot there is such a half. -/
def ToldApart (ps : List Header) : Prop := ∀ i, ∃ a, Apart lruCacheHash a ps i

variable {lruCacheHash} {a : Half} {all ps : List Header} {i : ι}

omit [DecidableEq ι] in
theorem Apart.mono (h : Apart lruCacheHash a all i) (hsub : ps ⊆ all) : Apart lruCacheHash a ps i where
  inj p hp q hq := h.inj p (hsub hp) q (hsub hq)
  nonzero p hp := h.nonzero p (hsub hp)
  topless p hp := h.topless p (hsub hp)

omit [DecidableEq ι] in
theorem ToldApart.mono (h : ToldApart lruCacheHash all) (hsub : ps ⊆ all) : ToldApart lruCacheHash ps :=
  fun i => (h i).imp fun _ ha => ha.mono hsub

theorem Half.of_matches (a : Half) {m : Moved} {v : Word × Word} (h : m.Matches v) :
    a.of m.value &&& 0x80000000 = 0x80000000 ∨ a.of m.value = a.of v ∨ ∃ w ∈ m.past, a.of w = a.of m.value := by
  have hmem : HalfMatches (a.of m.value) ((v :: m.past).map a.of) := by
    cases a with
    | hi => exact h.1
    | lo => exact h.2
  rcases hmem with htop | hin
  · exact .inl htop
  · rw [List.map_cons, List.mem_cons, List.mem_map] at hin
    exact .inr hin

/-- No new value matches. -/
theorem ToldApart.noFalseMatch (h : ToldApart lruCacheHash ps) : NoFalseMatch lruCacheHash ps := by
  intro pre p post he hnew s hmatch
  obtain ⟨a, ha⟩ := h (slot lruCacheHash p)
  have hp : p ∈ ps := by rw [he]; simp
  have hpre : pre ⊆ ps := by rw [he]; exact List.subset_append_left _ _
  have hfrom := from_lastEntered (slotPairs lruCacheHash pre (slot lruCacheHash p)) s
  have hcame : ∀ v ∈ slotPairs lruCacheHash pre (slot lruCacheHash p),
      ∃ q ∈ pre, slot lruCacheHash q = slot lruCacheHash p ∧ q.pair = v := by
    intro v hv
    obtain ⟨q, hq, hpair⟩ := List.mem_map.mp hv
    obtain ⟨hq, hslot⟩ := List.mem_filter.mp hq
    exact ⟨q, hq, of_decide_eq_true hslot, hpair⟩
  rcases hfrom.value with hzero | hin
  · -- the empty cell has neither the top bit nor a half of these values
    have hnone : a.of (lastEntered (slotPairs lruCacheHash pre (slot lruCacheHash p)) s).value = 0 := by
      rw [hzero]
      cases a <;> rfl
    rcases a.of_matches hmatch with htop | heq | ⟨w, hw, heq⟩
    · rw [hnone] at htop
      exact absurd htop (by decide)
    · exact ha.nonzero p hp rfl (heq.symm.trans hnone)
    · obtain ⟨q, hq, hslot, rfl⟩ := hcame w (hfrom.past w hw)
      exact ha.nonzero q (hpre hq) hslot (heq.trans hnone)
  · obtain ⟨q, hq, hslot, hvalue⟩ := hcame _ hin
    rcases a.of_matches hmatch with htop | heq | ⟨w, hw, heq⟩
    · rw [← hvalue] at htop
      exact ha.topless q (hpre hq) hslot htop
    · rw [← hvalue] at heq
      exact hnew q hq (value_eq_of_pair (ha.inj q (hpre hq) p hp hslot rfl heq))
    · obtain ⟨q', hq', hslot', rfl⟩ := hcame w (hfrom.past w hw)
      rw [← hvalue] at heq
      have hsame := ha.inj q' (hpre hq') q (hpre hq) hslot' hslot heq
      exact hfrom.other (by rw [← hvalue, ← hsame]; exact hw)

/-- **In any order.** When the values of some packets are told apart in their slots, then of
these packets in any order, any number of times each, with any of them missing, no dropped
one carries a value that was not forwarded before, and the master collects every value. -/
theorem told_apart_preserved (hc : Hcreate) {κ : Type} [DecidableEq κ] (format : Value → κ) (size : Word)
    (h : ToldApart lruCacheHash all) (hflow : ∀ p ∈ all, p.flowId = 1) (hsub : ps ⊆ all)
    (hroom : (all.map Header.value).eraseDups.length ≤ size.toNat) :
    NoValueLost lruCacheHash ps ∧
      SameValues lruCacheHash format (distinctInit (hc.create size.toNat) size) ps := by
  have hflow' : ∀ p ∈ ps, p.flowId = 1 := fun p hp => hflow p (hsub hp)
  have hnone := (h.mono hsub).noFalseMatch
  refine ⟨hnone.noValueLost hflow', sameValues_of_covers hc format size ?_ (hnone.covers hflow')⟩
  exact Nat.le_trans (length_eraseDups_le_of_subset (List.map_subset _ hsub)) hroom

end Slots

/-- Two values in one slot that share their upper half, which is 0. -/
def sharing : List Header := [⟨1, 0, 0, 1⟩, ⟨1, 1, 0, 2⟩]

theorem sharing_apart : ToldApart (fun _ _ => ()) sharing := fun () => ⟨.lo, by decide, by decide, by decide⟩

/-- The second comes first, and again. -/
theorem told_apart_preserved_sharing :
    let ps : List Header := [⟨1, 1, 0, 2⟩, ⟨1, 0, 0, 1⟩, ⟨1, 1, 0, 2⟩]
    NoValueLost (fun _ _ => ()) ps ∧
      SameValues (fun _ _ => ()) (fun v => v) (distinctInit (Hcreate.unbounded.create 2) 2) ps :=
  told_apart_preserved Hcreate.unbounded (fun v => v) 2 sharing_apart (by decide) (by decide) (by decide)

end Cheetah.Query.Distinct
