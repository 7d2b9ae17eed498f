import Cheetah.DataPlane.DistinctMarks
import Cheetah.Host.DistinctStore

/-! DISTINCT, from the switch to the master.

The master feeds the value of every forwarded packet to
`cheetah_aggregate_processing_distinct_update`. The switch signals a hit inside the
values themselves, one top bit a half, so a stage can signal for a value that never
came; such a packet is dropped and its value lost. `NoFalseMatch` says of the packets
when this does not happen. -/
namespace Cheetah.Query.Distinct
open DataPlane.Distinct Host Host.AggregateProcessing

section Loss
variable {ι κ : Type} [DecidableEq ι] [DecidableEq κ] (lruCacheHash : Word → Word → ι)

/-- Every dropped packet carries a value that was forwarded before. -/
def NoValueLost (ps : List Header) : Prop :=
  ∀ pre p post, ps = pre ++ p :: post →
    (switch lruCacheHash).drops ((switch lruCacheHash).run Registers.zero pre) p = true →
    ∃ q ∈ (switch lruCacheHash).forwarded Registers.zero pre, q.value = p.value

/-- The master collects the same values from the forwarded packets as from all of them. -/
def SameValues (format : Value → κ) (init : DistinctState (Htab κ)) (ps : List Header) : Prop :=
  ∃ all pruned, distinctRun Htab.hsearch format init (ps.map Header.value) = some all ∧
    distinctRun Htab.hsearch format init
      (((switch lruCacheHash).forwarded Registers.zero ps).map Header.value) = some pruned ∧
    ∀ v, some v ∈ distinctView pruned ↔ some v ∈ distinctView all

/-- A value that comes for the first time does not match what stands in its slot. For each
stage that is the last of the values that got there, as `entered` tells from the values that
came to the slot before. It matches when each of its halves has the top bit, or is a half of
the new value or of one that moved it on. -/
def NoFalseMatch (ps : List Header) : Prop :=
  ∀ pre p post, ps = pre ++ p :: post → (∀ q ∈ pre, q.value ≠ p.value) →
    ∀ s, ¬ (lastEntered (slotPairs lruCacheHash pre (slot lruCacheHash p)) s).Matches p.pair

variable {lruCacheHash}

/-- A first occurrence is forwarded exactly when it matches nothing in its slot. -/
theorem forwards_iff {pre post : List Header} {p : Header} (hflow : ∀ q ∈ pre ++ p :: post, q.flowId = 1) :
    (switch lruCacheHash).drops ((switch lruCacheHash).run Registers.zero pre) p = false ↔
      ∀ s, ¬ (lastEntered (slotPairs lruCacheHash pre (slot lruCacheHash p)) s).Matches p.pair := by
  have hflow' : ∀ q ∈ pre ++ [p], q.flowId = 1 := by
    intro q hq
    rcases List.mem_append.mp hq with hq | hq
    · exact hflow q (List.mem_append_left _ hq)
    · rw [List.mem_singleton.mp hq]
      exact hflow p (by simp)
  rw [← not_exists, ← drops_iff_matches hflow', Bool.not_eq_true]

theorem NoFalseMatch.forwards {ps : List Header} (h : NoFalseMatch lruCacheHash ps)
    (hflow : ∀ p ∈ ps, p.flowId = 1) {pre post : List Header} {p : Header} (he : ps = pre ++ p :: post)
    (hnew : ∀ q ∈ pre, q.value ≠ p.value) :
    (switch lruCacheHash).drops ((switch lruCacheHash).run Registers.zero pre) p = false :=
  (forwards_iff (he ▸ hflow)).mpr (h pre p post he hnew)

theorem NoFalseMatch.prefix {pre post : List Header} (h : NoFalseMatch lruCacheHash (pre ++ post)) :
    NoFalseMatch lruCacheHash pre := by
  intro a p b he
  exact h a p (b ++ post) (by simp [he])

/-- Without false matches the forwarded packets carry every value. -/
theorem NoFalseMatch.covers {ps : List Header} (h : NoFalseMatch lruCacheHash ps)
    (hflow : ∀ p ∈ ps, p.flowId = 1) :
    ∀ p ∈ ps, ∃ q ∈ (switch lruCacheHash).forwarded Registers.zero ps, q.value = p.value :=
  (switch lruCacheHash).forwarded_keys Header.value _ ps fun _ _ _ he hnew =>
    h.forwards hflow he hnew

theorem NoFalseMatch.noValueLost {ps : List Header} (h : NoFalseMatch lruCacheHash ps)
    (hflow : ∀ p ∈ ps, p.flowId = 1) : NoValueLost lruCacheHash ps := by
  intro pre p post he hdrop
  by_cases hnew : ∀ q ∈ pre, q.value ≠ p.value
  · exact absurd hdrop (by rw [h.forwards hflow he hnew]; decide)
  · push Not at hnew
    obtain ⟨q, hq, hv⟩ := hnew
    subst he
    obtain ⟨q', hq', hv'⟩ := h.prefix.covers (fun p hp => hflow p (List.mem_append_left _ hp)) q hq
    exact ⟨q', hq', hv'.trans hv⟩

/-- A false match loses a value. -/
theorem NoValueLost.noFalseMatch {ps : List Header} (h : NoValueLost lruCacheHash ps)
    (hflow : ∀ p ∈ ps, p.flowId = 1) : NoFalseMatch lruCacheHash ps := by
  intro pre p post he hnew
  rw [← forwards_iff (he ▸ hflow), Bool.eq_false_iff]
  intro hdrop
  obtain ⟨q, hq, hv⟩ := h pre p post he hdrop
  exact hnew q ((switch lruCacheHash).forwarded_subset _ _ hq) hv

/-- What the master lists are the values it was given. -/
theorem mem_distinctView {format : Value → κ} {values : List Value} {state : DistinctState (Htab κ)}
    (h : DistinctStored format values state) (v : Value) : some v ∈ distinctView state ↔ v ∈ values := by
  rw [h.view, List.mem_map_of_injective (Option.some_injective _), List.mem_eraseDups]

/-- When the forwarded packets carry every value, the master collects the same ones. -/
theorem sameValues_of_covers (hc : Hcreate) (format : Value → κ) (size : Word) {ps : List Header}
    (hroom : (ps.map Header.value).eraseDups.length ≤ size.toNat)
    (hcovers : ∀ p ∈ ps, ∃ q ∈ (switch lruCacheHash).forwarded Registers.zero ps, q.value = p.value) :
    SameValues lruCacheHash format (distinctInit (hc.create size.toNat) size) ps := by
  have hsub := List.map_subset Header.value ((switch lruCacheHash).forwarded_subset Registers.zero ps)
  have hinit := distinctStored_init format hc size
  obtain ⟨all, hall, hstored⟩ := distinctStored_run hinit (ps.map Header.value) hroom
  obtain ⟨pruned, hpruned, hstored'⟩ := distinctStored_run hinit
    (((switch lruCacheHash).forwarded Registers.zero ps).map Header.value)
    (Nat.le_trans (Lib.length_eraseDups_le_of_subset hsub) hroom)
  refine ⟨all, pruned, hall, hpruned, fun v => ?_⟩
  rw [mem_distinctView hstored, mem_distinctView hstored']
  refine ⟨fun hv => hsub hv, fun hv => ?_⟩
  obtain ⟨p, hp, rfl⟩ := List.mem_map.mp hv
  obtain ⟨q, hq, hv⟩ := hcovers p hp
  exact List.mem_map.mpr ⟨q, hq, hv⟩

/-- **DISTINCT is preserved exactly when** no value that comes for the first time matches
what stands in its slot. -/
theorem distinct_preserved_iff (hc : Hcreate) (format : Value → κ) (size : Word) (ps : List Header)
    (hflow : ∀ p ∈ ps, p.flowId = 1)
    (hroom : (ps.map Header.value).eraseDups.length ≤ size.toNat) :
    NoValueLost lruCacheHash ps ∧
        SameValues lruCacheHash format (distinctInit (hc.create size.toNat) size) ps ↔
      NoFalseMatch lruCacheHash ps := by
  constructor
  · intro hboth
    obtain ⟨hlost, _⟩ := hboth
    exact hlost.noFalseMatch hflow
  · intro h
    exact ⟨h.noValueLost hflow, sameValues_of_covers hc format size hroom (h.covers hflow)⟩

/-- One more packet. -/
theorem noFalseMatch_concat {ps : List Header} {p : Header} :
    NoFalseMatch lruCacheHash (ps ++ [p]) ↔ NoFalseMatch lruCacheHash ps ∧
      ((∀ q ∈ ps, q.value ≠ p.value) →
        ∀ s, ¬ (lastEntered (slotPairs lruCacheHash ps (slot lruCacheHash p)) s).Matches p.pair) :=
  Lib.forall_split_concat

end Loss

/-- Three packets in one slot. The second shares its low half with the first, and the third
has the first value again. -/
def markedTwo : List Header := [⟨1, 0, 5, 6⟩, ⟨1, 1, 7, 6⟩, ⟨1, 2, 5, 6⟩]

theorem markedTwo_noFalseMatch : NoFalseMatch (fun _ _ => ()) markedTwo := by
  have hsplit : markedTwo = [] ++ [⟨1, 0, 5, 6⟩] ++ [⟨1, 1, 7, 6⟩] ++ [⟨1, 2, 5, 6⟩] := rfl
  rw [hsplit]
  refine noFalseMatch_concat.mpr ⟨noFalseMatch_concat.mpr ⟨noFalseMatch_concat.mpr ⟨?_, ?_⟩, ?_⟩, ?_⟩
  · intro pre p post he
    simp at he
  · exact fun _ s => by cases s <;> decide
  · exact fun _ s => by cases s <;> decide
  · exact fun hnew => absurd rfl (hnew ⟨1, 0, 5, 6⟩ (by simp))

/-- No value is lost, although the first one is marked. -/
theorem distinct_preserved_iff_marked :
    (NoValueLost (fun _ _ => ()) markedTwo ∧
        SameValues (fun _ _ => ()) (fun v => v) (distinctInit (Hcreate.least.create 2) 2) markedTwo ↔
      NoFalseMatch (fun _ _ => ()) markedTwo) ∧
    NoValueLost (fun _ _ => ()) markedTwo ∧
      SameValues (fun _ _ => ()) (fun v => v) (distinctInit (Hcreate.least.create 2) 2) markedTwo := by
  have hiff := @distinct_preserved_iff _ _ _ _ (fun _ _ => ()) Hcreate.least (fun v : Value => v) 2 markedTwo
    (by decide) (by decide)
  exact ⟨hiff, hiff.mpr markedTwo_noFalseMatch⟩

/-- Three values in one slot, no half zero and none with the top bit. The second shares
its low half with the first, which moves on with that half marked; the third shares its
high half with the first and is taken for a hit. -/
theorem value_lost :
    ¬ NoValueLost (fun _ _ => ()) [⟨1, 0, 1, 2⟩, ⟨1, 1, 3, 2⟩, ⟨1, 2, 1, 4⟩] := by
  intro h
  obtain ⟨q, hq, hv⟩ := h [⟨1, 0, 1, 2⟩, ⟨1, 1, 3, 2⟩] ⟨1, 2, 1, 4⟩ [] rfl (by decide)
  have hne : ∀ q ∈ (switch fun _ _ => ()).forwarded Registers.zero
      [⟨1, 0, 1, 2⟩, ⟨1, 1, 3, 2⟩], q.value ≠ (⟨1, 2, 1, 4⟩ : Header).value := by decide
  exact hne q hq hv

end Cheetah.Query.Distinct
