import Mathlib.Logic.Relation

/-! Transition systems, the states they reach, and a system that refines another.

An invariant may use that the states it is about are reached, so one invariant is proved
over another. `Refinement` is a map of states under which every step of the system is a
step of the other or none at all: what holds of every state the other reaches holds of
the image of every state of the system. Steps that lower a measure come to an end
(`Reached.acc`), and then some run of them ends (`exists_end`). -/
namespace Cheetah.Lib

/-- Where a system may start, and its steps. -/
structure Transitions (S : Type*) where
  start : S → Prop
  next : S → S → Prop

namespace Transitions
variable {S V : Type*} {T : Transitions S} {U : Transitions V}

/-- The states of all runs. -/
inductive Reached (T : Transitions S) : S → Prop
  | start {s : S} (h : T.start s) : Reached T s
  | next {s s' : S} (h : Reached T s) (hn : T.next s s') : Reached T s'

/-- **The invariant rule.** -/
theorem Reached.invariant {I : S → Prop} (hstart : ∀ s, T.start s → I s)
    (hnext : ∀ s s', T.Reached s → I s → T.next s s' → I s') {s : S} (hs : T.Reached s) : I s := by
  induction hs with
  | start h => exact hstart _ h
  | next h hn ih => exact hnext _ _ h ih hn

/-- `T`, seen through `f`, does what `U` may do. -/
structure Refinement (T : Transitions S) (U : Transitions V) (f : S → V) : Prop where
  start : ∀ s, T.start s → U.start (f s)
  next : ∀ s s', T.Reached s → T.next s s' → U.next (f s) (f s') ∨ f s' = f s

/-- What `T` reaches, `U` reaches. -/
theorem Refinement.reached {f : S → V} (h : T.Refinement U f) {s : S} (hs : T.Reached s) :
    U.Reached (f s) := by
  refine hs.invariant (I := fun s => U.Reached (f s)) (fun s hstart => .start (h.start s hstart)) ?_
  intro s s' hs hold hn
  rcases h.next s s' hs hn with hstep | hsame
  · exact hold.next hstep
  · exact hsame ▸ hold

section Ending
variable {R : S → S → Prop}

theorem Reached.steps (hR : ∀ s s', R s s' → T.next s s') {s s' : S} (hs : T.Reached s)
    (hrun : Relation.ReflTransGen R s s') : T.Reached s' := by
  induction hrun with
  | refl => exact hs
  | tail _ hstep ih => exact ih.next (hR _ _ hstep)

/-- What lowers a measure comes to an end. -/
theorem Reached.acc (measure : S → Nat)
    (hlower : ∀ s s', T.Reached s → R s s' → T.Reached s' ∧ measure s' < measure s) {s : S} (hs : T.Reached s) :
    Acc (fun s' s => R s s') s := by
  generalize hn : measure s = n
  induction n using Nat.strongRecOn generalizing s with
  | ind n ih =>
    refine Acc.intro s fun s' hstep => ?_
    obtain ⟨hs', hless⟩ := hlower s s' hs hstep
    exact ih (measure s') (hn ▸ hless) hs' rfl

/-- Where steps come to an end, some run does. -/
theorem exists_end {s : S} (h : Acc (fun s' s => R s s') s) :
    ∃ s', Relation.ReflTransGen R s s' ∧ ∀ t, ¬R s' t := by
  induction h with
  | intro s _ ih =>
    by_cases hmore : ∃ t, R s t
    · obtain ⟨t, ht⟩ := hmore
      obtain ⟨s', hrun, hend⟩ := ih t ht
      exact ⟨s', .head ht hrun, hend⟩
    · exact ⟨s, .refl, fun t ht => hmore ⟨t, ht⟩⟩

end Ending

end Transitions
end Cheetah.Lib
