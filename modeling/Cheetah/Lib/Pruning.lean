import Mathlib.Data.Multiset.Filter
import Mathlib.Data.List.Induction

/-! Machines that read a stream one item at a time and forward or drop each item.

`Pruner.run` is the state after a history and `Pruner.forwarded` what came out of
it. `run_rule` is the induction every result about a run goes through: a relation
between the state, the items read and the items forwarded holds of every run if
it holds of the empty one and one item keeps it. `split` says that a history is
what was forwarded and what was dropped, as multisets. -/
namespace Cheetah.Lib

/-- One item at a time: the next state, and whether the item is dropped. -/
structure Pruner (P S : Type*) where
  step : S → P → S
  drops : S → P → Bool

namespace Pruner
variable {P S : Type*} (F : Pruner P S)

def run (s : S) : List P → S
  | [] => s
  | p :: rest => run (F.step s p) rest

/-- The items that are not dropped, in order. -/
def forwarded (s : S) : List P → List P
  | [] => []
  | p :: rest => if F.drops s p then forwarded (F.step s p) rest else p :: forwarded (F.step s p) rest

/-- The items that are dropped, in order. -/
def dropped (s : S) : List P → List P
  | [] => []
  | p :: rest => if F.drops s p then p :: dropped (F.step s p) rest else dropped (F.step s p) rest

theorem run_append (s : S) (a b : List P) : F.run s (a ++ b) = F.run (F.run s a) b := by
  induction a generalizing s with
  | nil => rfl
  | cons p rest ih => exact ih _

theorem forwarded_append (s : S) (a b : List P) :
    F.forwarded s (a ++ b) = F.forwarded s a ++ F.forwarded (F.run s a) b := by
  induction a generalizing s with
  | nil => rfl
  | cons p rest ih =>
    simp only [List.cons_append, forwarded, run, ih]
    split <;> rfl

theorem run_concat (s : S) (ps : List P) (p : P) : F.run s (ps ++ [p]) = F.step (F.run s ps) p := by
  rw [run_append]
  rfl

/-- The last item of a history comes out unless it is dropped. -/
theorem forwarded_concat (s : S) (ps : List P) (p : P) :
    F.forwarded s (ps ++ [p]) =
      F.forwarded s ps ++ (if F.drops (F.run s ps) p then [] else [p]) := by
  rw [forwarded_append]
  rfl

theorem dropped_append (s : S) (a b : List P) :
    F.dropped s (a ++ b) = F.dropped s a ++ F.dropped (F.run s a) b := by
  induction a generalizing s with
  | nil => rfl
  | cons p rest ih =>
    simp only [List.cons_append, dropped, run, ih]
    split <;> rfl

theorem dropped_concat (s : S) (ps : List P) (p : P) :
    F.dropped s (ps ++ [p]) = F.dropped s ps ++ (if F.drops (F.run s ps) p then [p] else []) := by
  rw [dropped_append]
  rfl

theorem forwarded_sublist (s : S) (ps : List P) : (F.forwarded s ps).Sublist ps := by
  induction ps generalizing s with
  | nil => exact List.Sublist.refl _
  | cons p rest ih =>
    rw [forwarded]
    split
    · exact (ih _).cons p
    · exact (ih _).cons_cons p

theorem forwarded_subset (s : S) (ps : List P) : F.forwarded s ps ⊆ ps :=
  (F.forwarded_sublist s ps).subset

/-- Where an item comes out is where it went in and was not dropped. -/
theorem forwarded_eq_append_cons (s : S) (ps : List P) (front : List P) (p : P) (back : List P) :
    F.forwarded s ps = front ++ p :: back ↔ ∃ pre post, ps = pre ++ p :: post ∧
      F.drops (F.run s pre) p = false ∧ F.forwarded s pre = front ∧
      F.forwarded (F.step (F.run s pre) p) post = back := by
  constructor
  · intro h
    induction ps generalizing s front with
    | nil => simp [forwarded] at h
    | cons q rest ih =>
      rw [forwarded] at h
      split at h
      · rename_i hd
        obtain ⟨pre, post, rfl, hp, hfront, hback⟩ := ih _ _ h
        refine ⟨q :: pre, post, rfl, hp, ?_, hback⟩
        rw [forwarded, if_pos hd, hfront]
      · rename_i hd
        cases front with
        | nil =>
          obtain ⟨rfl, hback⟩ := List.cons.inj h
          exact ⟨[], rest, rfl, Bool.eq_false_iff.mpr hd, rfl, hback⟩
        | cons q' front =>
          obtain ⟨rfl, htail⟩ := List.cons.inj h
          obtain ⟨pre, post, rfl, hp, hfront, hback⟩ := ih _ _ htail
          refine ⟨q :: pre, post, rfl, hp, ?_, hback⟩
          rw [forwarded, if_neg hd, hfront]
  · intro hsome
    obtain ⟨pre, post, rfl, hp, rfl, rfl⟩ := hsome
    rw [forwarded_append, forwarded, if_neg (Bool.eq_false_iff.mp hp)]

theorem forwarded_prefix_append (s : S) (pre post : List P) :
    F.forwarded s pre ⊆ F.forwarded s (pre ++ post) := by
  rw [forwarded_append]
  exact List.subset_append_left _ _

/-- What a dropped item is: one that the state reached before it drops. -/
theorem mem_dropped (s : S) (ps : List P) (p : P) :
    p ∈ F.dropped s ps ↔ ∃ pre post, ps = pre ++ p :: post ∧ F.drops (F.run s pre) p = true := by
  induction ps generalizing s with
  | nil => simp [dropped]
  | cons q rest ih =>
    constructor
    · intro h
      simp only [dropped] at h
      split at h
      · rename_i hd
        rcases List.mem_cons.mp h with rfl | h
        · exact ⟨[], rest, rfl, hd⟩
        · obtain ⟨pre, post, rfl, hp⟩ := (ih _).mp h
          exact ⟨q :: pre, post, rfl, hp⟩
      · obtain ⟨pre, post, rfl, hp⟩ := (ih _).mp h
        exact ⟨q :: pre, post, rfl, hp⟩
    · intro hsome
      obtain ⟨pre, post, he, hd⟩ := hsome
      cases pre with
      | nil =>
        obtain ⟨rfl, rfl⟩ := List.cons.inj he
        have hd : F.drops s q = true := hd
        simp [dropped, hd]
      | cons q' pre =>
        obtain ⟨rfl, rfl⟩ := List.cons.inj he
        have hrest : p ∈ F.dropped (F.step s q) (pre ++ p :: post) := (ih _).mpr ⟨pre, post, rfl, hd⟩
        simp only [dropped]
        split
        · exact List.mem_cons_of_mem _ hrest
        · exact hrest

/-- A history is what was forwarded together with what was dropped. -/
theorem split (s : S) (ps : List P) :
    (ps : Multiset P) = (F.forwarded s ps : Multiset P) + (F.dropped s ps : Multiset P) := by
  induction ps generalizing s with
  | nil => rfl
  | cons p rest ih =>
    simp only [forwarded, dropped]
    split
    · rw [← Multiset.cons_coe, ← Multiset.cons_coe, ih (F.step s p), Multiset.add_cons]
    · rw [← Multiset.cons_coe, ← Multiset.cons_coe, ih (F.step s p), Multiset.cons_add]

/-- A machine that stays where it is filters. -/
theorem forwarded_of_fixed {s : S} (hfix : ∀ p, F.step s p = s) (ps : List P) :
    F.run s ps = s ∧ F.forwarded s ps = ps.filter fun p => !F.drops s p := by
  induction ps with
  | nil => exact ⟨rfl, rfl⟩
  | cons p rest ih =>
    obtain ⟨hrun, hfwd⟩ := ih
    rw [run, forwarded, hfix, List.filter_cons]
    refine ⟨hrun, ?_⟩
    cases hd : F.drops s p with
    | true => simp [hfwd]
    | false => simp [hfwd]

/-- A machine for items that come wrapped: what cannot be read is dropped. -/
def comap {Q : Type*} (read : Q → Option P) : Pruner Q S where
  step s q := ((read q).map (F.step s)).getD s
  drops s q := ((read q).map (F.drops s)).getD true

section Comap
variable {Q : Type*} {read : Q → Option P}

theorem forwarded_comap (s : S) (qs : List Q) :
    ((F.comap read).forwarded s qs).filterMap read = F.forwarded s (qs.filterMap read) := by
  induction qs generalizing s with
  | nil => rfl
  | cons q rest ih =>
    have hrest := ih ((F.comap read).step s q)
    cases hq : read q with
    | none =>
      simp only [comap, hq, Option.map_none, Option.getD_none] at hrest
      rw [forwarded, List.filterMap_cons, hq]
      simpa [comap, hq] using hrest
    | some p =>
      simp only [comap, hq, Option.map_some, Option.getD_some] at hrest
      rw [forwarded, List.filterMap_cons, hq, forwarded]
      cases hd : F.drops s p with
      | true => simpa [comap, hq, hd] using hrest
      | false => simpa [comap, hq, hd] using hrest

theorem dropped_comap (s : S) (qs : List Q) :
    ((F.comap read).dropped s qs).filterMap read = F.dropped s (qs.filterMap read) := by
  induction qs generalizing s with
  | nil => rfl
  | cons q rest ih =>
    have hrest := ih ((F.comap read).step s q)
    cases hq : read q with
    | none =>
      simp only [comap, hq, Option.map_none, Option.getD_none] at hrest
      rw [dropped, List.filterMap_cons, hq]
      simpa [comap, hq] using hrest
    | some p =>
      simp only [comap, hq, Option.map_some, Option.getD_some] at hrest
      rw [dropped, List.filterMap_cons, hq, dropped]
      cases hd : F.drops s p with
      | true => simpa [comap, hq, hd] using hrest
      | false => simpa [comap, hq, hd] using hrest

end Comap

/-- When the first item with each key is forwarded, the forwarded items have every key. -/
theorem forwarded_keys {K : Type*} (key : P → K) (s : S) (ps : List P)
    (hfirst : ∀ pre p post, ps = pre ++ p :: post → (∀ q ∈ pre, key q ≠ key p) →
      F.drops (F.run s pre) p = false) :
    ∀ p ∈ ps, ∃ q ∈ F.forwarded s ps, key q = key p := by
  induction ps using List.reverseRecOn with
  | nil => simp
  | append_singleton ps p ih =>
    have hold := ih fun pre q post he => hfirst pre q (post ++ [p]) (by simp [he])
    rw [forwarded_concat]
    intro q hq
    rcases List.mem_append.mp hq with hq | hq
    · obtain ⟨q', hq', hk⟩ := hold q hq
      exact ⟨q', List.mem_append_left _ hq', hk⟩
    · rw [List.mem_singleton.mp hq]
      by_cases hseen : ∃ q ∈ ps, key q = key p
      · obtain ⟨q', hq', hk⟩ := hseen
        obtain ⟨q'', hq'', hk'⟩ := hold q' hq'
        exact ⟨q'', List.mem_append_left _ hq'', hk'.trans hk⟩
      · have hnew := hfirst ps p [] rfl fun q' hq' hk => hseen ⟨q', hq', hk⟩
        exact ⟨p, List.mem_append_right _ (by simp [hnew]), rfl⟩

/-- **The run rule.** `I t seen fwd` relates a state to the items read and the
items forwarded on the way to it; `Q` is what the items read are known to satisfy. -/
theorem run_rule {I : S → List P → List P → Prop} {Q : P → Prop} {s : S} (hinit : I s [] [])
    (hstep : ∀ t seen fwd p, Q p → I t seen fwd →
      I (F.step t p) (seen ++ [p]) (fwd ++ (if F.drops t p then [] else [p])))
    (ps : List P) (hQ : ∀ p ∈ ps, Q p) : I (F.run s ps) ps (F.forwarded s ps) := by
  induction ps using List.reverseRecOn with
  | nil => exact hinit
  | append_singleton ps p ih =>
    rw [run_concat, forwarded_concat]
    have hps : ∀ q ∈ ps, Q q := fun q hq => hQ q (List.mem_append_left _ hq)
    have hp : Q p := hQ p (List.mem_append_right _ (List.mem_singleton.mpr rfl))
    exact hstep _ _ _ p hp (ih hps)

end Pruner
end Cheetah.Lib
