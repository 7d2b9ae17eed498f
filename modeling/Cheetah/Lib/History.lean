import Cheetah.Lib.Pruning
import Mathlib.Data.Nat.Find

/-! What a register of a machine remembers of a run.

A register that is kept next to a tag holds a fold over the items it saw since the tag
last changed, when every change of the tag makes it start over (`cell_eq_foldl`). -/
namespace Cheetah.Lib.Pruner
variable {P S K V : Type*} (F : Pruner P S)

/-- The same machine, letting out the items that `A` picks. -/
def watch (A : S → P → Bool) : Pruner P S := ⟨F.step, fun s p => !A s p⟩

theorem run_watch (A : S → P → Bool) (s : S) (ps : List P) : (F.watch A).run s ps = F.run s ps := by
  induction ps generalizing s with
  | nil => rfl
  | cons p rest ih => exact ih _

/-- The items of a run that `A` picks. -/
def picked (A : S → P → Bool) (s : S) (ps : List P) : List P := (F.watch A).forwarded s ps

theorem picked_concat (A : S → P → Bool) (s : S) (ps : List P) (p : P) :
    F.picked A s (ps ++ [p]) = F.picked A s ps ++ if A (F.run s ps) p then [p] else [] := by
  rw [picked, forwarded_concat, run_watch, ← picked]
  by_cases h : A (F.run s ps) p = true
  · rw [if_pos h, if_neg (by simp [watch, h])]
  · rw [if_neg h, if_pos (by simp [watch, h])]

section LastChange
variable [DecidableEq K] (f : S → K)

/-- How many items a run reads before the one that last changes `f`; none if nothing does. -/
def lastChange (s : S) (ps : List P) : Nat :=
  Nat.findGreatest (fun k => f (F.run s (ps.take k)) ≠ f (F.run s ps)) ps.length

theorem lastChange_le (s : S) (ps : List P) : F.lastChange f s ps ≤ ps.length := Nat.findGreatest_le _

variable {f} {s : S} {ps : List P} {p : P}

theorem lastChange_concat_same (h : f (F.step (F.run s ps) p) = f (F.run s ps)) :
    F.lastChange f s (ps ++ [p]) = F.lastChange f s ps := by
  obtain ⟨_, hlast, hafter⟩ := Nat.findGreatest_eq_iff.mp (rfl : F.lastChange f s ps = F.lastChange f s ps)
  have hle := F.lastChange_le f s ps
  refine Nat.findGreatest_eq_iff.mpr ⟨?_, fun hpos => ?_, fun k hk hlen => ?_⟩
  · rw [List.length_append]
    exact hle.trans (Nat.le_add_right _ _)
  · rw [List.take_append_of_le_length hle, run_concat, h]
    exact hlast hpos
  · rw [List.length_append, List.length_singleton] at hlen
    rw [not_not, run_concat, h]
    rcases Nat.lt_or_ge ps.length k with hall | hk'
    · rw [List.take_of_length_le (by rw [List.length_append]; exact hall), run_concat, h]
    · rw [List.take_append_of_le_length hk']
      exact not_not.mp (hafter hk hk')

theorem lastChange_concat_changed (h : f (F.step (F.run s ps) p) ≠ f (F.run s ps)) :
    F.lastChange f s (ps ++ [p]) = ps.length := by
  refine Nat.findGreatest_eq_iff.mpr ⟨?_, fun _ => ?_, fun k hk hlen => ?_⟩
  · rw [List.length_append]
    exact Nat.le_add_right _ _
  · rw [List.take_append_of_le_length (Nat.le_refl _), List.take_length, run_concat]
    exact h.symm
  · rw [List.length_append, List.length_singleton] at hlen
    rw [not_not, List.take_of_length_le (by rw [List.length_append]; exact hk)]

/-- The items that `A` picks, from the one on that last changed `f`. -/
def pickedSince (f : S → K) (A : S → P → Bool) (s : S) (ps : List P) : List P :=
  F.picked A (F.run s (ps.take (F.lastChange f s ps))) (ps.drop (F.lastChange f s ps))

theorem pickedSince_concat_same (A : S → P → Bool) (h : f (F.step (F.run s ps) p) = f (F.run s ps)) :
    F.pickedSince f A s (ps ++ [p]) =
      F.pickedSince f A s ps ++ if A (F.run s ps) p then [p] else [] := by
  have hle := F.lastChange_le f s ps
  rw [pickedSince, lastChange_concat_same F h, List.take_append_of_le_length hle,
    List.drop_append_of_le_length hle, picked_concat, ← run_append, List.take_append_drop, pickedSince]

theorem pickedSince_concat_changed (A : S → P → Bool) (h : f (F.step (F.run s ps) p) ≠ f (F.run s ps)) :
    F.pickedSince f A s (ps ++ [p]) = if A (F.run s ps) p then [p] else [] := by
  rw [pickedSince, lastChange_concat_changed F h, List.take_left, List.drop_left]
  exact picked_concat F A _ [] p

/-- **A register that starts over** whenever its tag `f` changes, and folds in the items
that `A` picks otherwise, holds the fold over the picked items since the last change. -/
theorem cell_eq_foldl {A : S → P → Bool} {v : S → V} {op : V → P → V} {base : V} (hinit : v s = base)
    (hkeep : ∀ t p, A t p = false → f (F.step t p) = f t ∧ v (F.step t p) = v t)
    (hsame : ∀ t p, A t p = true → f (F.step t p) = f t → v (F.step t p) = op (v t) p)
    (hchange : ∀ t p, A t p = true → f (F.step t p) ≠ f t → v (F.step t p) = op base p) (ps : List P) :
    v (F.run s ps) = (F.pickedSince f A s ps).foldl op base := by
  induction ps using List.reverseRecOn with
  | nil => exact hinit
  | append_singleton ps p ih =>
    rw [run_concat]
    by_cases hA : A (F.run s ps) p = true
    · by_cases hf : f (F.step (F.run s ps) p) = f (F.run s ps)
      · rw [pickedSince_concat_same F A hf, if_pos hA, List.foldl_append, ← ih]
        exact hsame _ p hA hf
      · rw [pickedSince_concat_changed F A hf, if_pos hA]
        exact hchange _ p hA hf
    · obtain ⟨hf, hv⟩ := hkeep _ p (Bool.eq_false_iff.mpr hA)
      rw [pickedSince_concat_same F A hf, if_neg hA, List.append_nil, hv]
      exact ih

end LastChange
end Cheetah.Lib.Pruner
