import Mathlib.Data.List.Basic
import Mathlib.Data.List.Induction
import Mathlib.Logic.Function.Iterate

/-! Loops whose turns may have no result.

`forLoop_rule` carries an invariant through a counted loop and shows that it has a
result; `mapM_eq_some_iff` says what it means that a whole list of computations has
one. -/
namespace Cheetah.Lib

section ForLoop
variable {σ : Type*} {body : Nat → σ → Option σ}

/-- `for (i = 0; i < n; i++)`. -/
def forLoop (body : Nat → σ → Option σ) : Nat → σ → Option σ
  | 0, s => some s
  | n + 1, s => do body n (← forLoop body n s)

/-- An invariant that every turn establishes for the next holds at the end. -/
theorem forLoop_rule {n : Nat} {s : σ} (I : Nat → σ → Prop) (hinit : I 0 s)
    (hturn : ∀ i t, i < n → I i t → ∃ t', body i t = some t' ∧ I (i + 1) t') :
    ∃ t, forLoop body n s = some t ∧ I n t := by
  induction n with
  | zero => exact ⟨s, rfl, hinit⟩
  | succ n ih =>
    obtain ⟨t, hrun, hinv⟩ := ih fun i t hi => hturn i t (Nat.lt_succ_of_lt hi)
    obtain ⟨t', hbody, hinv'⟩ := hturn n t (Nat.lt_succ_self n) hinv
    refine ⟨t', ?_, hinv'⟩
    rw [forLoop, hrun]
    exact hbody

/-- A loop over the indices of a list, when a turn does with its index what `g` does with
the element there. -/
theorem forLoop_eq_foldlM {α : Type*} {l : List α} {g : σ → α → Option σ}
    (h : ∀ i a, l[i]? = some a → ∀ t, body i t = g t a) (s : σ) :
    forLoop body l.length s = l.foldlM g s := by
  induction l using List.reverseRecOn with
  | nil => rfl
  | append_singleton l a ih =>
    have hrest : forLoop body l.length s = l.foldlM g s := by
      refine ih fun i b hb => h i b ?_
      rw [List.getElem?_append_left (List.getElem?_eq_some_iff.mp hb).1, hb]
    have hlast : ∀ t, body l.length t = g t a := h l.length a List.getElem?_concat_length
    rw [List.length_append, List.length_singleton, forLoop, hrest, List.foldlM_append]
    refine Option.bind_congr fun t _ => ?_
    rw [hlast, List.foldlM_cons]
    exact (Option.bind_fun_some _).symm

end ForLoop

section FoldlM
variable {α σ τ ι : Type*} {f : τ → α → Option τ} {g : σ → α → Option σ} {w : ι → σ → τ} {next : ι → ι}

/-- A fold that is another one seen through `w`, whose index moves on at every step. -/
theorem foldlM_eq_map (h : ∀ i s a, f (w i s) a = (g s a).map (w (next i))) (i : ι) (s : σ) (l : List α) :
    l.foldlM f (w i s) = (l.foldlM g s).map (w (next^[l.length] i)) := by
  induction l generalizing i s with
  | nil => rfl
  | cons a rest ih =>
    rw [List.foldlM_cons, List.foldlM_cons, h]
    show ((g s a).map (w (next i))).bind _ = Option.map _ ((g s a).bind _)
    rw [Option.bind_map, Option.map_bind]
    exact Option.bind_congr fun t _ => ih (next i) t

end FoldlM

section MapM
variable {α β : Type*} {f : α → Option β} {l : List α}

theorem mapM_eq_some_iff {bs : List β} : l.mapM f = some bs ↔ l.map f = bs.map some := by
  induction l generalizing bs with
  | nil => cases bs <;> simp
  | cons a rest ih =>
    cases bs with
    | nil => simp [List.mapM_cons, Option.bind_eq_some_iff]
    | cons b bs => simp [List.mapM_cons, Option.bind_eq_some_iff, ih]

/-- Results of which something is known, from what each comes from. -/
theorem exists_mapM {γ : Type*} {g : β → γ} {k : α → γ} {P : β → Prop}
    (h : ∀ a ∈ l, ∃ b, f a = some b ∧ g b = k a ∧ P b) :
    ∃ bs, l.mapM f = some bs ∧ bs.map g = l.map k ∧ ∀ b ∈ bs, P b := by
  induction l with
  | nil => exact ⟨[], rfl, rfl, fun b hb => absurd hb List.not_mem_nil⟩
  | cons a rest ih =>
    obtain ⟨b, hb, hg, hP⟩ := h a (List.mem_cons_self ..)
    obtain ⟨bs, hbs, hmap, hall⟩ := ih fun x hx => h x (List.mem_cons_of_mem a hx)
    refine ⟨b :: bs, by rw [List.mapM_cons, hb, hbs]; rfl, ?_, List.forall_mem_cons.mpr ⟨hP, hall⟩⟩
    rw [List.map_cons, List.map_cons, hg, hmap]

end MapM
end Cheetah.Lib
