import Cheetah.Lib.Transition
import Mathlib.Data.Fintype.Card

/-! How a query is meant to run: what the control messages are for.

The master offloads the query; a worker that has an address waits for it, sends its rows
and acknowledges; a script, started after the query is offloaded, counts as many
acknowledgements as it was told there are workers. Messages may be lost. Nothing here
says what the rows are or where they go. -/
namespace Cheetah.System.Protocol
open Lib

/-- Where a worker stands. -/
inductive Phase where
  | waiting | streaming | done
  deriving DecidableEq, Repr

/-- The master, the workers and the acknowledgements on their way. -/
structure State (ι : Type*) where
  offloaded : Bool
  phase : ι → Phase
  acks : Nat
  running : Bool
  counted : Nat

section Steps
variable {ι : Type*} [DecidableEq ι] (addressed : ι → Prop) (workerNodes : Nat)

/-- The steps of the parties and of the network. -/
inductive Next : State ι → State ι → Prop
  | offload (s : State ι) : Next s {s with offloaded := true}
  | run (s : State ι) (h : s.offloaded = true) : Next s {s with running := true}
  | begin (s : State ι) (i : ι) (hwait : s.phase i = .waiting) (h : s.offloaded = true ∨ ¬ addressed i) :
      Next s {s with phase := Function.update s.phase i .streaming}
  | finish (s : State ι) (i : ι) (h : s.phase i = .streaming) :
      Next s {s with phase := Function.update s.phase i .done, acks := s.acks + 1}
  | count (s : State ι) (acks : Nat) (hrun : s.running = true) (hleft : s.counted < workerNodes)
      (h : s.acks = acks + 1) : Next s {s with acks := acks, counted := s.counted + 1}
  | lose (s : State ι) (acks : Nat) (h : s.acks = acks + 1) : Next s {s with acks := acks}

/-- The protocol, from the state before anything was sent. -/
def system : Transitions (State ι) where
  start s := s = ⟨false, fun _ => .waiting, 0, false, 0⟩
  next := Next addressed workerNodes

variable [Fintype ι]

/-- The workers that have acknowledged. -/
def doneWorkers (s : State ι) : Finset ι := Finset.univ.filter fun i => s.phase i = .done

/-- What every step keeps. -/
structure Inv (s : State ι) : Prop where
  begun : ∀ i, s.phase i ≠ .waiting → s.offloaded = true ∨ ¬ addressed i
  /-- An acknowledgement that is counted or on its way is that of one worker. -/
  acks : s.counted + s.acks ≤ (doneWorkers s).card
  running : s.running = true → s.offloaded = true
  counted : s.counted ≠ 0 → s.running = true

end Steps

section Safety
variable {ι : Type*} [DecidableEq ι] [Fintype ι] {addressed : ι → Prop} {workerNodes : Nat} {s : State ι}

/-- A worker that finishes is one more. -/
theorem doneWorkers_finish {i : ι} (h : s.phase i = .streaming) (acks : Nat) :
    (doneWorkers {s with phase := Function.update s.phase i .done, acks := acks}).card =
      (doneWorkers s).card + 1 := by
  have hnew : i ∉ doneWorkers s := by simp [doneWorkers, h]
  rw [← Finset.card_insert_of_notMem hnew]
  congr 1
  ext j
  by_cases hj : j = i <;> simp [doneWorkers, hj]

theorem doneWorkers_begin {i : ι} (h : s.phase i = .waiting) :
    doneWorkers {s with phase := Function.update s.phase i .streaming} = doneWorkers s := by
  ext j
  by_cases hj : j = i
  · simp [doneWorkers, hj, h]
  · simp [doneWorkers, hj]

/-- **One step** keeps the invariant. -/
theorem inv_next {s' : State ι} (h : Inv addressed s) (hn : Next addressed workerNodes s s') :
    Inv addressed s' := by
  cases hn with
  | offload =>
    exact {
      begun := fun _ _ => .inl rfl
      acks := h.acks
      running := fun _ => rfl
      counted := h.counted }
  | run hoff =>
    exact {
      begun := h.begun
      acks := h.acks
      running := fun _ => hoff
      counted := fun _ => rfl }
  | begin i hwait hmay =>
    refine {
      begun := fun j hj => ?_
      acks := by rw [doneWorkers_begin hwait]; exact h.acks
      running := h.running
      counted := h.counted }
    by_cases hji : j = i
    · exact hji ▸ hmay
    · dsimp only at hj
      rw [Function.update_of_ne hji] at hj
      exact h.begun j hj
  | finish i hstream =>
    refine {
      begun := fun j hj => ?_
      acks := by
        have hacks := h.acks
        rw [doneWorkers_finish hstream]
        dsimp only
        omega
      running := h.running
      counted := h.counted }
    by_cases hji : j = i
    · exact hji ▸ h.begun i (by rw [hstream]; nofun)
    · dsimp only at hj
      rw [Function.update_of_ne hji] at hj
      exact h.begun j hj
  | count acks hrun hleft hacks =>
    have hold := h.acks
    exact {
      begun := h.begun
      acks := by
        show s.counted + 1 + acks ≤ (doneWorkers s).card
        omega
      running := h.running
      counted := fun _ => hrun }
  | lose acks hacks =>
    have hold := h.acks
    exact {
      begun := h.begun
      acks := by
        show s.counted + acks ≤ (doneWorkers s).card
        omega
      running := h.running
      counted := h.counted }

/-- **Any run** keeps it. -/
theorem reached_inv (hs : (system addressed workerNodes).Reached s) : Inv addressed s := by
  refine hs.invariant (I := Inv addressed) (fun s hstart => ?_) fun _ _ _ hold hn => inv_next hold hn
  obtain rfl := hstart
  exact ⟨fun _ hne => absurd rfl hne, Nat.zero_le _, nofun, nofun⟩

/-- **No worker sends a row before the query is offloaded**, if it has an address. -/
theorem begun_offloaded (hs : (system addressed workerNodes).Reached s) {i : ι} (hi : addressed i)
    (hbegun : s.phase i ≠ .waiting) : s.offloaded = true :=
  ((reached_inv hs).begun i hbegun).resolve_right (not_not_intro hi)

/-- **The script ends only when as many workers as it was told have acknowledged.** -/
theorem ended_done (hs : (system addressed workerNodes).Reached s) (hend : s.counted = workerNodes) :
    workerNodes ≤ (doneWorkers s).card := by
  have hacks := (reached_inv hs).acks
  omega

/-- All of them, when it was told of them all. -/
theorem ended_all_done (hs : (system addressed workerNodes).Reached s) (hend : s.counted = workerNodes)
    (hall : Fintype.card ι ≤ workerNodes) (i : ι) : s.phase i = .done := by
  have hcard := Nat.le_trans hall (ended_done hs hend)
  have huniv : doneWorkers s = Finset.univ := Finset.eq_univ_of_card _
    (Nat.le_antisymm (Finset.card_le_univ _) hcard)
  have hmem : i ∈ doneWorkers s := huniv ▸ Finset.mem_univ i
  exact (Finset.mem_filter.mp hmem).2

end Safety
end Cheetah.System.Protocol
