import Mathlib.Data.List.Basic
import Mathlib.Logic.Function.Basic

/-! A queue of references to cells that are written again.

What comes out is what a cell holds when its reference leaves the queue, not when
it enters. `delivered` is what has come out and what would come out were nothing
written any more: pushing adds to it, popping does not change it, and a write does
not change it when no queued reference is to its cell. -/
namespace Cheetah.Lib

structure SharedQueue (ι α : Type*) where
  cells : ι → α
  queue : List ι
  out : List α

namespace SharedQueue
variable {ι α : Type*}

def write [DecidableEq ι] (s : SharedQueue ι α) (i : ι) (a : α) : SharedQueue ι α :=
  {s with cells := Function.update s.cells i a}

def push (s : SharedQueue ι α) (is : List ι) : SharedQueue ι α := {s with queue := s.queue ++ is}

/-- Nothing when the queue is empty. -/
def pop (s : SharedQueue ι α) : SharedQueue ι α :=
  match s.queue with
  | [] => s
  | i :: rest => {s with queue := rest, out := s.out ++ [s.cells i]}

def delivered (s : SharedQueue ι α) : List α := s.out ++ s.queue.map s.cells

theorem delivered_write [DecidableEq ι] {s : SharedQueue ι α} {i : ι} (h : i ∉ s.queue) (a : α) :
    (s.write i a).delivered = s.delivered := by
  have hcells : s.queue.map (Function.update s.cells i a) = s.queue.map s.cells :=
    List.map_congr_left fun j hj =>
      Function.update_of_ne (fun hji : j = i => h (hji ▸ hj)) a s.cells
  rw [delivered, delivered, write, hcells]

theorem delivered_push (s : SharedQueue ι α) (is : List ι) :
    (s.push is).delivered = s.delivered ++ is.map s.cells := by
  simp only [delivered, push, List.map_append, List.append_assoc]

theorem delivered_pop (s : SharedQueue ι α) : s.pop.delivered = s.delivered := by
  obtain ⟨cells, queue, out⟩ := s
  cases queue with
  | nil => rfl
  | cons i rest => simp only [delivered, pop, List.map_cons, List.append_assoc, List.singleton_append]

theorem out_prefix_delivered (s : SharedQueue ι α) : s.out <+: s.delivered := List.prefix_append _ _

/-- Popping everything, with no write in between. -/
theorem out_of_queue_eq_nil {s : SharedQueue ι α} (h : s.queue = []) : s.out = s.delivered := by
  rw [delivered, h, List.map_nil, List.append_nil]

end SharedQueue
end Cheetah.Lib
