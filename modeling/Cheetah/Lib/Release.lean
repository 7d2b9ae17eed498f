import Cheetah.Lib.ChainedTable
import Cheetah.Lib.Buffer
import Cheetah.Lib.Splits

/-! Taking linked nodes down.

A teardown goes through an array of pointers and frees, for each, the node it leads to
and the node behind that one. It is recorded step by step, and goes on where C no longer
defines what it does: `Indeterminate` is what it reads from a slot that nothing was written
to, and from a node that has been freed or never was one.

`released_slots` is the teardown of nodes without links. `next_of_freedOnce` is the other
direction: if it frees every node once and reads none that it has freed, no node has a link
to another. -/
namespace Cheetah.Lib

open ChainNode

/-- What a teardown does. The blocks that are no nodes are in `β`. -/
inductive Step (β : Type*) where
  /-- The slot `i` is read. -/
  | slot (i : Nat)
  /-- The link of the node at `a` is read. -/
  | next (a : Nat)
  /-- `free(p)`. -/
  | free (p : Option Nat)
  | block (b : β)
  deriving DecidableEq

/-- What is read where nothing defines it, given the steps so far. -/
structure Indeterminate (β : Type*) where
  slot : Nat → Option Nat
  next : List (Step β) → Nat → Option Nat

section Code
variable {ν K β : Type*} [ChainNode ν K] [DecidableEq β] (g : Indeterminate β) (h : Heap ν)

/-- The pointer in a slot. -/
def readSlot (b : Buffer Nat) (i : Nat) : Option Nat := (b.read i).or (g.slot i)

/-- The link of the node at `a`. -/
def readNext (past : List (Step β)) (a : Nat) : Option Nat :=
  match h[a]? with
  | some x => if .free (some a) ∈ past then g.next past a else next x
  | none => g.next past a

/-- `if (e) { free(e->next); free(e); }` -/
def freeEntry (past : List (Step β)) : Option Nat → List (Step β)
  | none => past
  | some a => past ++ [.next a, .free (readNext g h past a), .free (some a)]

/-- `free_entry(ptr_array[i]);` for the indices `i` of a list. -/
def freeSlots (b : Buffer Nat) (past : List (Step β)) (is : List Nat) : List (Step β) :=
  is.foldl (fun past i => freeEntry g h (past ++ [.slot i]) (readSlot g b i)) past

end Code

/-! ### What a teardown owes -/

section Spec
variable {ν β : Type*} [DecidableEq β]

/-- Every node is freed once. -/
def FreedOnce (h : Heap ν) (steps : List (Step β)) : Prop :=
  ∀ a < h.length, steps.count (.free (some a)) = 1

/-- No link is read after its node has been freed. -/
def NeverStale (steps : List (Step β)) : Prop :=
  ∀ pre s post, steps = pre ++ s :: post → ∀ a, s = .next a → .free (some a) ∉ pre

/-- Every slot that is read has been written. -/
def OnlyWritten (b : Buffer Nat) (steps : List (Step β)) : Prop :=
  ∀ i, .slot i ∈ steps → (b.read i).isSome

variable {steps : List (Step β)}

omit [DecidableEq β] in
theorem neverStale_concat {s : Step β} :
    NeverStale (steps ++ [s]) ↔ NeverStale steps ∧ ∀ a, s = .next a → .free (some a) ∉ steps :=
  forall_split_concat (Q := fun pre s => ∀ a, s = Step.next a → Step.free (some a) ∉ pre)

omit [DecidableEq β] in
theorem NeverStale.concat {s : Step β} (hsteps : NeverStale steps) (hs : ∀ a, s ≠ .next a) :
    NeverStale (steps ++ [s]) :=
  neverStale_concat.mpr ⟨hsteps, fun a ha => absurd ha (hs a)⟩

/-- The nodes `xs` have been freed, once each, from the first slots. -/
structure Released (xs : List Nat) (steps : List (Step β)) : Prop where
  frees : ∀ a, steps.count (.free (some a)) = xs.count a
  fresh : NeverStale steps
  slots : ∀ i, .slot i ∈ steps → i < xs.length

theorem released_start (x : β) : Released [] [.block x] where
  frees _ := by simp
  fresh := (show NeverStale [] from fun _ _ _ he => by simp at he).concat (by simp)
  slots i hi := by simp at hi

variable {ν : Type*} {h : Heap ν} {b : Buffer Nat} {x : β}

theorem Released.freedOnce (hr : Released (List.range h.length) steps) : FreedOnce h steps := by
  intro a ha
  rw [hr.frees a]
  exact List.count_eq_one_of_mem List.nodup_range (List.mem_range.mpr ha)

theorem Released.onlyWritten {xs : List Nat} (hr : Released xs steps) (hb : b.Holds xs) :
    OnlyWritten b steps := by
  intro i hi
  rw [hb.read (hr.slots i hi)]
  rfl

/-! Blocks that are no nodes make no difference. -/

@[simp] theorem freedOnce_block : FreedOnce h (steps ++ [.block x]) ↔ FreedOnce h steps := by
  simp [FreedOnce]

omit [DecidableEq β] in
@[simp] theorem neverStale_block : NeverStale (steps ++ [.block x]) ↔ NeverStale steps := by
  simp [neverStale_concat]

omit [DecidableEq β] in
@[simp] theorem onlyWritten_block : OnlyWritten b (steps ++ [.block x]) ↔ OnlyWritten b steps := by
  simp [OnlyWritten]

end Spec

/-! ### Nodes without links -/

section Unlinked
variable {ν K β : Type*} [ChainNode ν K] [DecidableEq β] {g : Indeterminate β} {h : Heap ν}
  {b : Buffer Nat} {xs : List Nat} {steps past : List (Step β)}

/-- **One slot** whose node has no link and has not been freed. -/
theorem Released.slot (hr : Released xs steps) {a : Nat} {x : ν} (ha : a ∉ xs) (hx : h[a]? = some x)
    (hend : next x = none) (hread : b.read xs.length = some a) :
    Released (xs ++ [a]) (freeEntry g h (steps ++ [.slot xs.length]) (readSlot g b xs.length)) := by
  have hnot : .free (some a) ∉ steps ++ [Step.slot xs.length] := by
    have hcount := hr.frees a
    rw [List.count_eq_zero_of_not_mem ha] at hcount
    intro hmem
    rcases List.mem_append.mp hmem with hmem | hmem
    · exact List.count_eq_zero.mp hcount hmem
    · cases List.mem_singleton.mp hmem
  have hnext : readNext g h (steps ++ [Step.slot xs.length]) a = none := by
    rw [readNext, hx]
    exact (if_neg hnot).trans hend
  have hstep : freeEntry g h (steps ++ [Step.slot xs.length]) (readSlot g b xs.length) =
      steps ++ [Step.slot xs.length] ++ [Step.next a] ++ [Step.free none] ++ [Step.free (some a)] := by
    rw [readSlot, hread, Option.some_or, freeEntry, hnext]
    simp
  rw [hstep]
  refine ⟨fun c => ?_, ?_, fun i hi => ?_⟩
  · simp [List.count_append, hr.frees c, List.count_singleton]
  · have hslot : NeverStale (steps ++ [Step.slot xs.length]) := hr.fresh.concat (by simp)
    have hlink : NeverStale (steps ++ [Step.slot xs.length] ++ [Step.next a]) := by
      refine neverStale_concat.mpr ⟨hslot, fun c hc => ?_⟩
      obtain rfl := Step.next.inj hc
      exact hnot
    have hnull : NeverStale (steps ++ [Step.slot xs.length] ++ [Step.next a] ++ [Step.free none]) :=
      hlink.concat (by simp)
    exact hnull.concat (by simp)
  · rw [List.length_append, List.length_singleton]
    have hi' : .slot i ∈ steps ∨ i = xs.length := by simpa using hi
    rcases hi' with hi | rfl
    · exact Nat.lt_succ_of_lt (hr.slots i hi)
    · exact Nat.lt_succ_self _

/-- **Nodes without links** are freed once each. -/
theorem released_slots (hpast : Released [] past) (hb : b.Holds xs) (hnodup : xs.Nodup)
    (hend : ∀ a ∈ xs, ∃ x, h[a]? = some x ∧ next x = none) :
    Released xs (freeSlots g h b past (List.range xs.length)) := by
  induction xs using List.reverseRecOn with
  | nil => exact hpast
  | append_singleton xs a ih =>
    rw [← List.concat_eq_append, List.nodup_concat] at hnodup
    obtain ⟨ha, hxs⟩ := hnodup
    obtain ⟨x, hx, hnext⟩ := hend a (by simp)
    have hread : b.read xs.length = some a := by
      rw [hb.read (by simp)]
      simp
    have hprev := ih hb.left hxs fun c hc => hend c (List.mem_append_left _ hc)
    rw [List.length_append, List.length_singleton, List.range_succ, freeSlots, List.foldl_append]
    exact hprev.slot ha hx hnext hread

/-- Slots that list every node free every node. -/
theorem released_all (hpast : Released [] past) (hb : b.Holds (List.range h.length))
    (hend : ∀ x ∈ h, next x = none) :
    Released (List.range h.length) (freeSlots g h b past (List.range h.length)) := by
  have hreleased := released_slots (g := g) hpast hb List.nodup_range fun a ha =>
    ⟨_, List.getElem?_eq_getElem (List.mem_range.mp ha), hend _ (List.getElem_mem _)⟩
  rwa [List.length_range] at hreleased

end Unlinked

/-! ### Nodes with links -/

section Linked
variable {ν K β : Type*} [ChainNode ν K] [DecidableEq β] (g : Indeterminate β) (h : Heap ν) (b : Buffer Nat)
  (past : List (Step β))

theorem freeEntry_extends (p : Option Nat) : past <+: freeEntry g h past p := by
  cases p with
  | none => exact List.prefix_rfl
  | some a => exact List.prefix_append _ _

theorem freeSlots_cons (i : Nat) (is : List Nat) :
    freeSlots g h b past (i :: is) =
      freeSlots g h b (freeEntry g h (past ++ [.slot i]) (readSlot g b i)) is := List.foldl_cons ..

theorem freeSlots_extends (is : List Nat) : past <+: freeSlots g h b past is := by
  induction is generalizing past with
  | nil => exact List.prefix_rfl
  | cons i rest ih =>
    rw [freeSlots_cons]
    exact ((List.prefix_append past [.slot i]).trans (freeEntry_extends g h _ _)).trans (ih _)

theorem freeSlots_append (is js : List Nat) :
    freeSlots g h b past (is ++ js) = freeSlots g h b (freeSlots g h b past is) js := List.foldl_append

/-- Every slot is read. -/
theorem slot_mem_freeSlots {i : Nat} {is : List Nat} (hi : i ∈ is) : .slot i ∈ freeSlots g h b past is := by
  obtain ⟨pre, post, rfl⟩ := List.append_of_mem hi
  rw [freeSlots_append, freeSlots_cons]
  refine ((freeEntry_extends g h _ _).trans (freeSlots_extends g h b _ post)).subset ?_
  exact List.mem_append_right _ (List.mem_singleton.mpr rfl)

/-- A node is freed for its own pointer and for a link to it. -/
theorem count_freeEntry (a c : Nat) :
    (freeEntry g h past (some a)).count (.free (some c)) =
      past.count (.free (some c)) +
        ((if readNext g h past a = some c then 1 else 0) + if a = c then 1 else 0) := by
  simp only [freeEntry, List.count_append, List.count_cons, List.count_nil, beq_iff_eq, Step.free.injEq,
    Option.some.injEq, reduceCtorEq, if_false]
  omega

/-- Nodes are freed at least once for each slot that leads to them. -/
theorem count_freeSlots {is : List Nat} (hb : ∀ i ∈ is, b.read i = some i) (c : Nat) :
    past.count (.free (some c)) + is.count c ≤ (freeSlots g h b past is).count (.free (some c)) := by
  induction is generalizing past with
  | nil => exact Nat.le_refl _
  | cons i rest ih =>
    have hread : readSlot g b i = some i := by rw [readSlot, hb i List.mem_cons_self, Option.some_or]
    have hentry := count_freeEntry g h (past ++ [.slot i]) i c
    have hrest := ih (freeEntry g h (past ++ [.slot i]) (some i)) fun j hj => hb j (List.mem_cons_of_mem i hj)
    rw [List.count_append] at hentry
    rw [freeSlots_cons, hread, List.count_cons]
    simp only [beq_iff_eq]
    refine Nat.le_trans ?_ hrest
    omega

variable {g h b past}

/-- **A node with a link** to another is why one is freed twice or read after it is freed. -/
theorem next_of_freedOnce (hb : b.Holds (List.range h.length))
    (honce : FreedOnce h (freeSlots g h b past (List.range h.length)))
    (hfresh : NeverStale (freeSlots g h b past (List.range h.length))) {a c : Nat} {x : ν}
    (hx : h[a]? = some x) (hnext : next x = some c) : h.length ≤ c := by
  by_contra hc
  have ha : a ∈ List.range h.length := List.mem_range.mpr (List.getElem?_eq_some_iff.mp hx).1
  obtain ⟨pre, post, hsplit⟩ := List.append_of_mem ha
  have hread : ∀ i ∈ pre ++ a :: post, b.read i = some i := by
    intro i hi
    rw [← hsplit] at hi
    rw [hb.read (by rwa [List.length_range, ← List.mem_range]), List.getElem_range]
  have hslot : readSlot g b a = some a := by rw [readSlot, hread a (by simp), Option.some_or]
  -- the steps up to the node's slot, and those from its pointer on
  generalize hbefore : freeSlots g h b past pre ++ [.slot a] = before
  have hsteps : freeSlots g h b past (List.range h.length) =
      freeSlots g h b (freeEntry g h before (some a)) post := by
    rw [hsplit, freeSlots_append, freeSlots_cons, hslot, hbefore]
  rw [hsteps] at honce hfresh
  have hfirst : .free (some a) ∉ before := by
    obtain ⟨rest, hrest⟩ := freeSlots_extends g h b (freeEntry g h before (some a)) post
    rw [← hrest, freeEntry, List.append_assoc] at hfresh
    exact hfresh before (.next a) _ rfl a rfl
  have hlink : readNext g h before a = some c := by
    rw [readNext, hx]
    exact (if_neg hfirst).trans hnext
  have hfront := count_freeSlots g h b past (fun i hi => hread i (List.mem_append_left _ hi)) c
  have hentry := count_freeEntry g h before a c
  have hback := count_freeSlots g h b (freeEntry g h before (some a))
    (fun i hi => hread i (List.mem_append_right _ (List.mem_cons_of_mem a hi))) c
  have hcount : (List.range h.length).count c = 1 :=
    List.count_eq_one_of_mem List.nodup_range (List.mem_range.mpr (Nat.lt_of_not_le hc))
  have hone := honce c (Nat.lt_of_not_le hc)
  have hslotted : (freeSlots g h b past pre).count (.free (some c)) ≤ before.count (.free (some c)) := by
    rw [← hbefore, List.count_append]
    exact Nat.le_add_right _ _
  rw [hsplit, List.count_append, List.count_cons] at hcount
  rw [hlink, if_pos rfl] at hentry
  simp only [beq_iff_eq] at hcount
  omega

end Linked
end Cheetah.Lib
