import Cheetah.DataPlane.DistinctCache

/-! The halves of a value in `cheetah_distinct.p4` stay together.

A value moves from stage to stage half by half, through two registers and two instances of
the metadata, and a stage may mark one half and not the other. A mark is only ever the top
bit, so with the top bits left out a stage holds both halves of one value: what it takes is
the packet's pair, the pair it held, or the pair that a stage before it held. -/
namespace Cheetah.DataPlane.Distinct
open Lib

/-- A pair with both top bits cleared. -/
def cleared (v : Word × Word) : Word × Word := (v.1 &&& 0x7FFFFFFF, v.2 &&& 0x7FFFFFFF)

theorem or_top_cleared (reg : Word) : (reg ||| 0x80000000) &&& 0x7FFFFFFF = reg &&& 0x7FFFFFFF := by
  have hmask : (0x80000000 : Word) &&& 0x7FFFFFFF = 0#32 := by decide
  rw [BitVec.and_or_distrib_right, hmask, BitVec.or_zero]

/-- Handing a pair on marks it at most. -/
theorem cleared_handOn (h : Header) (v : Word × Word) : cleared (handOn h v) = cleared v := by
  have hhalf : ∀ half reg : Word,
      (if half = reg then reg ||| 0x80000000 else reg) &&& 0x7FFFFFFF = reg &&& 0x7FFFFFFF := by
    intro half reg
    split
    · exact or_top_cleared reg
    · rfl
  exact Prod.ext (hhalf h.valueHi v.1) (hhalf h.valueLo v.2)

section Pairs
variable {ι : Type} [DecidableEq ι] (lruCacheHash : Word → Word → ι)

omit [DecidableEq ι] in
/-- With the top bits left out, a stage takes the packet's pair or one that a stage held. -/
theorem cleared_shifted (r : Registers ι) (h : Header) (s : Stage) :
    cleared (shifted lruCacheHash r h s) = cleared h.pair ∨
      ∃ t, cleared (shifted lruCacheHash r h s) = cleared (held r t (slot lruCacheHash h)) := by
  cases s with
  | one => exact .inl rfl
  | two =>
    rw [shifted]
    split
    · exact .inr ⟨.two, rfl⟩
    · exact .inr ⟨.one, cleared_handOn h _⟩
  | three =>
    rw [shifted]
    split
    · exact .inr ⟨.three, rfl⟩
    · exact .inr ⟨.two, cleared_handOn h _⟩
  | four =>
    rw [shifted]
    split
    · exact .inr ⟨.four, rfl⟩
    · exact .inr ⟨.two, cleared_handOn h _⟩

/-- The stages do nothing to the registers for a packet of another flow. -/
theorem foldr_applyStage_other (stages : List Stage) (p : Packet ι) (hflow : p.hdr.flowId ≠ 1) :
    (stages.foldr (applyStage lruCacheHash) id p).regs = p.regs := by
  induction stages with
  | nil => rfl
  | cons s rest ih =>
    rw [List.foldr_cons, applyStage, lruCacheLo_miss lruCacheHash s p hflow,
      lruCacheHi_miss lruCacheHash s p hflow]
    split
    · rw [pruneTable_apply]
      rfl
    · exact ih

theorem switch_step_other (r : Registers ι) (h : Header) (hflow : h.flowId ≠ 1) :
    (switch lruCacheHash).step r h = r := by
  rw [switch, pruner_step, ingress_eq, metadataCopyTable_apply,
    foldr_applyStage_other lruCacheHash _ _ (by exact hflow)]
  rfl

/-- Every stage holds, at every slot, nothing or the value of one packet of that slot, up to
the top bits of its halves. -/
def Paired (ps : List Header) (r : Registers ι) : Prop :=
  ∀ s i, cleared (held r s i) = (0, 0) ∨
    ∃ q ∈ ps, slot lruCacheHash q = i ∧ cleared (held r s i) = cleared q.pair

variable {lruCacheHash} {ps : List Header} {r : Registers ι}

omit [DecidableEq ι] in
theorem Paired.mono (h : Paired lruCacheHash ps r) (p : Header) : Paired lruCacheHash (ps ++ [p]) r := by
  intro s i
  rcases h s i with hzero | ⟨q, hq, hslot, heq⟩
  · exact .inl hzero
  · exact .inr ⟨q, List.mem_append_left _ hq, hslot, heq⟩

/-- **One packet** keeps the halves together. -/
theorem Paired.step (h : Paired lruCacheHash ps r) (p : Header) :
    Paired lruCacheHash (ps ++ [p]) ((switch lruCacheHash).step r p) := by
  by_cases hflow : p.flowId = 1
  · intro s i
    rw [switch_held lruCacheHash r p hflow s i]
    by_cases hi : i = slot lruCacheHash p
    · rw [if_pos hi]
      rcases cleared_shifted lruCacheHash r p s with hpair | ⟨t, ht⟩
      · exact .inr ⟨p, by simp, hi.symm, hpair⟩
      · rw [ht, ← hi]
        exact h.mono p t i
    · rw [if_neg hi]
      exact h.mono p s i
  · rw [switch_step_other lruCacheHash r p hflow]
    exact h.mono p

/-- **Halves stay paired.** Whatever the hash function and the packets, each stage holds at
each slot the two halves of one value that came to it, apart from their top bits, or
nothing. -/
theorem halves_paired (lruCacheHash : Word → Word → ι) (ps : List Header) :
    Paired lruCacheHash ps ((switch lruCacheHash).run Registers.zero ps) := by
  induction ps using List.reverseRecOn with
  | nil =>
    intro s i
    have hzero : cleared (0, 0) = (0, 0) := by decide
    exact .inl hzero
  | append_singleton ps p ih =>
    rw [Pruner.run_concat]
    exact ih.step p

end Pairs

/-- The first of two values that share their lower half is handed on with a mark. -/
example : let r := (switch fun _ _ => ()).run Registers.zero [⟨1, 0, 1, 2⟩, ⟨1, 1, 3, 2⟩]
    held r .two () = (1, 0x80000002) ∧ cleared (held r .two ()) = (1, 2) := by decide

end Cheetah.DataPlane.Distinct
