import Cheetah.DataPlane.Groupby
import Cheetah.Lib.History

/-! The five sketches of `cheetah_groupby.p4` one by one.

A sketch sees the packets that the sketches before it let through, and only at the cell
their key hashes to. What a value cell holds is the largest value it saw since its key
cell last changed, so the sketch drops exactly the packets with the stored key that lie
below that. -/
namespace Cheetah.DataPlane.Groupby

/-- The place of a sketch in the pipeline. -/
def Sketch.rank : Sketch → Nat
  | one => 1
  | two => 2
  | three => 3
  | four => 4
  | five => 5

/-- What the tables before a sketch have added to the key. -/
def Sketch.offset : Sketch → Word
  | one => 0
  | two => 3
  | three => 5
  | four => 7
  | five => 9

theorem Sketch.rank_le (s : Sketch) : s.rank ≤ 5 := by cases s <;> decide

theorem Sketch.one_le_rank (s : Sketch) : 1 ≤ s.rank := by cases s <;> decide

theorem Sketch.rank_inj {s t : Sketch} (h : s.rank = t.rank) : s = t := by
  cases s <;> cases t <;> first | rfl | exact absurd h (by decide)

/-- The sketches that follow each other. -/
theorem Sketch.next_cases {s t : Sketch} (h : s.rank = t.rank + 1) :
    t = .one ∧ s = .two ∨ t = .two ∧ s = .three ∨ t = .three ∧ s = .four ∨ t = .four ∧ s = .five := by
  revert h
  cases t <;> cases s <;> decide

/-- What holds at the first sketch and from each to the next holds at every sketch. -/
theorem Sketch.chain {Q : Sketch → Prop} (hone : Q .one)
    (hnext : ∀ s t : Sketch, s.rank = t.rank + 1 → Q t → Q s) (s : Sketch) : Q s := by
  have htwo := hnext .two .one rfl hone
  have hthree := hnext .three .two rfl htwo
  have hfour := hnext .four .three rfl hthree
  have hfive := hnext .five .four rfl hfour
  cases s <;> assumption

/-- Nothing but metadata and cells of other sketches than `s` differs. -/
structure Spares {ι : Type} (s : Sketch) (p q : Packet ι) : Prop where
  hdr : q.hdr = p.hdr
  dropped : q.dropped = p.dropped
  sketchKey : q.regs.sketchKey s = p.regs.sketchKey s
  sketchValue : q.regs.sketchValue s = p.regs.sketchValue s

section Spared
variable {ι : Type} {s : Sketch} {p q o : Packet ι}

theorem Spares.refl (s : Sketch) (p : Packet ι) : Spares s p p := ⟨rfl, rfl, rfl, rfl⟩

theorem Spares.trans (h : Spares s p q) (h' : Spares s q o) : Spares s p o :=
  ⟨h'.hdr.trans h.hdr, h'.dropped.trans h.dropped, h'.sketchKey.trans h.sketchKey,
    h'.sketchValue.trans h.sketchValue⟩

/-- A table of a rule for flow 1 spares what its action spares. -/
theorem spares_table {action : Packet ι → Packet ι} (h : ∀ p, Spares s p (action p)) (p : Packet ι) :
    Spares s p ((Table.install readsFlowId id [(1, action)]).apply p) := by
  rw [Table.apply_install_one]
  split
  · exact h p
  · exact Spares.refl s p

theorem spares_modifyHash (p : Packet ι) : Spares s p (modifyHash p) := ⟨rfl, rfl, rfl, rfl⟩

theorem spares_addToHash (n : Word) (p : Packet ι) : Spares s p (addToHash n p) := ⟨rfl, rfl, rfl, rfl⟩

theorem tablePrune_regs (p : Packet ι) : (tablePrune.apply p).regs = p.regs := by
  rw [tablePrune, Table.apply_install_one]
  split <;> rfl

theorem tablePrune_dropped {p : Packet ι} (hkept : p.dropped = false) :
    (tablePrune.apply p).dropped = true ↔ p.hdr.flowId = 1 := by
  rw [tablePrune, Table.apply_install_one]
  split
  · rename_i hflow
    exact iff_of_true rfl hflow
  · rename_i hflow
    exact iff_of_false (by simp [hkept]) hflow

variable [DecidableEq ι] (hash : Sketch → Word → ι)

theorem spares_applySketch {t : Sketch} (hne : s ≠ t) (p : Packet ι) :
    Spares s p (applySketch hash t p) := by
  refine (spares_table (fun q => ?_) p).trans (spares_table (fun q => ?_) _)
  · exact ⟨rfl, rfl, Function.update_of_ne hne _ _, rfl⟩
  · exact ⟨rfl, rfl, rfl, Function.update_of_ne hne _ _⟩

theorem spares_applyUnpruned {t : Sketch} (hne : s ≠ t) (p : Packet ι) :
    Spares s p (applyUnpruned hash t p) := by
  unfold applyUnpruned
  split
  · exact spares_applySketch hash hne p
  · exact Spares.refl s p

end Spared

section Stages
variable {ι : Type} [DecidableEq ι] (hash : Sketch → Word → ι)

/-- The cell of a key. -/
def index (s : Sketch) (key : Word) : ι := hash s (key + s.offset)

/-- A packet as the parser hands it on. -/
def start (r : Registers ι) (h : Header) : Packet ι := ⟨h, Metadata.zero, r, false⟩

/-- A packet as `ingress` brings it to the tables of a sketch. -/
def arrive (s : Sketch) (p : Packet ι) : Packet ι :=
  let one := tableHashInit.apply p
  let two := tableHashInitTwo.apply (applySketch hash .one one)
  let three := tableHashInitThree.apply (applyUnpruned hash .two two)
  let four := tableHashInitFour.apply (applyUnpruned hash .three three)
  let five := tableHashInitFive.apply (applyUnpruned hash .four four)
  match s with
  | .one => one
  | .two => two
  | .three => three
  | .four => four
  | .five => five

/-- A packet as a sketch leaves it. -/
def leave (s : Sketch) (r : Registers ι) (h : Header) : Packet ι :=
  applyUnpruned hash s (arrive hash s (start r h))

/-- The tables of sketch `s` take the packet: no sketch before marked it. -/
def Reaches (s : Sketch) (r : Registers ι) (h : Header) : Prop :=
  h.flowId = 1 ∧ (arrive hash s (start r h)).md.prune = 0

/-- Sketch `s` marks the packet. -/
def DroppedAt (s : Sketch) (r : Registers ι) (h : Header) : Prop :=
  Reaches hash s r h ∧ (applySketch hash s (arrive hash s (start r h))).md.prune = 1

instance (s : Sketch) (r : Registers ι) (h : Header) : Decidable (Reaches hash s r h) :=
  inferInstanceAs (Decidable (_ ∧ _))

instance (s : Sketch) (r : Registers ι) (h : Header) : Decidable (DroppedAt hash s r h) :=
  inferInstanceAs (Decidable (_ ∧ _))

/-! ### From sketch to sketch -/

theorem prune_arrive_one (r : Registers ι) (h : Header) :
    (arrive hash .one (start r h)).md.prune = 0 := by
  rw [arrive, tableHashInit, Table.apply_install_one]
  split <;> rfl

/-- The first sketch takes every packet. -/
theorem leave_one (r : Registers ι) (h : Header) :
    leave hash .one r h = applySketch hash .one (arrive hash .one (start r h)) :=
  if_pos (prune_arrive_one hash r h)

/-- The next sketch gets the packet from the one before it. -/
theorem arrive_next {s t : Sketch} (hnext : s.rank = t.rank + 1) (r : Registers ι) (h : Header) :
    ∃ n, s.offset = t.offset + n ∧ arrive hash s (start r h) =
      (Table.install readsFlowId id [(1, addToHash n)]).apply (leave hash t r h) := by
  rcases Sketch.next_cases hnext with ⟨rfl, rfl⟩ | ⟨rfl, rfl⟩ | ⟨rfl, rfl⟩ | ⟨rfl, rfl⟩
  · refine ⟨3, rfl, ?_⟩
    rw [leave_one]
    rfl
  · exact ⟨2, rfl, rfl⟩
  · exact ⟨2, rfl, rfl⟩
  · exact ⟨2, rfl, rfl⟩

/-- The tables before a sketch leave its cells alone. -/
theorem spares_arrive (s : Sketch) (r : Registers ι) (h : Header) :
    Spares s (start r h) (arrive hash s (start r h)) := by
  have hearlier : ∀ t : Sketch, t.rank ≤ s.rank → Spares s (start r h) (arrive hash t (start r h)) := by
    intro t
    induction t using Sketch.chain with
    | hone => exact fun _ => spares_table spares_modifyHash _
    | hnext t u hrank ih =>
      intro hle
      have hne : s ≠ u := fun he => by rw [he] at hle; omega
      obtain ⟨n, _, harrive⟩ := arrive_next hash hrank r h
      rw [harrive]
      exact ((ih (by omega)).trans (spares_applyUnpruned hash hne _)).trans
        (spares_table (spares_addToHash n) _)
  exact hearlier s (Nat.le_refl _)

/-- The tables after a sketch leave its cells alone. -/
theorem spares_leave (s : Sketch) (r : Registers ι) (h : Header) :
    Spares s (leave hash s r h) (leave hash .five r h) := by
  have hlater : ∀ t : Sketch, s.rank ≤ t.rank → Spares s (leave hash s r h) (leave hash t r h) := by
    intro t
    induction t using Sketch.chain with
    | hone =>
      intro hle
      rw [Sketch.rank_inj (Nat.le_antisymm hle s.one_le_rank)]
      exact Spares.refl .one _
    | hnext t u hrank ih =>
      intro hle
      rcases Nat.lt_or_eq_of_le hle with hlt | heq
      · have hne : s ≠ t := fun he => by rw [he] at hlt; omega
        obtain ⟨n, _, harrive⟩ := arrive_next hash hrank r h
        rw [show leave hash t r h = applyUnpruned hash t (arrive hash t (start r h)) from rfl, harrive]
        exact ((ih (by omega)).trans (spares_table (spares_addToHash n) _)).trans
          (spares_applyUnpruned hash hne _)
      · rw [Sketch.rank_inj heq]
        exact Spares.refl t _
  exact hlater .five s.rank_le

/-! ### One sketch and one packet -/

section Flow
variable {h : Header} (hflow : h.flowId = 1) (s : Sketch) (r : Registers ι)
include hflow

theorem arrive_flowId : (arrive hash s (start r h)).hdr.flowId = 1 := by
  rw [(spares_arrive hash s r h).hdr]
  exact hflow

/-- A sketch leaves the header and the hash input alone. -/
theorem leave_hashValue :
    (leave hash s r h).hdr.flowId = 1 ∧
      (leave hash s r h).md.hashValue = (arrive hash s (start r h)).md.hashValue := by
  have hhdr := arrive_flowId hash hflow s r
  rw [leave, applyUnpruned]
  split
  · obtain ⟨same, heq⟩ := applySketch_eq hash s _ hhdr
    rw [heq]
    exact ⟨hhdr, rfl⟩
  · exact ⟨hhdr, rfl⟩

theorem arrive_hashValue : (arrive hash s (start r h)).md.hashValue = h.key + s.offset := by
  induction s using Sketch.chain with
  | hone =>
    rw [show arrive hash .one (start r h) = tableHashInit.apply (start r h) from rfl, tableHashInit,
      Table.apply_install_one, if_pos (show readsFlowId (start r h) = 1 from hflow)]
    exact (BitVec.add_zero _).symm
  | hnext t u hrank ih =>
    obtain ⟨n, hoffset, harrive⟩ := arrive_next hash hrank r h
    obtain ⟨hhdr, hhash⟩ := leave_hashValue hash hflow u r
    rw [harrive, Table.apply_install_one, if_pos (show readsFlowId (leave hash u r h) = 1 from hhdr),
      hoffset, ← BitVec.add_assoc, ← ih, ← hhash]
    rfl

/-- What both tables of a sketch do to a packet that gets there. -/
theorem applySketch_arrive :
    (applySketch hash s (arrive hash s (start r h))).md.prune =
        (if Prunes (r.sketchKey s (index hash s h.key)) (r.sketchValue s (index hash s h.key)) h
          then 1 else 0) ∧
      (applySketch hash s (arrive hash s (start r h))).regs.sketchKey s =
        Function.update (r.sketchKey s) (index hash s h.key) h.key ∧
      (applySketch hash s (arrive hash s (start r h))).regs.sketchValue s =
        Function.update (r.sketchValue s) (index hash s h.key)
          (if Prunes (r.sketchKey s (index hash s h.key)) (r.sketchValue s (index hash s h.key)) h
            then r.sketchValue s (index hash s h.key) else h.value) := by
  obtain ⟨hhdr, _, hkey, hvalue⟩ := spares_arrive hash s r h
  have hindex : hash s (arrive hash s (start r h)).md.hashValue = index hash s h.key := by
    rw [arrive_hashValue hash hflow s r]
    rfl
  obtain ⟨same, heq⟩ := applySketch_eq hash s _ (arrive_flowId hash hflow s r)
  rw [heq]
  generalize arrive hash s (start r h) = p at hhdr hkey hvalue hindex
  have hhdr : p.hdr = h := hhdr
  have hkey : p.regs.sketchKey s = r.sketchKey s := hkey
  have hvalue : p.regs.sketchValue s = r.sketchValue s := hvalue
  simp only [visit, hhdr, hkey, hvalue, hindex, Function.update_self, and_self]

end Flow

/-- A sketch marks the packets with the stored key that lie below the stored value. -/
theorem droppedAt_iff (s : Sketch) (r : Registers ι) (h : Header) :
    DroppedAt hash s r h ↔ Reaches hash s r h ∧
      Prunes (r.sketchKey s (index hash s h.key)) (r.sketchValue s (index hash s h.key)) h := by
  refine and_congr_right fun hreach => ?_
  rw [(applySketch_arrive hash hreach.1 s r).1]
  split
  · rename_i hp
    exact iff_of_true rfl hp
  · rename_i hp
    exact iff_of_false (by decide) hp

/-- The mark a sketch leaves is the one the next sketch finds. -/
theorem prune_arrive_next {s t : Sketch} (hnext : s.rank = t.rank + 1) (r : Registers ι) (h : Header) :
    (arrive hash s (start r h)).md.prune = (leave hash t r h).md.prune := by
  obtain ⟨n, _, harrive⟩ := arrive_next hash hnext r h
  rw [harrive, Table.apply_install_one]
  split <;> rfl

section Mark
variable {h : Header} (hflow : h.flowId = 1) (s : Sketch) (r : Registers ι)
include hflow

/-- A packet is unmarked after a sketch that takes it and lets it through, and marked after
any other. -/
theorem prune_leave_of
    (hbit : (arrive hash s (start r h)).md.prune = 0 ∨ (arrive hash s (start r h)).md.prune = 1) :
    (leave hash s r h).md.prune = if Reaches hash s r h ∧ ¬ DroppedAt hash s r h then 0 else 1 := by
  rw [leave, applyUnpruned]
  rcases hbit with hzero | hone
  · have hreach : Reaches hash s r h := ⟨hflow, hzero⟩
    have hdropped := droppedAt_iff hash s r h
    rw [if_pos hzero, (applySketch_arrive hash hflow s r).1]
    by_cases hp : Prunes (r.sketchKey s (index hash s h.key)) (r.sketchValue s (index hash s h.key)) h
    · rw [if_pos hp, if_neg fun hc => hc.2 (hdropped.mpr ⟨hreach, hp⟩)]
    · rw [if_neg hp, if_pos ⟨hreach, fun hc => hp (hdropped.mp hc).2⟩]
  · have hmarked : (arrive hash s (start r h)).md.prune ≠ 0 := by
      rw [hone]
      decide
    rw [if_neg hmarked, if_neg fun hc => hmarked hc.1.2, hone]

theorem prune_leave :
    (leave hash s r h).md.prune = if Reaches hash s r h ∧ ¬ DroppedAt hash s r h then 0 else 1 := by
  induction s using Sketch.chain with
  | hone => exact prune_leave_of hash hflow .one r (Or.inl (prune_arrive_one hash r h))
  | hnext t u hrank ih =>
    refine prune_leave_of hash hflow t r ?_
    rw [prune_arrive_next hash hrank, ih]
    split
    · exact Or.inl rfl
    · exact Or.inr rfl

end Mark

/-- A sketch takes what the one before it takes and lets through. -/
theorem reaches_next {s t : Sketch} (hnext : s.rank = t.rank + 1) (r : Registers ι) (h : Header) :
    Reaches hash s r h ↔ Reaches hash t r h ∧ ¬ DroppedAt hash t r h := by
  by_cases hflow : h.flowId = 1
  · rw [Reaches, prune_arrive_next hash hnext, prune_leave hash hflow, and_iff_right hflow]
    split
    · rename_i hc
      exact iff_of_true rfl hc
    · rename_i hc
      exact iff_of_false (by decide) hc
  · exact iff_of_false (fun hr => hflow hr.1) fun hr => hflow hr.1.1

/-- **A sketch takes a packet exactly when** no sketch before it marks it. -/
theorem reaches_iff (s : Sketch) (r : Registers ι) (h : Header) :
    Reaches hash s r h ↔ h.flowId = 1 ∧ ∀ t : Sketch, t.rank < s.rank → ¬ DroppedAt hash t r h := by
  induction s using Sketch.chain with
  | hone =>
    refine and_congr_right fun _ => iff_of_true (prune_arrive_one hash r h) fun t ht => ?_
    exact absurd ht (Nat.not_lt.mpr t.one_le_rank)
  | hnext s t hrank ih =>
    rw [reaches_next hash hrank, ih, and_assoc]
    refine and_congr_right fun _ => ⟨fun hbefore u hu => ?_, fun hbefore => ⟨fun u hu => ?_, ?_⟩⟩
    · rcases Nat.lt_or_eq_of_le (Nat.le_of_lt_succ (hrank ▸ hu)) with hlt | heq
      · exact hbefore.1 u hlt
      · rw [Sketch.rank_inj heq]
        exact hbefore.2
    · exact hbefore u (by omega)
    · exact hbefore t (by omega)

/-- The sketches of `ingress` end with the fifth. -/
theorem applySketches_start (r : Registers ι) (h : Header) :
    applySketches hash (start r h) = leave hash .five r h := rfl

theorem ingress_start (r : Registers ι) (h : Header) :
    ingress hash (start r h) = if (leave hash .five r h).md.prune = 1 then
      tablePrune.apply (leave hash .five r h) else leave hash .five r h := by
  rw [ingress, applySketches_start]

theorem switch_start (r : Registers ι) (h : Header) :
    (switch hash).step r h = (ingress hash (start r h)).regs ∧
      (switch hash).drops r h = (ingress hash (start r h)).dropped := by
  simp only [switch, pruner_step, pruner_drops, start, and_self]

/-- A packet that leaves the last sketch has not been dropped yet. -/
theorem leave_five (r : Registers ι) (h : Header) :
    (leave hash .five r h).hdr = h ∧ (leave hash .five r h).dropped = false := by
  have harrive := spares_arrive hash .five r h
  have hleave : Spares .one (arrive hash .five (start r h)) (leave hash .five r h) :=
    spares_applyUnpruned hash (by decide) _
  exact ⟨hleave.hdr.trans harrive.hdr, hleave.dropped.trans harrive.dropped⟩

/-- **A packet is dropped exactly when** some sketch marks it. -/
theorem drops_iff_droppedAt (r : Registers ι) (h : Header) :
    (switch hash).drops r h = true ↔ ∃ s, DroppedAt hash s r h := by
  obtain ⟨hhdr, hkept⟩ := leave_five hash r h
  rw [(switch_start hash r h).2, ingress_start]
  by_cases hflow : h.flowId = 1
  · have hsome : (∃ s, DroppedAt hash s r h) ↔
        ¬ (Reaches hash .five r h ∧ ¬ DroppedAt hash .five r h) := by
      rw [reaches_iff, and_iff_right hflow]
      constructor
      · intro hdropped hnone
        obtain ⟨s, hs⟩ := hdropped
        rcases Nat.lt_or_eq_of_le s.rank_le with hlt | heq
        · exact hnone.1 s hlt hs
        · rw [Sketch.rank_inj (t := .five) heq] at hs
          exact hnone.2 hs
      · intro hsome
        by_contra hnone
        exact hsome ⟨fun t _ ht => hnone ⟨t, ht⟩, fun ht => hnone ⟨_, ht⟩⟩
    rw [hsome, prune_leave hash hflow]
    by_cases hthrough : Reaches hash .five r h ∧ ¬ DroppedAt hash .five r h
    · rw [if_pos hthrough, if_neg (by decide), hkept]
      exact iff_of_false Bool.false_ne_true fun hc => hc hthrough
    · rw [if_neg hthrough, if_pos rfl, tablePrune_dropped hkept, hhdr]
      exact iff_of_true hflow hthrough
  · refine iff_of_false ?_ fun hd => ?_
    · split
      · rw [tablePrune_dropped hkept, hhdr]
        exact hflow
      · rw [hkept]
        exact Bool.false_ne_true
    · obtain ⟨s, hs⟩ := hd
      exact hflow hs.1.1

/-- A step leaves the cells of a sketch as the sketch does. -/
theorem step_eq_leave (s : Sketch) (r : Registers ι) (h : Header) :
    ((switch hash).step r h).sketchKey s = (leave hash s r h).regs.sketchKey s ∧
      ((switch hash).step r h).sketchValue s = (leave hash s r h).regs.sketchValue s := by
  have hregs : (ingress hash (start r h)).regs = (leave hash .five r h).regs := by
    rw [ingress_start]
    split
    · exact tablePrune_regs _
    · rfl
  obtain ⟨_, _, hkey, hvalue⟩ := spares_leave hash s r h
  rw [(switch_start hash r h).1, hregs]
  exact ⟨hkey, hvalue⟩

/-- **A packet that gets to a sketch** is stored in its cell, unless the cell marks it. -/
theorem step_reached {s : Sketch} {r : Registers ι} {h : Header} (hreach : Reaches hash s r h) :
    ((switch hash).step r h).sketchKey s = Function.update (r.sketchKey s) (index hash s h.key) h.key ∧
      ((switch hash).step r h).sketchValue s = Function.update (r.sketchValue s) (index hash s h.key)
        (if Prunes (r.sketchKey s (index hash s h.key)) (r.sketchValue s (index hash s h.key)) h
          then r.sketchValue s (index hash s h.key) else h.value) := by
  obtain ⟨hkey, hvalue⟩ := step_eq_leave hash s r h
  rw [hkey, hvalue, leave, applyUnpruned, if_pos hreach.2]
  exact (applySketch_arrive hash hreach.1 s r).2

/-- A packet that does not get to a sketch leaves its cells alone. -/
theorem step_missed {s : Sketch} {r : Registers ι} {h : Header} (hmiss : ¬ Reaches hash s r h) :
    ((switch hash).step r h).sketchKey s = r.sketchKey s ∧
      ((switch hash).step r h).sketchValue s = r.sketchValue s := by
  obtain ⟨hkey, hvalue⟩ := step_eq_leave hash s r h
  obtain ⟨hhdr, _, hkey', hvalue'⟩ := spares_arrive hash s r h
  have hregs : (leave hash s r h).regs = (arrive hash s (start r h)).regs := by
    rw [leave, applyUnpruned]
    split
    · rename_i hzero
      have hflow : (arrive hash s (start r h)).hdr.flowId ≠ 1 := by
        rw [hhdr]
        exact fun hflow => hmiss ⟨hflow, hzero⟩
      rw [applySketch, tableSketchKey, Table.apply_install_one, readsFlowId, if_neg hflow, id_eq,
        tableSketchValue, Table.apply_install_one, readsFlowId, if_neg hflow, id_eq]
    · rfl
  rw [hkey, hvalue, hregs]
  exact ⟨hkey', hvalue'⟩

/-! ### A run -/

/-- The largest value of some packets, 0 for none. -/
def highest (hs : List Header) : Nat := hs.foldl (fun top h => max top h.value.toNat) 0

/-- The packets of a run that reach the cell of a sketch, from the one on that last changed
its key. -/
def sinceKeyChange (s : Sketch) (i : ι) (ps : List Header) : List Header :=
  (switch hash).pickedSince (fun r => r.sketchKey s i)
    (fun r h => Reaches hash s r h ∧ index hash s h.key = i) Registers.zero ps

/-- A value cell holds the largest value since its key changed. -/
theorem sketchValue_run (s : Sketch) (i : ι) (ps : List Header) :
    (((switch hash).run Registers.zero ps).sketchValue s i).toNat =
      highest (sinceKeyChange hash s i ps) := by
  refine (switch hash).cell_eq_foldl (f := fun r => r.sketchKey s i)
    (v := fun r => (r.sketchValue s i).toNat) rfl ?_ ?_ ?_ ps
  · intro r h hother
    have hother := of_decide_eq_false hother
    by_cases hreach : Reaches hash s r h
    · have hne : i ≠ index hash s h.key := fun hi => hother ⟨hreach, hi.symm⟩
      obtain ⟨hkey, hvalue⟩ := step_reached hash hreach
      rw [hkey, hvalue, Function.update_of_ne hne, Function.update_of_ne hne]
      exact ⟨rfl, rfl⟩
    · obtain ⟨hkey, hvalue⟩ := step_missed hash hreach
      rw [hkey, hvalue]
      exact ⟨rfl, rfl⟩
  · intro r h hhere hsame
    obtain ⟨hreach, rfl⟩ := of_decide_eq_true hhere
    obtain ⟨hkey, hvalue⟩ := step_reached hash hreach
    rw [hkey, Function.update_self] at hsame
    rw [hvalue, Function.update_self]
    by_cases hlt : h.value < r.sketchValue s (index hash s h.key)
    · rw [if_pos ⟨hsame.symm, hlt⟩]
      exact (Nat.max_eq_left (Nat.le_of_lt hlt)).symm
    · rw [if_neg fun hp => hlt hp.2]
      exact (Nat.max_eq_right (Nat.le_of_not_lt hlt)).symm
  · intro r h hhere hchange
    obtain ⟨hreach, rfl⟩ := of_decide_eq_true hhere
    obtain ⟨hkey, hvalue⟩ := step_reached hash hreach
    rw [hkey, Function.update_self] at hchange
    rw [hvalue, Function.update_self, if_neg fun hp => hchange hp.1.symm]
    exact (Nat.max_eq_right (Nat.zero_le _)).symm

/-- **The drop condition of a sketch**, after any run: a value cell holds the largest value
since its key changed; a packet gets to the sketch when no sketch before it marks it, and
is marked there when its key is stored with a larger value; what is marked is dropped. -/
theorem sketch_drops_iff (ps : List Header) (s : Sketch) :
    let r := (switch hash).run Registers.zero ps
    (∀ i, (r.sketchValue s i).toNat = highest (sinceKeyChange hash s i ps)) ∧
      ∀ h, (Reaches hash s r h ↔ h.flowId = 1 ∧ ∀ t : Sketch, t.rank < s.rank → ¬ DroppedAt hash t r h) ∧
        (DroppedAt hash s r h ↔ Reaches hash s r h ∧ h.key = r.sketchKey s (index hash s h.key) ∧
          h.value.toNat < highest (sinceKeyChange hash s (index hash s h.key) ps)) ∧
        ((switch hash).drops r h = true ↔ ∃ t, DroppedAt hash t r h) := by
  intro r
  refine ⟨fun i => sketchValue_run hash s i ps, fun h => ⟨reaches_iff hash s r h, ?_,
    drops_iff_droppedAt hash r h⟩⟩
  rw [droppedAt_iff, Prunes, eq_comm, BitVec.lt_def, sketchValue_run]

end Stages
end Cheetah.DataPlane.Groupby
