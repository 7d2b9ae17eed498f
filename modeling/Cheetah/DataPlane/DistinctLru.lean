import Cheetah.DataPlane.DistinctCache

/-! The four stages against a cache of four entries per slot.

When no two values share a half the marks do not interfere, and the first three stages are
what they should be. The fourth takes what the third was given instead of what it hands on,
so it repeats a value as soon as a slot has seen three. -/
namespace Cheetah.DataPlane.Distinct
open Lib

/-- The entry of the cache a stage is for. -/
def Stage.position : Stage → Nat
  | .one => 0
  | .two => 1
  | .three => 2
  | .four => 3

/-- Halves that are not zero and have no top bit, and differ when the values do. -/
structure Separated (ps : List Header) : Prop where
  clear : ∀ p ∈ ps, Clear p.pair
  nonzero : ∀ p ∈ ps, p.valueHi ≠ 0 ∧ p.valueLo ≠ 0
  differ : ∀ p ∈ ps, ∀ q ∈ ps, p.pair ≠ q.pair → p.valueHi ≠ q.valueHi ∧ p.valueLo ≠ q.valueLo

section Lru
variable {ι : Type} [DecidableEq ι] (lruCacheHash : Word → Word → ι)

/-- The stages hold the four most recent distinct values of every slot, and a packet is
dropped when its value is among those of its slot. -/
structure FourEntryLru (ps : List Header) : Prop where
  stages : ∀ pre post, ps = pre ++ post → ∀ s i,
    held ((switch lruCacheHash).run Registers.zero pre) s i = recentPair lruCacheHash pre i s.position
  drops : ∀ pre p post, ps = pre ++ p :: post →
    ((switch lruCacheHash).drops ((switch lruCacheHash).run Registers.zero pre) p = true ↔
      p.pair ∈ (recent (slotPairs lruCacheHash pre (slot lruCacheHash p))).take 4)

variable {ps : List Header} {p : Header}

/-! ### Separated values -/

theorem Separated.of_subset {qs : List Header} (h : Separated ps) (hsub : qs ⊆ ps) : Separated qs where
  clear p hp := h.clear p (hsub hp)
  nonzero p hp := h.nonzero p (hsub hp)
  differ p hp q hq := h.differ p (hsub hp) q (hsub hq)

theorem Separated.pair_ne_zero (h : Separated ps) (hp : p ∈ ps) : p.pair ≠ (0, 0) := by
  intro hzero
  exact (h.nonzero p hp).1 (congrArg Prod.fst hzero)

/-- Separated values never match in one half. -/
theorem Separated.not_halfMatch (h : Separated (ps ++ [p])) (i : ι) (k : Nat) :
    ¬ HalfMatch p (recentPair lruCacheHash ps i k) := by
  have hp : p ∈ ps ++ [p] := List.mem_append_right _ (List.mem_singleton.mpr rfl)
  rw [HalfMatch, not_not]
  have hcame : recentPair lruCacheHash ps i k = (0, 0) ∨
      recentPair lruCacheHash ps i k ∈ slotPairs lruCacheHash ps i := recentPair_mem k
  rcases hcame with hzero | hmem
  · rw [hzero]
    exact iff_of_false (h.nonzero p hp).1 (h.nonzero p hp).2
  · obtain ⟨q, hq, hpair⟩ := mem_slotPairs hmem
    rw [← hpair]
    by_cases heq : p.pair = q.pair
    · exact iff_of_true (congrArg Prod.fst heq) (congrArg Prod.snd heq)
    · obtain ⟨hhi, hlo⟩ := h.differ p hp q (List.mem_append_left _ hq) heq
      exact iff_of_false hhi hlo

theorem Separated.noHalfMatch (h : Separated ps) : NoHalfMatch lruCacheHash ps := by
  intro pre p post he
  have hsep : Separated (pre ++ [p]) := h.of_subset (by rw [he]; simp)
  exact ⟨hsep.not_halfMatch lruCacheHash _ 0, Or.inr (hsep.not_halfMatch lruCacheHash _ 1)⟩

/-- The filler is no value. -/
theorem Separated.recentPair_eq_zero_iff (h : Separated ps) (i : ι) (k : Nat) :
    recentPair lruCacheHash ps i k = (0, 0) ↔ (recent (slotPairs lruCacheHash ps i)).length ≤ k := by
  rw [recentPair, List.getD_eq_getElem?_getD]
  constructor
  · intro hzero
    by_contra hlt
    have hk := List.getElem?_eq_getElem (Nat.lt_of_not_le hlt)
    obtain ⟨q, hq, hpair⟩ := mem_slotPairs (mem_recent.mp (List.mem_of_getElem? hk))
    rw [hk, Option.getD_some, ← hpair] at hzero
    exact h.pair_ne_zero hq hzero
  · intro hle
    rw [List.getElem?_eq_none hle, Option.getD_none]

/-- A value is among the first recent ones when it is at one of their positions. -/
theorem Separated.mem_take_iff (h : Separated (ps ++ [p])) (i : ι) (n : Nat) :
    p.pair ∈ (recent (slotPairs lruCacheHash ps i)).take n ↔
      ∃ k < n, recentPair lruCacheHash ps i k = p.pair := by
  have hne := h.pair_ne_zero (List.mem_append_right ps (List.mem_singleton.mpr (rfl : p = p)))
  have hat : ∀ k, recentPair lruCacheHash ps i k = p.pair ↔
      (recent (slotPairs lruCacheHash ps i))[k]? = some p.pair := by
    intro k
    rw [recentPair, List.getD_eq_getElem?_getD]
    cases (recent (slotPairs lruCacheHash ps i))[k]? with
    | none => exact iff_of_false (Ne.symm hne) (by simp)
    | some v => rw [Option.getD_some, Option.some.injEq]
  rw [List.mem_iff_getElem?]
  constructor
  · intro hmem
    obtain ⟨k, hk⟩ := hmem
    rw [List.getElem?_take] at hk
    split at hk
    · exact ⟨k, ‹k < n›, (hat k).mpr hk⟩
    · cases hk
  · intro hpos
    obtain ⟨k, hkn, hk⟩ := hpos
    exact ⟨k, by rw [List.getElem?_take, if_pos hkn, (hat k).mp hk]⟩

/-! ### The fourth stage -/

/-- A packet adds its value to the distinct ones of its slot, unless it is there. -/
theorem length_recent_concat (i : ι) :
    (recent (slotPairs lruCacheHash (ps ++ [p]) i)).length =
      (recent (slotPairs lruCacheHash ps i)).length +
        if i = slot lruCacheHash p ∧ p.pair ∉ slotPairs lruCacheHash ps i then 1 else 0 := by
  rw [length_recent, length_recent]
  by_cases hi : i = slot lruCacheHash p
  · subst hi
    rw [slotPairs_concat_self]
    by_cases hmem : p.pair ∈ slotPairs lruCacheHash ps (slot lruCacheHash p)
    · rw [eraseDups_concat_of_mem hmem, if_neg fun h => h.2 hmem, Nat.add_zero]
    · rw [eraseDups_concat_of_not_mem hmem, if_pos ⟨rfl, hmem⟩, List.length_append, List.length_singleton]
  · rw [slotPairs_concat_of_ne hi, if_neg fun h => hi h.1, Nat.add_zero]

/-- **The fourth stage** holds a value as soon as its slot has seen three. -/
theorem four_eq_zero_iff (hflow : ∀ p ∈ ps, p.flowId = 1) (hsep : Separated ps) (i : ι) :
    held ((switch lruCacheHash).run Registers.zero ps) .four i = (0, 0) ↔
      (recent (slotPairs lruCacheHash ps i)).length ≤ 2 := by
  induction ps using List.reverseRecOn with
  | nil => exact iff_of_true rfl (Nat.zero_le 2)
  | append_singleton ps p ih =>
    have hps : ∀ q ∈ ps, q ∈ ps ++ [p] := fun q hq => List.mem_append_left _ hq
    have hp : p ∈ ps ++ [p] := List.mem_append_right _ (List.mem_singleton.mpr rfl)
    have hold : Separated ps := hsep.of_subset hps
    have hcaches := caches_run (fun q hq => hflow q (hps q hq)) hold.clear (hold.noHalfMatch lruCacheHash)
    obtain ⟨sig1, sig2, sig3⟩ := hcaches.signals (p := p) hold.clear
    have ih := ih (fun q hq => hflow q (hps q hq)) hold
    rw [Lib.Pruner.run_concat, switch_held lruCacheHash _ p (hflow p hp), length_recent_concat]
    by_cases hi : i = slot lruCacheHash p
    · subst hi
      have hfound : ∀ k, recentPair lruCacheHash ps (slot lruCacheHash p) k = p.pair →
          p.pair ∈ slotPairs lruCacheHash ps (slot lruCacheHash p) := fun k hk =>
        hk ▸ (recentPair_mem k).resolve_left (by rw [hk]; exact hsep.pair_ne_zero hp)
      rw [if_pos rfl]
      simp only [shifted, sig1, sig2, sig3]
      split
      · -- found in one of the first three stages: nothing reaches the fourth
        rename_i hhit
        have hmem : p.pair ∈ slotPairs lruCacheHash ps (slot lruCacheHash p) :=
          hhit.elim (hfound 0) fun h => h.elim (hfound 1) (hfound 2)
        rw [if_neg fun h => h.2 hmem, Nat.add_zero]
        exact ih
      · rename_i hmiss
        rw [not_or, not_or] at hmiss
        rw [hcaches.two, handOn_of_ne (hsep.not_halfMatch lruCacheHash _ 1) hmiss.2.1,
          hold.recentPair_eq_zero_iff lruCacheHash]
        by_cases hmem : p.pair ∈ slotPairs lruCacheHash ps (slot lruCacheHash p)
        · -- found past the third position, so there are more than three
          obtain ⟨k, hk, hpair⟩ := (hsep.mem_take_iff lruCacheHash _ _).mp
            (by rw [List.take_length]; exact mem_recent.mpr hmem)
          have hk3 : 3 ≤ k := by
            by_contra hlt
            have hcases : k = 0 ∨ k = 1 ∨ k = 2 := by omega
            rcases hcases with rfl | rfl | rfl
            · exact hmiss.1 hpair
            · exact hmiss.2.1 hpair
            · exact hmiss.2.2 hpair
          rw [if_neg fun h => h.2 hmem]
          omega
        · rw [if_pos ⟨trivial, hmem⟩]
          omega
    · rw [if_neg hi, if_neg fun h => hi h.1, Nat.add_zero]
      exact ih

/-! ### Packets of other flows -/

theorem applyStage_other (s : Stage) (otherwise : Packet ι → Packet ι) (q : Packet ι)
    (hflow : q.hdr.flowId ≠ 1) (hmark : ∀ m, ¬ Marked (q.md m)) :
    applyStage lruCacheHash s otherwise q = otherwise q := by
  rw [applyStage, lruCacheLo_miss lruCacheHash s q hflow, lruCacheHi_miss lruCacheHash s q hflow,
    if_neg (hmark s.dest)]

/-- A packet of another flow passes and changes nothing, when its value has no top bits. -/
theorem switch_other (r : Registers ι) (hflow : p.flowId ≠ 1) (hclear : Clear p.pair) :
    (switch lruCacheHash).step r p = r ∧ (switch lruCacheHash).drops r p = false := by
  have hmark : ∀ m, ¬ Marked ((copyToMetadataAction (⟨p, parseCheetah p, r, false⟩ : Packet ι)).md m) := by
    intro m hmarked
    cases m with
    | md => exact absurd (hclear.1.symm.trans hmarked.2) (by decide)
    | md2 => exact absurd hmarked.1 (by decide : ¬ (0 : Word) &&& 0x80000000 = 0x80000000)
  have hflow' : (copyToMetadataAction (⟨p, parseCheetah p, r, false⟩ : Packet ι)).hdr.flowId ≠ 1 := hflow
  rw [switch, pruner_step, pruner_drops, ingress, metadataCopyTable_apply,
    applyStage_other lruCacheHash _ _ _ hflow' hmark, applyStage_other lruCacheHash _ _ _ hflow' hmark,
    applyStage_other lruCacheHash _ _ _ hflow' hmark, applyStage_other lruCacheHash _ _ _ hflow' hmark]
  exact ⟨rfl, rfl⟩

/-! ### When the stages are the cache -/

variable {lruCacheHash}

theorem FourEntryLru.of_concat (h : FourEntryLru lruCacheHash (ps ++ [p])) : FourEntryLru lruCacheHash ps where
  stages := (forall_prefix_concat.mp h.stages).1
  drops := (forall_split_concat.mp h.drops).1

/-- While a slot has seen at most two values the stages hold what they should. -/
theorem held_eq_recentPair (hflow : ∀ p ∈ ps, p.flowId = 1) (hsep : Separated ps) {i : ι}
    (htwo : (recent (slotPairs lruCacheHash ps i)).length ≤ 2) (s : Stage) :
    held ((switch lruCacheHash).run Registers.zero ps) s i = recentPair lruCacheHash ps i s.position := by
  have hcaches := caches_run hflow hsep.clear (hsep.noHalfMatch lruCacheHash)
  cases s with
  | one => exact hcaches.one i
  | two => exact hcaches.two i
  | three => exact hcaches.three i
  | four =>
    have hfiller := (hsep.recentPair_eq_zero_iff lruCacheHash i 3).mpr (by omega)
    rw [(four_eq_zero_iff lruCacheHash hflow hsep i).mpr htwo]
    exact hfiller.symm

/-- Then a packet is dropped when its value is among the four recent ones. -/
theorem drops_iff_recent (hflow : ∀ q ∈ ps ++ [p], q.flowId = 1) (hsep : Separated (ps ++ [p]))
    (htwo : (recent (slotPairs lruCacheHash ps (slot lruCacheHash p))).length ≤ 2) :
    (switch lruCacheHash).drops ((switch lruCacheHash).run Registers.zero ps) p = true ↔
      p.pair ∈ (recent (slotPairs lruCacheHash ps (slot lruCacheHash p))).take 4 := by
  have hps : ∀ q ∈ ps, q ∈ ps ++ [p] := fun q hq => List.mem_append_left _ hq
  have hold : Separated ps := hsep.of_subset hps
  have hheld := held_eq_recentPair (fun q hq => hflow q (hps q hq)) hold htwo
  rw [switch_drops lruCacheHash _ p (hflow p (by simp)), hsep.mem_take_iff lruCacheHash]
  have hsignals : ∀ s, Signals lruCacheHash ((switch lruCacheHash).run Registers.zero ps s) p ↔
      recentPair lruCacheHash ps (slot lruCacheHash p) s.position = p.pair := by
    intro s
    have hclear : Clear (recentPair lruCacheHash ps (slot lruCacheHash p) s.position) :=
      clear_of_mem hold.clear (recentPair_mem s.position)
    rw [← hheld s] at hclear ⊢
    exact signals_iff hclear
  constructor
  · intro h
    obtain ⟨s, hs⟩ := h
    exact ⟨s.position, by cases s <;> decide, (hsignals s).mp hs⟩
  · intro h
    obtain ⟨k, hk, hpair⟩ := h
    obtain ⟨s, rfl⟩ : ∃ s : Stage, s.position = k := by
      have hcases : k = 0 ∨ k = 1 ∨ k = 2 ∨ k = 3 := by omega
      rcases hcases with rfl | rfl | rfl | rfl
      · exact ⟨.one, rfl⟩
      · exact ⟨.two, rfl⟩
      · exact ⟨.three, rfl⟩
      · exact ⟨.four, rfl⟩
    exact ⟨s, (hsignals s).mpr hpair⟩

/-- **The four stages are a cache of four entries exactly when** every packet belongs to the
query's flow and no slot sees more than two values. -/
theorem four_entry_lru_iff (hsep : Separated ps) :
    FourEntryLru lruCacheHash ps ↔
      (∀ p ∈ ps, p.flowId = 1) ∧ ∀ i, (recent (slotPairs lruCacheHash ps i)).length ≤ 2 := by
  constructor
  · intro h
    induction ps using List.reverseRecOn with
    | nil => exact ⟨fun p hp => absurd hp List.not_mem_nil, fun i => Nat.zero_le 2⟩
    | append_singleton ps p ih =>
      have hps : ∀ q ∈ ps, q ∈ ps ++ [p] := fun q hq => List.mem_append_left _ hq
      obtain ⟨hflow, htwo⟩ := ih (hsep.of_subset hps) h.of_concat
      have hstages := (forall_prefix_concat.mp h.stages).2
      have hdrops := (forall_split_concat.mp h.drops).2
      have hp : p.flowId = 1 := by
        -- otherwise the first stage already held the value, yet the packet was not dropped
        by_contra hne
        obtain ⟨hstep, hpass⟩ := switch_other lruCacheHash
          ((switch lruCacheHash).run Registers.zero ps) hne (hsep.clear p (by simp))
        have hfirst := hstages .one (slot lruCacheHash p)
        rw [Lib.Pruner.run_concat, hstep, h.stages ps [p] rfl .one] at hfirst
        have hrecent : recentPair lruCacheHash ps (slot lruCacheHash p) 0 = p.pair :=
          hfirst.trans recentPair_front
        rw [hdrops.mpr ((hsep.mem_take_iff lruCacheHash _ 4).mpr ⟨0, by decide, hrecent⟩)] at hpass
        cases hpass
      have hflow' : ∀ q ∈ ps ++ [p], q.flowId = 1 := by
        intro q hq
        rcases List.mem_append.mp hq with hq | hq
        · exact hflow q hq
        · rwa [List.mem_singleton.mp hq]
      refine ⟨hflow', fun i => ?_⟩
      by_contra hmore
      -- the fourth stage holds a value, where the cache has at most three
      have hfour := mt (four_eq_zero_iff lruCacheHash hflow' hsep i).mp hmore
      rw [hstages .four i, show Stage.four.position = 3 from rfl,
        hsep.recentPair_eq_zero_iff lruCacheHash i 3, length_recent_concat lruCacheHash i] at hfour
      have hold := htwo i
      split at hfour <;> omega
  · intro h
    obtain ⟨hflow, htwo⟩ := h
    have hpart : ∀ pre post, ps = pre ++ post → ∀ i,
        (recent (slotPairs lruCacheHash pre i)).length ≤ 2 := by
      intro pre post he i
      refine Nat.le_trans ?_ (htwo i)
      rw [length_recent, length_recent, he]
      refine length_eraseDups_le_of_subset ?_
      intro v hv
      rw [slotPairs, List.filter_append, List.map_append]
      exact List.mem_append_left _ hv
    refine ⟨fun pre post he s i => ?_, fun pre p post he => ?_⟩
    · have hsub : pre ⊆ ps := by rw [he]; simp
      exact held_eq_recentPair (fun q hq => hflow q (hsub hq)) (hsep.of_subset hsub) (hpart pre post he i) s
    · have hsub : pre ++ [p] ⊆ ps := by rw [he]; simp
      exact drops_iff_recent (fun q hq => hflow q (hsub hq)) (hsep.of_subset hsub) (hpart pre (p :: post) he _)

end Lru

/-- Two values in one slot. -/
theorem four_entry_lru_iff_two :
    FourEntryLru (fun _ _ => ()) [⟨1, 0, 1, 2⟩, ⟨1, 1, 3, 4⟩] ↔
      (∀ p ∈ ([⟨1, 0, 1, 2⟩, ⟨1, 1, 3, 4⟩] : List Header), p.flowId = 1) ∧
        ∀ i, (recent (slotPairs (fun _ _ => ()) [⟨1, 0, 1, 2⟩, ⟨1, 1, 3, 4⟩] i)).length ≤ 2 :=
  four_entry_lru_iff ⟨by decide, by decide, by decide⟩

/-- Four values in one slot and then the first again: it is among the four, and comes out. -/
theorem fourth_value_forgotten :
    Separated [⟨1, 0, 1, 2⟩, ⟨1, 1, 3, 4⟩, ⟨1, 2, 5, 6⟩, ⟨1, 3, 7, 8⟩, ⟨1, 4, 1, 2⟩] ∧
      ¬ FourEntryLru (fun _ _ => ())
        [⟨1, 0, 1, 2⟩, ⟨1, 1, 3, 4⟩, ⟨1, 2, 5, 6⟩, ⟨1, 3, 7, 8⟩, ⟨1, 4, 1, 2⟩] := by
  refine ⟨⟨by decide, by decide, by decide⟩, fun h => ?_⟩
  have hdrops := h.drops [⟨1, 0, 1, 2⟩, ⟨1, 1, 3, 4⟩, ⟨1, 2, 5, 6⟩, ⟨1, 3, 7, 8⟩] ⟨1, 4, 1, 2⟩ [] rfl
  have hpass : (switch fun _ _ => ()).drops ((switch fun _ _ => ()).run Registers.zero
      [⟨1, 0, 1, 2⟩, ⟨1, 1, 3, 4⟩, ⟨1, 2, 5, 6⟩, ⟨1, 3, 7, 8⟩]) ⟨1, 4, 1, 2⟩ = false := by decide
  rw [hpass] at hdrops
  exact absurd (hdrops.mpr (by decide)) (by decide)

end Cheetah.DataPlane.Distinct
