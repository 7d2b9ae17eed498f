import Cheetah.DataPlane.Distinct
import Cheetah.Lib.Recency
import Cheetah.Lib.Splits

/-! The four stages of `cheetah_distinct.p4` as a cache of the recent values of a slot.

`switch_held` is one packet: the stages before the one that signals shift by one, and the
fourth takes what the third was given. `Caches` is what a run keeps while no half is marked
on the way to a stage: the first three stages hold the most recent distinct values of a slot
in order, and the fourth one of them. The two main results say when a mark is stored and
when the four stages are the cache of four entries they are laid out as. -/
namespace Cheetah.DataPlane.Distinct
open Lib

/-- The two halves a packet carries. -/
def Header.pair (h : Header) : Word × Word := (h.valueHi, h.valueLo)

section Step
variable {ι : Type} [DecidableEq ι] (lruCacheHash : Word → Word → ι)

/-- What a stage holds afterwards at the slot of a packet. -/
def shifted (r : Registers ι) (h : Header) : Stage → Word × Word
  | .one => h.pair
  | .two =>
    if Signals lruCacheHash (r .one) h then held r .two (slot lruCacheHash h)
    else handOn h (held r .one (slot lruCacheHash h))
  | .three =>
    if Signals lruCacheHash (r .one) h ∨ Signals lruCacheHash (r .two) h then
      held r .three (slot lruCacheHash h)
    else handOn h (held r .two (slot lruCacheHash h))
  | .four =>
    if Signals lruCacheHash (r .one) h ∨ Signals lruCacheHash (r .two) h ∨
        Signals lruCacheHash (r .three) h then held r .four (slot lruCacheHash h)
    else handOn h (held r .two (slot lruCacheHash h))

/-- Stages leave the cells of the others alone. -/
theorem foldr_applyStage_frame {stages : List Stage} {t : Stage} (ht : t ∉ stages) (p : Packet ι)
    (hflow : p.hdr.flowId = 1) : (stages.foldr (applyStage lruCacheHash) id p).regs t = p.regs t := by
  induction stages generalizing p with
  | nil => rfl
  | cons s rest ih =>
    obtain ⟨p', hhdr, -, hregs, -, -, heq⟩ :=
      applyStage_eq lruCacheHash s (rest.foldr (applyStage lruCacheHash) id) p hflow
    have hne : t ≠ s := fun he => ht (he ▸ List.mem_cons_self)
    rw [List.foldr_cons, heq]
    split
    · exact hregs t hne
    · rw [ih (fun hmem => ht (List.mem_cons_of_mem _ hmem)) p' (by rw [hhdr]; exact hflow), hregs t hne]

/-- What an instance of the metadata holds after some stages, none of which stops the packet. -/
def handed (r : Registers ι) (h : Header) (g : Instance → Word × Word) : List Stage → Instance → Word × Word
  | [] => g
  | s :: rest =>
    handed r h (fun m => if m = s.dest then handOn h (held r s (slot lruCacheHash h)) else g m) rest

section Chain
variable {pre post : List Stage} {t : Stage} {r : Registers ι}

/-- A stage after one that stops the packet keeps what it holds. -/
theorem foldr_applyStage_stopped (hnodup : (pre ++ t :: post).Nodup) (p : Packet ι)
    (hflow : p.hdr.flowId = 1) (hr : ∀ s ∈ pre ++ t :: post, p.regs s = r s)
    (hstop : ∃ s ∈ pre, Signals lruCacheHash (r s) p.hdr) :
    ((pre ++ t :: post).foldr (applyStage lruCacheHash) id p).regs t = r t := by
  induction pre generalizing p with
  | nil =>
    obtain ⟨s, hs, _⟩ := hstop
    exact absurd hs List.not_mem_nil
  | cons s pre ih =>
    obtain ⟨hs, hnodup⟩ := List.nodup_cons.mp hnodup
    have hkeep : ∀ u ∈ pre ++ t :: post, u ≠ s := fun u hu he => hs (he ▸ hu)
    have ht : t ∈ pre ++ t :: post := by simp
    obtain ⟨p', hhdr, -, hregs, -, -, heq⟩ := applyStage_eq lruCacheHash s
      ((pre ++ t :: post).foldr (applyStage lruCacheHash) id) p hflow
    have hr' : ∀ u ∈ pre ++ t :: post, p'.regs u = r u := fun u hu =>
      (hregs u (hkeep u hu)).trans (hr u (List.mem_cons_of_mem _ hu))
    rw [List.cons_append, List.foldr_cons, heq]
    split
    · exact hr' t ht
    · rename_i hsignals
      refine ih hnodup p' (by rw [hhdr]; exact hflow) hr' ?_
      obtain ⟨u, hu, hstop⟩ := hstop
      rcases List.mem_cons.mp hu with rfl | hu
      · exact absurd (by rw [hr u List.mem_cons_self]; exact hstop) hsignals
      · exact ⟨u, hu, by rw [hhdr]; exact hstop⟩

/-- A stage that the packet gets to takes what it is handed. -/
theorem foldr_applyStage_reached (hnodup : (pre ++ t :: post).Nodup) (p : Packet ι)
    (hflow : p.hdr.flowId = 1) (hr : ∀ s ∈ pre ++ t :: post, p.regs s = r s)
    (hgo : ∀ s ∈ pre, ¬ Signals lruCacheHash (r s) p.hdr) (i : ι) :
    held ((pre ++ t :: post).foldr (applyStage lruCacheHash) id p).regs t i =
      if i = slot lruCacheHash p.hdr then handed lruCacheHash r p.hdr (given p) pre t.source
      else held r t i := by
  induction pre generalizing p with
  | nil =>
    obtain ⟨ht, _⟩ := List.nodup_cons.mp hnodup
    obtain ⟨p', hhdr, -, -, hheld, -, heq⟩ := applyStage_eq lruCacheHash t
      (post.foldr (applyStage lruCacheHash) id) p hflow
    have hcell : held p'.regs t i =
        if i = slot lruCacheHash p.hdr then given p t.source else held r t i := by
      rw [hheld i, held, hr t List.mem_cons_self]
      rfl
    rw [List.nil_append, List.foldr_cons, heq]
    split
    · exact hcell
    · have hframe := foldr_applyStage_frame lruCacheHash ht p' (by rw [hhdr]; exact hflow)
      rw [held, hframe]
      exact hcell
  | cons s pre ih =>
    obtain ⟨hs, hnodup⟩ := List.nodup_cons.mp hnodup
    have hkeep : ∀ u ∈ pre ++ t :: post, u ≠ s := fun u hu he => hs (he ▸ hu)
    obtain ⟨p', hhdr, -, hregs, -, hgiven, heq⟩ := applyStage_eq lruCacheHash s
      ((pre ++ t :: post).foldr (applyStage lruCacheHash) id) p hflow
    have hrs : p.regs s = r s := hr s List.mem_cons_self
    have hgiven' : given p' = fun m => if m = s.dest then
        handOn p.hdr (held r s (slot lruCacheHash p.hdr)) else given p m := by
      funext m
      rw [hgiven m, held, hrs]
      rfl
    rw [List.cons_append, List.foldr_cons, heq, hrs, if_neg (hgo s List.mem_cons_self),
      ih hnodup p' (by rw [hhdr]; exact hflow)
        (fun u hu => (hregs u (hkeep u hu)).trans (hr u (List.mem_cons_of_mem _ hu)))
        (fun u hu => by rw [hhdr]; exact hgo u (List.mem_cons_of_mem _ hu)),
      hhdr, hgiven']
    rfl

end Chain

/-- **One packet** of the query: the stages shift at its slot and nowhere else. -/
theorem switch_held (r : Registers ι) (h : Header) (hflow : h.flowId = 1) (s : Stage) (i : ι) :
    held ((switch lruCacheHash).step r h) s i =
      if i = slot lruCacheHash h then shifted lruCacheHash r h s else held r s i := by
  generalize hp : copyToMetadataAction (⟨h, parseCheetah h, r, false⟩ : Packet ι) = p
  have hhdr : p.hdr = h := by rw [← hp]; rfl
  have hregs : p.regs = r := by rw [← hp]; rfl
  have hgiven : given p .md = h.pair := by rw [← hp]; rfl
  have hstep : (switch lruCacheHash).step r h =
      ([Stage.one, .two, .three, .four].foldr (applyStage lruCacheHash) id p).regs := by
    rw [switch, pruner_step, ingress_eq, metadataCopyTable_apply, hp]
  have hflow' : p.hdr.flowId = 1 := by rw [hhdr]; exact hflow
  -- a stage gets the packet unless one before it signals
  have hreached : ∀ (pre : List Stage) {post : List Stage} {t : Stage},
      pre ++ t :: post = [.one, .two, .three, .four] → (∀ u ∈ pre, ¬ Signals lruCacheHash (r u) h) →
      held ((switch lruCacheHash).step r h) t i =
        if i = slot lruCacheHash h then handed lruCacheHash r h (given p) pre t.source else held r t i := by
    intro pre post t he hgo
    have hcell := foldr_applyStage_reached lruCacheHash (by rw [he]; decide) p hflow'
      (fun u _ => congrFun hregs u) (by rwa [hhdr]) i
    rwa [he, hhdr, ← hstep] at hcell
  have hstopped : ∀ (pre : List Stage) {post : List Stage} {t : Stage},
      pre ++ t :: post = [.one, .two, .three, .four] → (∃ u ∈ pre, Signals lruCacheHash (r u) h) →
      held ((switch lruCacheHash).step r h) t i =
        if i = slot lruCacheHash h then held r t (slot lruCacheHash h) else held r t i := by
    intro pre post t he hstop
    have hcell := foldr_applyStage_stopped lruCacheHash (by rw [he]; decide) p hflow'
      (fun u _ => congrFun hregs u) (by rwa [hhdr])
    rw [he, ← hstep] at hcell
    rw [held, hcell]
    split
    · rename_i hi
      rw [hi]
      rfl
    · rfl
  cases s with
  | one =>
    rw [shifted, ← hgiven]
    exact hreached [] rfl (by simp)
  | two =>
    rw [shifted]
    by_cases hstop : Signals lruCacheHash (r .one) h
    · rw [if_pos hstop]
      exact hstopped [.one] rfl (by simpa using hstop)
    · rw [if_neg hstop]
      exact hreached [.one] rfl (by simpa using hstop)
  | three =>
    rw [shifted]
    by_cases hstop : Signals lruCacheHash (r .one) h ∨ Signals lruCacheHash (r .two) h
    · rw [if_pos hstop]
      exact hstopped [.one, .two] rfl (by simpa using hstop)
    · rw [if_neg hstop]
      exact hreached [.one, .two] rfl (by simpa using hstop)
  | four =>
    rw [shifted]
    by_cases hstop : Signals lruCacheHash (r .one) h ∨ Signals lruCacheHash (r .two) h ∨
        Signals lruCacheHash (r .three) h
    · rw [if_pos hstop]
      exact hstopped [.one, .two, .three] rfl (by simpa using hstop)
    · rw [if_neg hstop]
      exact hreached [.one, .two, .three] rfl (by simpa using hstop)

end Step

/-! ### Marks -/

/-- Neither half has the top bit. -/
def Clear (v : Word × Word) : Prop := v.1 &&& 0x80000000 = 0 ∧ v.2 &&& 0x80000000 = 0

/-- Exactly one half is the packet's. -/
def HalfMatch (h : Header) (v : Word × Word) : Prop := ¬ (h.valueHi = v.1 ↔ h.valueLo = v.2)

instance (v : Word × Word) : Decidable (Clear v) := inferInstanceAs (Decidable (_ ∧ _))
instance (h : Header) (v : Word × Word) : Decidable (HalfMatch h v) := inferInstanceAs (Decidable (¬ _))

theorem halfSignals_iff {reg half : Word} (hc : reg &&& 0x80000000 = 0) :
    HalfSignals reg half ↔ half = reg := by
  rw [HalfSignals, hc]
  exact or_iff_left (by decide)

/-- A stage that holds no mark signals for its own pair. -/
theorem signals_iff {ι : Type} {lruCacheHash : Word → Word → ι} {r : Registers ι} {s : Stage} {h : Header}
    (hc : Clear (held r s (slot lruCacheHash h))) :
    Signals lruCacheHash (r s) h ↔ held r s (slot lruCacheHash h) = h.pair := by
  have hhi : HalfSignals ((r s).hi (slot lruCacheHash h)) h.valueHi ↔
      h.valueHi = (r s).hi (slot lruCacheHash h) := halfSignals_iff hc.1
  have hlo : HalfSignals ((r s).lo (slot lruCacheHash h)) h.valueLo ↔
      h.valueLo = (r s).lo (slot lruCacheHash h) := halfSignals_iff hc.2
  rw [Signals, hhi, hlo, held, Header.pair, Prod.mk.injEq, and_comm, eq_comm, eq_comm (b := h.valueLo)]

theorem handOn_of_ne {h : Header} {v : Word × Word} (hhalf : ¬ HalfMatch h v) (hne : v ≠ h.pair) :
    handOn h v = v := by
  have hiff : h.valueHi = v.1 ↔ h.valueLo = v.2 := not_not.mp hhalf
  have hhi : h.valueHi ≠ v.1 := fun hhi => hne (Prod.ext hhi.symm (hiff.mp hhi).symm)
  have hlo : h.valueLo ≠ v.2 := fun hlo => hhi (hiff.mpr hlo)
  rw [handOn, if_neg hhi, if_neg hlo]

/-- A half match hands on a mark. -/
theorem handOn_not_clear {h : Header} {v : Word × Word} (hhalf : HalfMatch h v) : ¬ Clear (handOn h v) := by
  have htop : (0x80000000 : Word) ≠ 0 := by decide
  intro hclear
  by_cases hhi : h.valueHi = v.1
  · have hmark := hclear.1
    rw [handOn, if_pos hhi, or_and_top] at hmark
    exact htop hmark
  · by_cases hlo : h.valueLo = v.2
    · have hmark := hclear.2
      rw [handOn, if_pos hlo, or_and_top] at hmark
      exact htop hmark
    · exact hhalf (iff_of_false hhi hlo)

/-! ### The recent values of a slot -/

section History
variable {ι : Type} [DecidableEq ι] (lruCacheHash : Word → Word → ι)

/-- The values that came to a slot. -/
def slotPairs (ps : List Header) (i : ι) : List (Word × Word) :=
  (ps.filter fun h => slot lruCacheHash h = i).map Header.pair

/-- The distinct values that came to a slot, most recent first; (0, 0) past the last one. -/
def recentPair (ps : List Header) (i : ι) (k : Nat) : Word × Word :=
  (recent (slotPairs lruCacheHash ps i)).getD k (0, 0)

/-- A packet after `ps` has no half in common with the most recent value of its slot, nor,
unless it has both, with the one before. -/
def Unmarked (ps : List Header) (p : Header) : Prop :=
  ¬ HalfMatch p (recentPair lruCacheHash ps (slot lruCacheHash p) 0) ∧
    (recentPair lruCacheHash ps (slot lruCacheHash p) 0 = p.pair ∨
      ¬ HalfMatch p (recentPair lruCacheHash ps (slot lruCacheHash p) 1))

/-- What the stages hold after `ps`, when no mark was stored. -/
structure Caches (ps : List Header) (r : Registers ι) : Prop where
  one : ∀ i, held r .one i = recentPair lruCacheHash ps i 0
  two : ∀ i, held r .two i = recentPair lruCacheHash ps i 1
  three : ∀ i, held r .three i = recentPair lruCacheHash ps i 2
  four : ∀ i, held r .four i = (0, 0) ∨ held r .four i ∈ slotPairs lruCacheHash ps i

theorem caches_zero : Caches lruCacheHash [] (Registers.zero : Registers ι) where
  one _ := rfl
  two _ := rfl
  three _ := rfl
  four _ := Or.inl rfl

variable {lruCacheHash} {ps : List Header} {p : Header} {i : ι}

theorem slotPairs_concat_self :
    slotPairs lruCacheHash (ps ++ [p]) (slot lruCacheHash p) =
      slotPairs lruCacheHash ps (slot lruCacheHash p) ++ [p.pair] := by
  simp [slotPairs]

theorem slotPairs_concat_of_ne (hi : i ≠ slot lruCacheHash p) :
    slotPairs lruCacheHash (ps ++ [p]) i = slotPairs lruCacheHash ps i := by
  simp [slotPairs, Ne.symm hi]

theorem mem_slotPairs {v : Word × Word} (hv : v ∈ slotPairs lruCacheHash ps i) :
    ∃ q ∈ ps, q.pair = v := by
  obtain ⟨q, hq, hpair⟩ := List.mem_map.mp hv
  exact ⟨q, (List.mem_filter.mp hq).1, hpair⟩

/-- A recent value is one that came, or (0, 0). -/
theorem recentPair_mem (k : Nat) :
    recentPair lruCacheHash ps i k = (0, 0) ∨ recentPair lruCacheHash ps i k ∈ slotPairs lruCacheHash ps i := by
  rw [recentPair, List.getD_eq_getElem?_getD]
  cases hk : (recent (slotPairs lruCacheHash ps i))[k]? with
  | none => exact Or.inl rfl
  | some v => exact Or.inr (mem_recent.mp (List.mem_of_getElem? hk))

theorem clear_of_mem (hclear : ∀ q ∈ ps, Clear q.pair) {v : Word × Word}
    (hv : v = (0, 0) ∨ v ∈ slotPairs lruCacheHash ps i) : Clear v := by
  rcases hv with rfl | hv
  · decide
  · obtain ⟨q, hq, rfl⟩ := mem_slotPairs hv
    exact hclear q hq

theorem recentPair_front : recentPair lruCacheHash (ps ++ [p]) (slot lruCacheHash p) 0 = p.pair := by
  rw [recentPair, slotPairs_concat_self, getD_recent_front]

theorem recentPair_stop {j k : Nat} (hjk : j ≤ k)
    (hj : recentPair lruCacheHash ps (slot lruCacheHash p) j = p.pair) :
    recentPair lruCacheHash (ps ++ [p]) (slot lruCacheHash p) (k + 1) =
      recentPair lruCacheHash ps (slot lruCacheHash p) (k + 1) := by
  rw [recentPair, slotPairs_concat_self, getD_recent_stop _ _ _ hjk hj, recentPair]

theorem recentPair_shift {k : Nat}
    (hnot : ∀ j ≤ k, recentPair lruCacheHash ps (slot lruCacheHash p) j ≠ p.pair) :
    recentPair lruCacheHash (ps ++ [p]) (slot lruCacheHash p) (k + 1) =
      recentPair lruCacheHash ps (slot lruCacheHash p) k := by
  rw [recentPair, slotPairs_concat_self, getD_recent_shift _ _ _ hnot, recentPair]

section Invariant
variable {r : Registers ι}

/-- A stage signals when it holds the packet's value. -/
theorem Caches.signals (h : Caches lruCacheHash ps r) (hclear : ∀ q ∈ ps, Clear q.pair) :
    (Signals lruCacheHash (r .one) p ↔ recentPair lruCacheHash ps (slot lruCacheHash p) 0 = p.pair) ∧
      (Signals lruCacheHash (r .two) p ↔ recentPair lruCacheHash ps (slot lruCacheHash p) 1 = p.pair) ∧
      (Signals lruCacheHash (r .three) p ↔
        recentPair lruCacheHash ps (slot lruCacheHash p) 2 = p.pair) := by
  have hrecent : ∀ k, Clear (recentPair lruCacheHash ps (slot lruCacheHash p) k) := fun k =>
    clear_of_mem hclear (recentPair_mem k)
  refine ⟨?_, ?_, ?_⟩
  · rw [← h.one, signals_iff (by rw [h.one]; exact hrecent 0)]
  · rw [← h.two, signals_iff (by rw [h.two]; exact hrecent 1)]
  · rw [← h.three, signals_iff (by rw [h.three]; exact hrecent 2)]

/-- What the stages take from a packet that marks nothing. -/
theorem Caches.takes (h : Caches lruCacheHash ps r) (hclear : ∀ q ∈ ps, Clear q.pair)
    (hmark : Unmarked lruCacheHash ps p) :
    shifted lruCacheHash r p .two = recentPair lruCacheHash (ps ++ [p]) (slot lruCacheHash p) 1 ∧
      shifted lruCacheHash r p .three = recentPair lruCacheHash (ps ++ [p]) (slot lruCacheHash p) 2 ∧
      (shifted lruCacheHash r p .four = (0, 0) ∨
        shifted lruCacheHash r p .four ∈ slotPairs lruCacheHash (ps ++ [p]) (slot lruCacheHash p)) := by
  obtain ⟨sig1, sig2, sig3⟩ := h.signals (p := p) hclear
  -- what is handed on past a stage that does not signal
  have hand1 : recentPair lruCacheHash ps (slot lruCacheHash p) 0 ≠ p.pair →
      handOn p (held r .one (slot lruCacheHash p)) = recentPair lruCacheHash ps (slot lruCacheHash p) 0 :=
    fun h0 => by rw [h.one, handOn_of_ne hmark.1 h0]
  have hand2 : recentPair lruCacheHash ps (slot lruCacheHash p) 0 ≠ p.pair →
      recentPair lruCacheHash ps (slot lruCacheHash p) 1 ≠ p.pair →
      handOn p (held r .two (slot lruCacheHash p)) = recentPair lruCacheHash ps (slot lruCacheHash p) 1 :=
    fun h0 h1 => by rw [h.two, handOn_of_ne (hmark.2.resolve_left h0) h1]
  refine ⟨?_, ?_, ?_⟩
  · rw [shifted]
    by_cases h0 : recentPair lruCacheHash ps (slot lruCacheHash p) 0 = p.pair
    · rw [if_pos (sig1.mpr h0), recentPair_stop (Nat.le_refl 0) h0, h.two]
    · rw [if_neg (mt sig1.mp h0), hand1 h0, recentPair_shift]
      intro j hj
      rwa [Nat.le_zero.mp hj]
  · simp only [shifted, sig1, sig2]
    by_cases h0 : recentPair lruCacheHash ps (slot lruCacheHash p) 0 = p.pair
    · rw [if_pos (Or.inl h0), recentPair_stop (Nat.zero_le 1) h0, h.three]
    · by_cases h1 : recentPair lruCacheHash ps (slot lruCacheHash p) 1 = p.pair
      · rw [if_pos (Or.inr h1), recentPair_stop (Nat.le_refl 1) h1, h.three]
      · rw [if_neg (not_or.mpr ⟨h0, h1⟩), hand2 h0 h1, recentPair_shift]
        intro j hj
        rcases Nat.le_one_iff_eq_zero_or_eq_one.mp hj with rfl | rfl
        · exact h0
        · exact h1
  · have hsub : ∀ v, v ∈ slotPairs lruCacheHash ps (slot lruCacheHash p) →
        v ∈ slotPairs lruCacheHash (ps ++ [p]) (slot lruCacheHash p) := fun v hv => by
      rw [slotPairs_concat_self]
      exact List.mem_append_left _ hv
    simp only [shifted, sig1, sig2, sig3]
    split
    · exact (h.four _).imp_right (hsub _)
    · rename_i hmiss
      rw [not_or, not_or] at hmiss
      rw [hand2 hmiss.1 hmiss.2.1]
      exact (recentPair_mem 1).imp_right (hsub _)

/-- **One packet** that marks nothing keeps the recent values in order. -/
theorem Caches.step (h : Caches lruCacheHash ps r) (hclear : ∀ q ∈ ps, Clear q.pair) (hflow : p.flowId = 1)
    (hmark : Unmarked lruCacheHash ps p) :
    Caches lruCacheHash (ps ++ [p]) ((switch lruCacheHash).step r p) := by
  obtain ⟨htwo, hthree, hfour⟩ := h.takes hclear hmark
  have hhere : ∀ s, held ((switch lruCacheHash).step r p) s (slot lruCacheHash p) =
      shifted lruCacheHash r p s := fun s => by rw [switch_held lruCacheHash r p hflow, if_pos rfl]
  have hother : ∀ s i, i ≠ slot lruCacheHash p →
      held ((switch lruCacheHash).step r p) s i = held r s i := fun s i hi => by
    rw [switch_held lruCacheHash r p hflow, if_neg hi]
  have hrecent : ∀ i k, i ≠ slot lruCacheHash p →
      recentPair lruCacheHash (ps ++ [p]) i k = recentPair lruCacheHash ps i k := fun i k hi => by
    rw [recentPair, slotPairs_concat_of_ne hi, recentPair]
  refine ⟨fun i => ?_, fun i => ?_, fun i => ?_, fun i => ?_⟩ <;>
    by_cases hi : i = slot lruCacheHash p
  · rw [hi, hhere, recentPair_front]
    rfl
  · rw [hother _ _ hi, hrecent _ _ hi, h.one]
  · rw [hi, hhere, htwo]
  · rw [hother _ _ hi, hrecent _ _ hi, h.two]
  · rw [hi, hhere, hthree]
  · rw [hother _ _ hi, hrecent _ _ hi, h.three]
  · rw [hi, hhere]
    exact hfour
  · rw [hother _ _ hi, slotPairs_concat_of_ne hi]
    exact h.four i

end Invariant

/-! ### When a mark is stored -/

section Marks
variable (lruCacheHash ps)

/-- What the registers hold after every packet is 0 or the pair of a packet, without marks. -/
def StoredWhole : Prop :=
  ∀ pre post, ps = pre ++ post → ∀ s i,
    (held ((switch lruCacheHash).run Registers.zero pre) s i = (0, 0) ∨
      ∃ q ∈ pre, held ((switch lruCacheHash).run Registers.zero pre) s i = q.pair) ∧
    Clear (held ((switch lruCacheHash).run Registers.zero pre) s i)

/-- No packet has one half in common with the most recent value of its slot, nor, unless it
has both, with the one before. -/
def NoHalfMatch : Prop := ∀ pre p post, ps = pre ++ p :: post → Unmarked lruCacheHash pre p

variable {lruCacheHash ps}

theorem caches_run (hflow : ∀ p ∈ ps, p.flowId = 1) (hclear : ∀ p ∈ ps, Clear p.pair)
    (hmark : NoHalfMatch lruCacheHash ps) :
    Caches lruCacheHash ps ((switch lruCacheHash).run Registers.zero ps) := by
  induction ps using List.reverseRecOn with
  | nil => exact caches_zero lruCacheHash
  | append_singleton ps p ih =>
    obtain ⟨hold, hlast⟩ := forall_split_concat.mp hmark
    have hp := List.mem_append_right ps (List.mem_singleton.mpr (rfl : p = p))
    have hps : ∀ q ∈ ps, q ∈ ps ++ [p] := fun q hq => List.mem_append_left _ hq
    rw [Lib.Pruner.run_concat]
    exact (ih (fun q hq => hflow q (hps q hq)) (fun q hq => hclear q (hps q hq)) hold).step
      (fun q hq => hclear q (hps q hq)) (hflow p hp) hlast

theorem Caches.whole {r : Registers ι} (h : Caches lruCacheHash ps r) (hclear : ∀ q ∈ ps, Clear q.pair)
    (s : Stage) (i : ι) :
    (held r s i = (0, 0) ∨ ∃ q ∈ ps, held r s i = q.pair) ∧ Clear (held r s i) := by
  have hmem : held r s i = (0, 0) ∨ held r s i ∈ slotPairs lruCacheHash ps i := by
    cases s with
    | one => rw [h.one]; exact recentPair_mem 0
    | two => rw [h.two]; exact recentPair_mem 1
    | three => rw [h.three]; exact recentPair_mem 2
    | four => exact h.four i
  refine ⟨hmem.imp_right fun hv => ?_, clear_of_mem hclear hmem⟩
  obtain ⟨q, hq, hpair⟩ := mem_slotPairs hv
  exact ⟨q, hq, hpair.symm⟩

/-- A half match at one of the first two stages stores a mark. -/
theorem Caches.marked {r : Registers ι} (h : Caches lruCacheHash ps r) (hclear : ∀ q ∈ ps, Clear q.pair)
    (hflow : p.flowId = 1) (hmark : ¬ Unmarked lruCacheHash ps p) :
    ∃ s, ¬ Clear (held ((switch lruCacheHash).step r p) s (slot lruCacheHash p)) := by
  obtain ⟨sig1, sig2, -⟩ := h.signals (p := p) hclear
  have hne : ∀ v, HalfMatch p v → v ≠ p.pair := by
    intro v hhalf hv
    rw [hv] at hhalf
    exact hhalf (iff_of_true rfl rfl)
  by_cases h0 : HalfMatch p (recentPair lruCacheHash ps (slot lruCacheHash p) 0)
  · refine ⟨.two, ?_⟩
    rw [switch_held lruCacheHash r p hflow, if_pos rfl, shifted, if_neg (mt sig1.mp (hne _ h0)), h.one]
    exact handOn_not_clear h0
  · rw [Unmarked, not_and_or, not_not, not_or, not_not] at hmark
    obtain ⟨hfirst, h1⟩ := hmark.resolve_left h0
    have hmiss : ¬ (Signals lruCacheHash (r .one) p ∨ Signals lruCacheHash (r .two) p) :=
      not_or.mpr ⟨mt sig1.mp hfirst, mt sig2.mp (hne _ h1)⟩
    refine ⟨.three, ?_⟩
    rw [switch_held lruCacheHash r p hflow, if_pos rfl, shifted, if_neg hmiss, h.two]
    exact handOn_not_clear h1

/-- **A mark is stored exactly when** some packet has one half in common with what one of
the first two stages it reaches holds. -/
theorem stored_whole_iff (hflow : ∀ p ∈ ps, p.flowId = 1) (hclear : ∀ p ∈ ps, Clear p.pair) :
    StoredWhole lruCacheHash ps ↔ NoHalfMatch lruCacheHash ps := by
  constructor
  · intro h
    induction ps using List.reverseRecOn with
    | nil => exact fun pre p post he => by simp at he
    | append_singleton ps p ih =>
      have hps : ∀ q ∈ ps, q ∈ ps ++ [p] := fun q hq => List.mem_append_left _ hq
      have hclear' : ∀ q ∈ ps, Clear q.pair := fun q hq => hclear q (hps q hq)
      obtain ⟨hold, hlast⟩ := forall_prefix_concat.mp h
      have hmark := ih (fun q hq => hflow q (hps q hq)) hclear' hold
      refine forall_split_concat.mpr ⟨hmark, ?_⟩
      by_contra hhalf
      have hcaches := caches_run (fun q hq => hflow q (hps q hq)) hclear' hmark
      obtain ⟨s, hs⟩ := hcaches.marked hclear' (hflow p (by simp)) hhalf
      rw [← Lib.Pruner.run_concat] at hs
      exact hs (hlast s _).2
  · intro h pre post he s i
    subst he
    have hpre : ∀ q ∈ pre, q ∈ pre ++ post := fun q hq => List.mem_append_left _ hq
    have hmark : NoHalfMatch lruCacheHash pre := fun a p b hab => h a p (b ++ post) (by simp [hab])
    exact (caches_run (fun q hq => hflow q (hpre q hq)) (fun q hq => hclear q (hpre q hq)) hmark).whole
      (fun q hq => hclear q (hpre q hq)) s i

end Marks
end History

/-- Two values in one slot that differ in both halves. -/
theorem stored_whole_iff_two :
    StoredWhole (fun _ _ => ()) [⟨1, 0, 5, 6⟩, ⟨1, 1, 7, 8⟩] ↔
      NoHalfMatch (fun _ _ => ()) [⟨1, 0, 5, 6⟩, ⟨1, 1, 7, 8⟩] :=
  stored_whole_iff (by decide) (by decide)

/-- Two values in one slot that share their lower half: the first moves to the second stage
with that half marked. -/
theorem mark_stored : ¬ StoredWhole (fun _ _ => ()) [⟨1, 0, 1, 2⟩, ⟨1, 1, 3, 2⟩] := by
  intro h
  have hclear := (h [⟨1, 0, 1, 2⟩, ⟨1, 1, 3, 2⟩] [] rfl .two ()).2
  revert hclear
  decide

end Cheetah.DataPlane.Distinct
