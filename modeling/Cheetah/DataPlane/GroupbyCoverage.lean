import Cheetah.DataPlane.GroupbySketch

/-! What the cells of `cheetah_groupby.p4` owe to the packets that came out.

A cell may hold a packet that a later sketch pruned, so what a cell holds need not have been
forwarded. But such a packet was pruned by a larger value of its key, and so on down to one
that was forwarded. -/
namespace Cheetah.DataPlane.Groupby

/-- Every cell is empty (value 0) or beaten by a forwarded packet with its key. -/
def Covered {ι : Type} (fwd : List Header) (r : Registers ι) : Prop :=
  ∀ s i, r.sketchValue s i = 0 ∨ ∃ q ∈ fwd, q.key = r.sketchKey s i ∧ r.sketchValue s i ≤ q.value

/-- A forwarded packet with the same key has a larger value. -/
def Beaten (fwd : List Header) (h : Header) : Prop := ∃ q ∈ fwd, q.key = h.key ∧ h.value < q.value

section Cells
variable {ι : Type} {fwd : List Header} {h : Header} {r : Registers ι}

theorem covered_zero : Covered [] (Registers.zero : Registers ι) := fun _ _ => .inl rfl

theorem Covered.mono {a b : List Header} (h : Covered a r) (hab : a ⊆ b) : Covered b r := by
  intro s i
  rcases h s i with h0 | ⟨q, hq, hk, hv⟩
  · exact .inl h0
  · exact .inr ⟨q, hab hq, hk, hv⟩

/-- A packet that is beaten adds nothing to what covers a cell. -/
theorem Covered.of_beaten (hc : Covered (fwd ++ [h]) r) (hb : Beaten fwd h) : Covered fwd r := by
  intro s i
  rcases hc s i with h0 | ⟨q, hq, hk, hv⟩
  · exact .inl h0
  · rcases List.mem_append.mp hq with hq | hq
    · exact .inr ⟨q, hq, hk, hv⟩
    · obtain ⟨q', hq', hk', hv'⟩ := hb
      rw [List.mem_singleton.mp hq] at hk hv
      exact .inr ⟨q', hq', hk'.trans hk, BitVec.le_trans hv (BitVec.le_of_lt hv')⟩

/-- A packet that a cell prunes is beaten. -/
theorem Covered.beaten (hc : Covered fwd r) {s : Sketch} {i : ι}
    (hp : Prunes (r.sketchKey s i) (r.sketchValue s i) h) : Beaten fwd h := by
  obtain ⟨hkey, hlt⟩ := hp
  rcases hc s i with h0 | ⟨q, hq, hk, hv⟩
  · rw [h0, BitVec.lt_def] at hlt
    exact absurd hlt (Nat.not_lt_zero _)
  · refine ⟨q, hq, hk.trans hkey, ?_⟩
    rw [BitVec.lt_def] at hlt ⊢
    rw [BitVec.le_def] at hv
    omega

end Cells

section Run
variable {ι : Type} [DecidableEq ι] (hash : Sketch → Word → ι) {fwd : List Header} {r : Registers ι}

/-- **One packet**: the cells stay covered by it and the forwarded ones. -/
theorem covered_step (hc : Covered fwd r) (h : Header) :
    Covered (fwd ++ [h]) ((switch hash).step r h) := by
  have hold : Covered (fwd ++ [h]) r := hc.mono (List.subset_append_left _ _)
  intro s i
  by_cases hreach : Reaches hash s r h
  · obtain ⟨hkey, hvalue⟩ := step_reached hash hreach
    rw [hkey, hvalue]
    by_cases hi : i = index hash s h.key
    · rw [hi, Function.update_self, Function.update_self]
      by_cases hp : Prunes (r.sketchKey s (index hash s h.key)) (r.sketchValue s (index hash s h.key)) h
      · -- the cell keeps its value, and its key is the packet's
        have hcell := hold s (index hash s h.key)
        rw [hp.1] at hcell
        rw [if_pos hp]
        exact hcell
      · rw [if_neg hp]
        exact .inr ⟨h, List.mem_append_right _ (List.mem_singleton.mpr rfl), rfl, BitVec.le_refl _⟩
    · rw [Function.update_of_ne hi, Function.update_of_ne hi]
      exact hold s i
  · obtain ⟨hkey, hvalue⟩ := step_missed hash hreach
    rw [hkey, hvalue]
    exact hold s i

/-- A packet is dropped only when a forwarded packet beats it. -/
theorem beaten_of_drops (hc : Covered fwd r) {h : Header} (hd : (switch hash).drops r h = true) :
    Beaten fwd h := by
  obtain ⟨s, hs⟩ := (drops_iff_droppedAt hash r h).mp hd
  exact hc.beaten ((droppedAt_iff hash s r h).mp hs).2

/-- What has been read is forwarded or beaten, after one packet more. -/
theorem covers_step {seen : List Header} (hc : Covered fwd r) (hseen : ∀ h ∈ seen, h ∈ fwd ∨ Beaten fwd h)
    (h : Header) :
    Covered (fwd ++ (if (switch hash).drops r h then [] else [h])) ((switch hash).step r h) ∧
      ∀ q ∈ seen ++ [h], q ∈ fwd ++ (if (switch hash).drops r h then [] else [h]) ∨
        Beaten (fwd ++ (if (switch hash).drops r h then [] else [h])) q := by
  have hcov := covered_step hash hc h
  cases hd : (switch hash).drops r h with
  | true =>
    have hb : Beaten fwd h := beaten_of_drops hash hc hd
    simp only [if_true, List.append_nil]
    refine ⟨hcov.of_beaten hb, fun q hq => ?_⟩
    rcases List.mem_append.mp hq with hq | hq
    · exact hseen q hq
    · exact .inr (List.mem_singleton.mp hq ▸ hb)
  | false =>
    simp only [Bool.false_eq_true, if_false]
    refine ⟨hcov, fun q hq => ?_⟩
    rcases List.mem_append.mp hq with hq | hq
    · exact (hseen q hq).imp (List.mem_append_left _) fun ⟨q', hq', hb⟩ => ⟨q', List.mem_append_left _ hq', hb⟩
    · exact .inl (List.mem_append_right _ hq)

/-- **Any run**: the cells are covered by what was forwarded, and every packet read was
forwarded or is beaten by one that was. The packets may be of any flows: the tables pass
those of other flows on. -/
theorem run_covers (ps : List Header) :
    Covered ((switch hash).forwarded Registers.zero ps) ((switch hash).run Registers.zero ps) ∧
      ∀ h ∈ ps, h ∈ (switch hash).forwarded Registers.zero ps ∨
        Beaten ((switch hash).forwarded Registers.zero ps) h :=
  (switch hash).run_rule
    (I := fun r seen fwd => Covered fwd r ∧ ∀ h ∈ seen, h ∈ fwd ∨ Beaten fwd h)
    (Q := fun _ => True) ⟨covered_zero, by simp⟩
    (fun _ _ _ h _ hboth => covers_step hash hboth.1 hboth.2 h) ps fun _ _ => trivial

end Run
end Cheetah.DataPlane.Groupby
