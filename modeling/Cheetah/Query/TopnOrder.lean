import Cheetah.Query.Topn
import Cheetah.Lib.Ascending
import Mathlib.Tactic.Abel

/-! TOP N, in whatever order the packets come.

The first `N` packets fix the cutoff, and the first `N + 1` that exceed it are all that
exceed it and come through. So the worst order is the ascending one: it makes the cutoff as
low as it can be and lets the smallest values through. `every_order_iff`: either some order
of the packets loses one of the largest values, and the ascending one does, or there are too
few values, too few that exceed the cutoff, or too few below each of them. -/
namespace Cheetah.Query.Topn
open DataPlane DataPlane.Topn
open Lib (Pruner)

/-! ### The cutoff -/

theorem le_lowest_iff {preset w : Nat} {vs : List Nat} :
    w ≤ lowest preset vs ↔ w ≤ preset ∧ ∀ v ∈ vs, w ≤ v := by
  induction vs using List.reverseRecOn with
  | nil => simp [lowest]
  | append_singleton vs v ih =>
    rw [lowest_concat, Nat.le_min, ih]
    simp only [List.mem_append, List.mem_singleton, or_imp, forall_and, forall_eq, and_assoc]

/-- Fewer values leave a higher minimum. -/
theorem lowest_anti (preset : Nat) {vs ws : List Nat} (h : vs ⊆ ws) : lowest preset ws ≤ lowest preset vs := by
  obtain ⟨hpreset, hall⟩ := le_lowest_iff.mp (Nat.le_refl (lowest preset ws))
  exact le_lowest_iff.mpr ⟨hpreset, fun v hv => hall v (h hv)⟩

/-- In ascending order the first values have the minimum. -/
theorem lowest_take_ascending {n : Nat} (preset : Nat) {vs : List Nat} (h : vs.Pairwise (· ≤ ·)) (hpos : 0 < n)
    (hne : vs ≠ []) : lowest preset (vs.take n) = lowest preset vs := by
  refine Nat.le_antisymm ?_ (lowest_anti preset (List.take_subset n vs))
  obtain ⟨hpreset, htake⟩ := le_lowest_iff.mp (Nat.le_refl (lowest preset (vs.take n)))
  refine le_lowest_iff.mpr ⟨hpreset, fun v hv => ?_⟩
  obtain ⟨first, hfirst⟩ := List.exists_mem_of_ne_nil (vs.take n) fun hnil =>
    hne ((List.take_eq_nil_iff.mp hnil).resolve_left (Nat.ne_of_gt hpos))
  rw [← List.take_append_drop n vs] at hv
  rcases List.mem_append.mp hv with hfront | hback
  · exact htake v hfront
  · exact Nat.le_trans (htake first hfirst) (Lib.Ascending.take_le_drop h hfirst hback)

/-! ### Values in any order -/

/-- There is an order that loses one of the `n` largest values: enough values, enough of them
above twice the smallest, and below one of these enough of both kinds. -/
structure Perilous (n preset : Nat) (vs : List Nat) : Prop where
  long : 2 * n + 2 ≤ vs.length
  exceeding : n + 2 ≤ vs.countP fun v => 2 * lowest preset vs < v
  below : ∃ d ∈ vs, n + 2 ≤ vs.countP (fun v => v < d) ∧
    2 ≤ vs.countP fun v => 2 * lowest preset vs < v ∧ v < d

instance (n preset : Nat) (vs : List Nat) : Decidable (Perilous n preset vs) :=
  decidable_of_iff (2 * n + 2 ≤ vs.length ∧ (n + 2 ≤ vs.countP fun v => 2 * lowest preset vs < v) ∧
      ∃ d ∈ vs, n + 2 ≤ vs.countP (fun v => v < d) ∧ 2 ≤ vs.countP fun v => 2 * lowest preset vs < v ∧ v < d)
    ⟨fun h => ⟨h.1, h.2.1, h.2.2⟩, fun h => ⟨h.long, h.exceeding, h.below⟩⟩

section Values
variable {n preset : Nat} {vs ws : List Nat}

/-- More values in any order are no less perilous. -/
theorem Perilous.mono (h : Perilous n preset vs) (hsub : vs.Subperm ws) : Perilous n preset ws := by
  have hlow := lowest_anti preset hsub.subset
  obtain ⟨d, hd, hlower, hbetween⟩ := h.below
  refine ⟨Nat.le_trans h.long hsub.length_le, ?_, d, hsub.subset hd, Nat.le_trans hlower (hsub.countP_le _), ?_⟩
  · refine Nat.le_trans h.exceeding (Nat.le_trans (hsub.countP_le _) (List.countP_mono_left fun v _ hv => ?_))
    have hv := of_decide_eq_true hv
    exact decide_eq_true (Nat.lt_of_le_of_lt (Nat.mul_le_mul_left 2 hlow) hv)
  · refine Nat.le_trans hbetween (Nat.le_trans (hsub.countP_le _) (List.countP_mono_left fun v _ hv => ?_))
    obtain ⟨hexceeds, hbelow⟩ := of_decide_eq_true hv
    exact decide_eq_true ⟨Nat.lt_of_le_of_lt (Nat.mul_le_mul_left 2 hlow) hexceeds, hbelow⟩

/-- What is not at least `d` is below it. -/
theorem countP_below (d : Nat) (vs : List Nat) :
    vs.countP (fun v => d ≤ v) + vs.countP (fun v => v < d) = vs.length := by
  rw [List.length_eq_countP_add_countP (fun v => decide (d ≤ v))]
  refine congrArg _ (List.countP_congr fun v _ => ?_)
  simp

/-- **No order is worse than this**: where a value is dropped that had too few above it, the
values are perilous. -/
theorem enoughAbove_of_safe (h : ¬ Perilous n preset vs) : EnoughAbove n preset vs := by
  intro d hd
  by_contra hfew
  refine h ?_
  have hlow := Nat.mul_le_mul_left 2 (lowest_anti preset (List.take_subset n vs))
  -- the values that exceed are among those after the first `n`
  have hexceeders : (exceeders n preset vs).Sublist (vs.drop n) := List.filter_sublist
  have hlen : n + 2 ≤ (exceeders n preset vs).length := by
    have hpos := List.length_pos_of_mem hd
    rw [List.length_drop] at hpos
    omega
  have hdrop := hexceeders.length_le
  rw [List.length_drop] at hdrop
  have hkept : (vs.take n ++ (exceeders n preset vs).take (n + 1)).Sublist vs := by
    have hparts := (List.Sublist.refl (vs.take n)).append ((List.take_sublist (n + 1) _).trans hexceeders)
    rwa [List.take_append_drop] at hparts
  have hcut : ∀ v ∈ exceeders n preset vs, 2 * lowest preset vs < v := by
    intro v hv
    exact Nat.lt_of_le_of_lt hlow (of_decide_eq_true (List.mem_filter.mp hv).2)
  have hsub : (exceeders n preset vs).Sublist vs := hexceeders.trans (List.drop_sublist n vs)
  refine ⟨by omega, ?_, d, hsub.subset (List.mem_of_mem_drop hd), ?_, ?_⟩
  · refine Nat.le_trans hlen (Nat.le_trans (Nat.le_of_eq ?_) hsub.countP_le)
    exact (List.countP_eq_length.mpr fun v hv => decide_eq_true (hcut v hv)).symm
  · -- of `2 * n + 1` values that came through, fewer than `n` are at least `d`
    have hcount := countP_below d (vs.take n ++ (exceeders n preset vs).take (n + 1))
    rw [List.length_append, List.length_take, List.length_take, Nat.min_eq_left (by omega),
      Nat.min_eq_left (by omega)] at hcount
    exact Nat.le_trans (by omega) hkept.countP_le
  · -- and so fewer than `n` of the first `n + 1` that exceed
    have hcount := countP_below d ((exceeders n preset vs).take (n + 1))
    rw [List.length_take, Nat.min_eq_left (by omega)] at hcount
    rw [List.countP_append] at hfew
    have htake : 2 ≤ ((exceeders n preset vs).take (n + 1)).countP fun v => v < d := by omega
    refine Nat.le_trans htake (Nat.le_trans (List.countP_mono_left fun v hv hlt => ?_)
      ((List.take_sublist (n + 1) _).trans hsub).countP_le)
    exact decide_eq_true ⟨hcut v (List.mem_of_mem_take hv), of_decide_eq_true hlt⟩

/-- In ascending order at least `n + 2` values exceed, and the first two of them are below
the largest. -/
theorem exceeders_ascending (h : Perilous n preset vs) (hs : vs.Pairwise (· ≤ ·)) (hpos : 0 < n) {w : Nat}
    (hlower : n + 2 ≤ vs.countP (fun v => v < w))
    (hbetween : 2 ≤ vs.countP fun v => 2 * lowest preset vs < v ∧ v < w) :
    n + 2 ≤ (exceeders n preset vs).length ∧ 2 ≤ (exceeders n preset vs).countP fun v => v < w := by
  have hlong := h.long
  have hne : vs ≠ [] := fun hnil => by
    rw [hnil, List.length_nil] at hlong
    omega
  rw [exceeders, lowest_take_ascending preset hs hpos hne]
  have hsplit : ∀ p : Nat → Bool, vs.countP p = (vs.take n).countP p + (vs.drop n).countP p := by
    intro p
    rw [← List.countP_append, List.take_append_drop]
  rcases Lib.Ascending.take_le_or_drop_lt hs (2 * lowest preset vs) n with hfront | hback
  · -- the first `n` are up to the cutoff, so all that exceed come behind them
    have hnone : ∀ v ∈ vs.take n, ¬ 2 * lowest preset vs < v := fun v hv => Nat.not_lt.mpr (hfront v hv)
    constructor
    · have hexceeding := h.exceeding
      rw [hsplit, List.countP_eq_zero.mpr fun v hv => by simpa using hnone v hv, Nat.zero_add] at hexceeding
      rwa [← List.countP_eq_length_filter]
    · rw [hsplit, List.countP_eq_zero.mpr fun v hv => by simpa using fun hlt => absurd hlt (hnone v hv),
        Nat.zero_add] at hbetween
      rw [List.countP_filter]
      refine Nat.le_trans hbetween (List.countP_mono_left fun v _ hv => ?_)
      simpa [and_comm] using hv
  · -- all behind the first `n` exceed
    have hall : (vs.drop n).filter (fun v => 2 * lowest preset vs < v) = vs.drop n :=
      List.filter_eq_self.mpr fun v hv => decide_eq_true (hback v hv)
    have hfirst := (vs.take n).countP_le_length (p := fun v => decide (v < w))
    rw [List.length_take] at hfirst
    rw [hall, List.length_drop]
    rw [hsplit] at hlower
    omega

/-- **The ascending order** loses a value where any does. -/
theorem not_enoughAbove_ascending (h : Perilous n preset vs) (hs : vs.Pairwise (· ≤ ·)) (hpos : 0 < n) :
    ¬ EnoughAbove n preset vs := by
  intro henough
  obtain ⟨d, hd, hlower, hbetween⟩ := h.below
  have hne := List.ne_nil_of_mem hd
  obtain ⟨w, hw, hmax⟩ := Lib.Ascending.exists_max hs hne
  have hlower : n + 2 ≤ vs.countP fun v => v < w :=
    Nat.le_trans hlower (List.countP_mono_left fun v _ hv =>
      decide_eq_true (Nat.lt_of_lt_of_le (of_decide_eq_true hv) (hmax d hd)))
  have hbetween : 2 ≤ vs.countP fun v => 2 * lowest preset vs < v ∧ v < w :=
    Nat.le_trans hbetween (List.countP_mono_left fun v _ hv =>
      decide_eq_true ⟨(of_decide_eq_true hv).1, Nat.lt_of_lt_of_le (of_decide_eq_true hv).2 (hmax d hd)⟩)
  obtain ⟨hlen, htwo⟩ := exceeders_ascending h hs hpos hlower hbetween
  have hexceeders : (exceeders n preset vs).Sublist vs := List.filter_sublist.trans (List.drop_sublist n vs)
  have hascending := hs.sublist hexceeders
  -- the largest value exceeds, and is dropped
  have hfirst : ∀ v ∈ vs.take n, v < w := fun v hv =>
    Lib.Ascending.take_lt hs (Nat.le_of_add_right_le hlower) hv
  have hmem : w ∈ exceeders n preset vs := by
    obtain ⟨v, hv, hbound⟩ := List.countP_pos_iff.mp (Nat.lt_of_lt_of_le Nat.zero_lt_two htwo)
    have hcut := of_decide_eq_true (List.mem_filter.mp hv).2
    refine List.mem_filter.mpr ⟨?_, decide_eq_true (Nat.lt_trans hcut (of_decide_eq_true hbound))⟩
    rw [← List.take_append_drop n vs] at hw
    exact (List.mem_append.mp hw).resolve_left fun hfront => Nat.lt_irrefl w (hfirst w hfront)
  have hdropped := Lib.Ascending.mem_drop_of_max hascending hmem (fun v hv => hmax v (hexceeders.subset hv))
    (show n + 1 < (exceeders n preset vs).length by omega)
  -- of what came through, only `n - 1` are as large
  have henough := henough w hdropped
  have hzero : (vs.take n).countP (fun v => w ≤ v) = 0 :=
    List.countP_eq_zero.mpr fun v hv => by simpa using hfirst v hv
  have hcount := countP_below w ((exceeders n preset vs).take (n + 1))
  have hpair : 2 ≤ ((exceeders n preset vs).take (n + 1)).countP fun v => v < w := by
    have hsub : ((exceeders n preset vs).take 2).Sublist ((exceeders n preset vs).take (n + 1)) :=
      List.take_sublist_take_left (by omega)
    refine Nat.le_trans (Nat.le_of_eq ?_) hsub.countP_le
    rw [List.countP_eq_length.mpr fun v hv => decide_eq_true (Lib.Ascending.take_lt hascending htwo hv),
      List.length_take, Nat.min_eq_left (by omega)]
  rw [List.length_take, Nat.min_eq_left (by omega)] at hcount
  rw [List.countP_append, hzero] at henough
  omega

end Values

/-! ### Packets in any order -/

/-- The `n` largest values of some packets came through. -/
def KeepsLargest (n preset : Word) (ps : List Header) : Prop :=
  Lib.largest n.toNat (((switch n).forwarded (Registers.init preset) ps).map (·.value.toNat) : Multiset Nat) =
    Lib.largest n.toNat (ps.map (·.value.toNat) : Multiset Nat)

section Packets
variable {n preset : Word} {ps qs : List Header}

/-- What came through and what was dropped: the values past the first that exceed. -/
theorem values_eq (hn : n.toNat ≤ 2 ^ 31) (hpreset : preset.toNat < 2 ^ 30)
    (hflow : ∀ h ∈ ps, h.flowId = 1) (hvalue : ∀ h ∈ ps, h.value.toNat < 2 ^ 31) :
    (ps.map (·.value.toNat) : Multiset Nat) =
      (((switch n).forwarded (Registers.init preset) ps).map (·.value.toNat) : Multiset Nat) +
        ((exceeders n.toNat preset.toNat (ps.map (·.value.toNat))).drop (n.toNat + 1) : List Nat) := by
  obtain ⟨_, hdropped⟩ := learnt_run hn preset hpreset ps hflow hvalue
  rw [← hdropped, ← Multiset.map_coe, ← Multiset.map_coe, ← Multiset.map_coe, ← Multiset.map_add,
    ← Pruner.split]

/-- What came through: the first values, the first that exceed, and all that do not. -/
theorem forwarded_values (hn : n.toNat ≤ 2 ^ 31) (hpreset : preset.toNat < 2 ^ 30)
    (hflow : ∀ h ∈ ps, h.flowId = 1) (hvalue : ∀ h ∈ ps, h.value.toNat < 2 ^ 31) :
    let vs := ps.map (·.value.toNat)
    (((switch n).forwarded (Registers.init preset) ps).map (·.value.toNat) : Multiset Nat) =
      (vs.take n.toNat ++ (exceeders n.toNat preset.toNat vs).take (n.toNat + 1) : List Nat) +
        ((vs.drop n.toNat : Multiset Nat).filter fun v => ¬ 2 * lowest preset.toNat (vs.take n.toNat) < v) := by
  intro vs
  have hexceeders : (exceeders n.toNat preset.toNat vs : Multiset Nat) =
      (vs.drop n.toNat : Multiset Nat).filter fun v => 2 * lowest preset.toNat (vs.take n.toNat) < v := by
    rw [Multiset.filter_coe]
    rfl
  have hparts : (vs : Multiset Nat) =
      (vs.take n.toNat : Multiset Nat) + ((exceeders n.toNat preset.toNat vs).take (n.toNat + 1) +
        (exceeders n.toNat preset.toNat vs).drop (n.toNat + 1) +
        (vs.drop n.toNat : Multiset Nat).filter fun v => ¬ 2 * lowest preset.toNat (vs.take n.toNat) < v) := by
    rw [Multiset.coe_add, List.take_append_drop, hexceeders, Multiset.filter_add_not, Multiset.coe_add,
      List.take_append_drop]
  refine add_right_cancel ((values_eq hn hpreset hflow hvalue).symm.trans (hparts.trans ?_))
  rw [← Multiset.coe_add]
  abel

theorem keepsLargest_iff (hn : n.toNat ≤ 2 ^ 31) (hpreset : preset.toNat < 2 ^ 30)
    (hflow : ∀ h ∈ ps, h.flowId = 1) (hvalue : ∀ h ∈ ps, h.value.toNat < 2 ^ 31) :
    KeepsLargest n preset ps ↔ EnoughAbove n.toNat preset.toNat (ps.map (·.value.toNat)) := by
  rw [KeepsLargest, values_eq hn hpreset hflow hvalue, eq_comm, Lib.largest_add_eq_iff,
    forwarded_values hn hpreset hflow hvalue]
  refine forall₂_congr fun d hd => ?_
  -- a value up to the cutoff does not compare with one that exceeds it
  have hexceeds := of_decide_eq_true (List.mem_filter.mp (List.mem_of_mem_drop (Multiset.mem_coe.mp hd))).2
  rw [Multiset.countP_add, Multiset.coe_countP, Multiset.countP_eq_zero.mpr ?_, Nat.add_zero]
  intro v hv hle
  exact (Multiset.mem_filter.mp hv).2 (Nat.lt_of_lt_of_le hexceeds hle)

/-- Values that are not perilous are kept, in any order and with any of them missing. -/
theorem keepsLargest_of_safe (hn : n.toNat ≤ 2 ^ 31) (hpreset : preset.toNat < 2 ^ 30)
    (hflow : ∀ h ∈ ps, h.flowId = 1) (hvalue : ∀ h ∈ ps, h.value.toNat < 2 ^ 31)
    (h : ¬ Perilous n.toNat preset.toNat (ps.map (·.value.toNat))) (hsub : qs.Subperm ps) :
    KeepsLargest n preset qs := by
  have hvalues : (qs.map (·.value.toNat)).Subperm (ps.map (·.value.toNat)) :=
    Multiset.coe_le.mp (Multiset.map_le_map (f := fun h : Header => h.value.toNat) (Multiset.coe_le.mpr hsub))
  exact (keepsLargest_iff hn hpreset (fun p hp => hflow p (hsub.subset hp)) fun p hp =>
    hvalue p (hsub.subset hp)).mpr (enoughAbove_of_safe fun hq => h (hq.mono hvalues))

/-- Perilous values are lost in ascending order. -/
theorem loses_of_perilous (hpos : 0 < n.toNat) (hn : n.toNat ≤ 2 ^ 31) (hpreset : preset.toNat < 2 ^ 30)
    (hflow : ∀ h ∈ ps, h.flowId = 1) (hvalue : ∀ h ∈ ps, h.value.toNat < 2 ^ 31)
    (h : Perilous n.toNat preset.toNat (ps.map (·.value.toNat))) :
    ∃ qs, qs.Perm ps ∧ ¬ KeepsLargest n preset qs := by
  let le : Header → Header → Bool := fun p q => p.value.toNat ≤ q.value.toNat
  have hperm : (ps.mergeSort le).Perm ps := List.mergeSort_perm ps le
  have hsorted : ((ps.mergeSort le).map (·.value.toNat)).Pairwise (· ≤ ·) := by
    refine List.pairwise_map.mpr ((List.pairwise_mergeSort ?_ ?_ ps).imp fun hle => of_decide_eq_true hle)
    · intro p q r hpq hqr
      exact decide_eq_true (Nat.le_trans (of_decide_eq_true hpq) (of_decide_eq_true hqr))
    · intro p q
      simpa [le] using Nat.le_total _ _
  refine ⟨ps.mergeSort le, hperm, fun hkeeps => ?_⟩
  refine not_enoughAbove_ascending (h.mono (hperm.map _).symm.subperm) hsorted hpos ?_
  exact (keepsLargest_iff hn hpreset (fun p hp => hflow p (hperm.subset hp)) fun p hp =>
    hvalue p (hperm.subset hp)).mp hkeeps

/-- **In every order.** The `n` largest values of some packets come through in whatever order
they come exactly when the values are not perilous. -/
theorem every_order_iff (hpos : 0 < n.toNat) (hn : n.toNat ≤ 2 ^ 31) (hpreset : preset.toNat < 2 ^ 30)
    (hflow : ∀ h ∈ ps, h.flowId = 1) (hvalue : ∀ h ∈ ps, h.value.toNat < 2 ^ 31) :
    (∀ qs, qs.Perm ps → KeepsLargest n preset qs) ↔
      ¬ Perilous n.toNat preset.toNat (ps.map (·.value.toNat)) := by
  constructor
  · intro hall h
    obtain ⟨qs, hperm, hlost⟩ := loses_of_perilous hpos hn hpreset hflow hvalue h
    exact hlost (hall qs hperm)
  · intro h qs hperm
    exact keepsLargest_of_safe hn hpreset hflow hvalue h hperm.subperm

/-- The largest of four values is kept where it comes first, and lost in some order. -/
theorem every_order_iff_four :
    let ps : List Header := [⟨1, 0, 100⟩, ⟨1, 1, 1⟩, ⟨1, 2, 3⟩, ⟨1, 3, 3⟩]
    KeepsLargest 1 minPreset ps ∧ ∃ qs, qs.Perm ps ∧ ¬ KeepsLargest 1 minPreset qs := by
  intro ps
  have hiff : (∀ qs, qs.Perm ps → KeepsLargest 1 minPreset qs) ↔ _ :=
    every_order_iff (by decide) (by decide) (by decide) (by decide) (by decide)
  refine ⟨(keepsLargest_iff (by decide) (by decide) (by decide) (by decide)).mpr (by decide), ?_⟩
  by_contra hnone
  refine hiff.mp (fun qs hperm => ?_) (by decide)
  by_contra hlost
  exact hnone ⟨qs, hperm, hlost⟩

end Packets
end Cheetah.Query.Topn
