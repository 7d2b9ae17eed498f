import Cheetah.DataPlane.Topn
import Cheetah.Lib.Largest

/-! TOP N on the switch.

The switch drops the packets above its cutoff, where it means to drop those below: once
`N + 1` packets have exceeded twice the minimum learnt, every later one that does is
dropped, however large. The result survives when enough of the values that came through
are no smaller. -/
namespace Cheetah.Query.Topn
open DataPlane DataPlane.Topn

/-- Of the values after the first `n` that exceed twice their minimum, each one past the
first `n + 1` has `n` values no smaller among the first `n` values and the first `n + 1`
that exceed. -/
def EnoughAbove (n preset : Nat) (vs : List Nat) : Prop :=
  ∀ d ∈ (exceeders n preset vs).drop (n + 1),
    n ≤ (vs.take n ++ (exceeders n preset vs).take (n + 1)).countP fun v => d ≤ v

instance (n preset : Nat) (vs : List Nat) : Decidable (EnoughAbove n preset vs) :=
  inferInstanceAs (Decidable (∀ d ∈ _, _))

/-- Only the values above the cutoff compare with one of them. -/
theorem countP_drop {n preset : Nat} {vs : List Nat} {d : Nat}
    (hd : 2 * lowest preset (vs.take n) < d) :
    (vs.drop n).countP (fun v => d ≤ v) = (exceeders n preset vs).countP fun v => d ≤ v := by
  rw [exceeders, List.countP_filter]
  refine List.countP_congr fun v _ => ?_
  simp only [Bool.and_eq_true, decide_eq_true_eq]
  constructor
  · intro hv
    exact ⟨hv, Nat.lt_of_lt_of_le hd hv⟩
  · intro hboth
    obtain ⟨hv, _⟩ := hboth
    exact hv

/-- **TOP N is preserved exactly when** every dropped value has `n` values no smaller
among the first `n` and the exceeding ones that came through. -/
theorem topn_preserved_iff (n : Word) (hn : n.toNat ≤ 2 ^ 31) (ps : List Header)
    (hflow : ∀ h ∈ ps, h.flowId = 1) (hvalue : ∀ h ∈ ps, h.value.toNat < 2 ^ 31) :
    Lib.largest n.toNat
        (((switch n).forwarded (Registers.init minPreset) ps).map (·.value.toNat) : Multiset Nat) =
      Lib.largest n.toNat (ps.map (·.value.toNat) : Multiset Nat) ↔
    EnoughAbove n.toNat minPreset.toNat (ps.map (·.value.toNat)) := by
  obtain ⟨_, hdropped⟩ := learnt_run hn minPreset (by decide) ps hflow hvalue
  have hsplit : (ps.map (·.value.toNat) : Multiset Nat) =
      (((switch n).forwarded (Registers.init minPreset) ps).map (·.value.toNat) : Multiset Nat) +
        (((switch n).dropped (Registers.init minPreset) ps).map (·.value.toNat) : Multiset Nat) := by
    rw [← Multiset.map_coe, ← Multiset.map_coe, ← Multiset.map_coe, ← Multiset.map_add,
      ← Lib.Pruner.split]
  generalize ((switch n).forwarded (Registers.init minPreset) ps).map (·.value.toNat) = kept at hsplit ⊢
  rw [hdropped] at hsplit
  generalize ps.map (·.value.toNat) = vs at hsplit ⊢
  rw [eq_comm, hsplit, Lib.largest_add_eq_iff]
  refine forall₂_congr fun d hd => ?_
  -- the values no smaller than a dropped one, counted over the whole stream and over its parts
  have hexceeds : 2 * lowest minPreset.toNat (vs.take n.toNat) < d := by
    have hmem := List.mem_of_mem_drop (Multiset.mem_coe.mp hd)
    exact of_decide_eq_true (List.mem_filter.mp hmem).2
  have hall := congrArg (Multiset.countP fun v => d ≤ v) hsplit
  rw [Multiset.countP_add, Multiset.coe_countP, Multiset.coe_countP, Multiset.coe_countP] at hall
  have hvs : vs.countP (fun v => d ≤ v) = (vs.take n.toNat).countP (fun v => d ≤ v) +
      (exceeders n.toNat minPreset.toNat vs).countP fun v => d ≤ v := by
    rw [← countP_drop hexceeds, ← List.countP_append, List.take_append_drop]
  have hparts : (exceeders n.toNat minPreset.toNat vs).countP (fun v => d ≤ v) =
      ((exceeders n.toNat minPreset.toNat vs).take (n.toNat + 1)).countP (fun v => d ≤ v) +
        ((exceeders n.toNat minPreset.toNat vs).drop (n.toNat + 1)).countP fun v => d ≤ v := by
    rw [← List.countP_append, List.take_append_drop]
  rw [Multiset.coe_countP, List.countP_append]
  omega

/-- One value is asked for, and two that exceed the cutoff come before the largest. -/
theorem topn_preserved_iff_one :
    Lib.largest 1 (((switch 1).forwarded (Registers.init minPreset)
        [⟨1, 0, 1⟩, ⟨1, 1, 3⟩, ⟨1, 2, 7⟩, ⟨1, 3, 5⟩]).map (·.value.toNat) : Multiset Nat) =
      Lib.largest 1 ([⟨1, 0, 1⟩, ⟨1, 1, 3⟩, ⟨1, 2, 7⟩, ⟨1, 3, 5⟩].map
        (fun h : Header => h.value.toNat) : Multiset Nat) ↔
    EnoughAbove 1 10000 [1, 3, 7, 5] :=
  topn_preserved_iff 1 (by decide) [⟨1, 0, 1⟩, ⟨1, 1, 3⟩, ⟨1, 2, 7⟩, ⟨1, 3, 5⟩] (by decide) (by decide)

/-- The largest of 1, 3, 3, 100 is dropped: the two values 3 filled the second counter. -/
theorem topn_lost :
    Lib.largest 1 (((switch 1).forwarded (Registers.init minPreset)
        [⟨1, 0, 1⟩, ⟨1, 1, 3⟩, ⟨1, 2, 3⟩, ⟨1, 3, 100⟩]).map (·.value.toNat) : Multiset Nat) ≠
      Lib.largest 1 ([⟨1, 0, 1⟩, ⟨1, 1, 3⟩, ⟨1, 2, 3⟩, ⟨1, 3, 100⟩].map
        (fun h : Header => h.value.toNat) : Multiset Nat) := by
  have hfwd : ((switch 1).forwarded (Registers.init minPreset)
      [⟨1, 0, 1⟩, ⟨1, 1, 3⟩, ⟨1, 2, 3⟩, ⟨1, 3, 100⟩]).map (·.value.toNat) = [1, 3, 3] := by decide
  rw [hfwd]
  intro heq
  have hcount := congrArg (Multiset.count 100) heq
  rw [Lib.count_largest, Lib.count_largest] at hcount
  exact absurd hcount (by decide)

end Cheetah.Query.Topn
