import Cheetah.DataPlane.Join

/-! The six filters of `cheetah_join.p4` as one Bloom filter.

A key should be in every filter once its packet has gone by, a probe should be answered by
the six bits of its key, and probing should leave the bits alone. A primary packet leaves
at the first filter that lacks it, a secondary one at the first that has it, and both write
filter 6: the results say for which keys and contents this makes no difference. -/
namespace Cheetah.DataPlane.Join

section Filters
variable {ι : Type} (hash : Bloom → Word → ι)

/-! ### Insertion -/

/-- A key that comes as often as a filter is deep gets its bit there. -/
theorem setBy_of_count (r : Registers ι) (f : Bloom) (keys : List Word) (k : Word)
    (hcount : f.rank ≤ keys.count k) : SetBy hash r f keys (index hash f k) := by
  induction keys using List.reverseRecOn generalizing f with
  | nil =>
    have hpos : 1 ≤ f.rank := by cases f <;> decide
    rw [List.count_nil] at hcount
    omega
  | append_singleton keys x ih =>
    rw [setBy_concat]
    rw [List.count_append, List.count_singleton] at hcount
    by_cases hx : x = k
    · subst hx
      rw [beq_self_eq_true, if_pos rfl] at hcount
      exact Or.inr ⟨fun g hg => ih g (by omega), rfl⟩
    · rw [beq_eq_false_iff_ne.mpr hx, if_neg Bool.false_ne_true] at hcount
      exact Or.inl (ih f hcount)

/-- From empty filters a bit of a filter takes as many packets as the filter is deep. -/
theorem rank_le_length {f : Bloom} {keys : List Word} {i : ι}
    (h : SetBy hash Registers.zero f keys i) : f.rank ≤ keys.length := by
  induction keys using List.reverseRecOn generalizing f i with
  | nil => exact absurd ((setBy_nil hash _ f i).mp h) (by simp [Registers.zero])
  | append_singleton keys x ih =>
    rw [List.length_append, List.length_singleton]
    rcases (setBy_concat hash _ f keys x i).mp h with hold | ⟨hbefore, _⟩
    · exact (ih hold).trans (Nat.le_succ _)
    · have hprev : f.rank ≤ 1 ∨ ∃ g : Bloom, g.rank + 1 = f.rank := by
        cases f
        case one => exact Or.inl (Nat.le_refl 1)
        case two => exact Or.inr ⟨.one, rfl⟩
        case three => exact Or.inr ⟨.two, rfl⟩
        case four => exact Or.inr ⟨.three, rfl⟩
        case five => exact Or.inr ⟨.four, rfl⟩
        case six => exact Or.inr ⟨.five, rfl⟩
      rcases hprev with hone | ⟨g, hg⟩
      · omega
      · have hlen := ih (hbefore g (by omega))
        omega

variable [DecidableEq ι]

/-- The key of every packet is in all six filters. -/
def InAllFilters (r : Registers ι) (ps : List Header) : Prop := ∀ h ∈ ps, ∀ f, bit hash r f h.key = 1

/-- **Insertion reaches every filter exactly when**, for every key and filter, the bit was
set before the run or a packet with that index came whose own bits were set in the filters
before. -/
theorem in_all_filters_iff (r : Registers ι) (ps : List Header) (hport : ∀ h ∈ ps, h.dstPort = 4242)
    (hflow : ∀ h ∈ ps, h.flowId = 1) :
    InAllFilters hash ((switch hash).run r ps) ps ↔
      ∀ h ∈ ps, ∀ f, SetBy hash r f (ps.map Header.key) (index hash f h.key) := by
  refine forall_congr' fun h => forall_congr' fun _ => forall_congr' fun f => ?_
  rw [bit, set_run hash r ps hport hflow]

/-- Keys that come six times are in all six filters. -/
theorem in_all_filters_of_count (r : Registers ι) (ps : List Header)
    (hport : ∀ h ∈ ps, h.dstPort = 4242) (hflow : ∀ h ∈ ps, h.flowId = 1)
    (hsix : ∀ h ∈ ps, 6 ≤ (ps.map Header.key).count h.key) :
    InAllFilters hash ((switch hash).run r ps) ps := by
  intro h hh f
  have hrank : f.rank ≤ 6 := by cases f <;> decide
  rw [bit, set_run hash r ps hport hflow]
  exact setBy_of_count hash r f _ _ (hrank.trans (hsix h hh))

/-- From empty filters fewer than six packets do not get a key into all of them. -/
theorem six_le_length_of_in_all_filters {ps : List Header} (hport : ∀ h ∈ ps, h.dstPort = 4242)
    (hflow : ∀ h ∈ ps, h.flowId = 1) (hne : ps ≠ [])
    (hall : InAllFilters hash ((switch hash).run Registers.zero ps) ps) : 6 ≤ ps.length := by
  obtain ⟨h, hh⟩ := List.exists_mem_of_ne_nil ps hne
  have hsix := hall h hh .six
  rw [bit, set_run hash _ ps hport hflow] at hsix
  have hlen := rank_le_length hash hsix
  rwa [List.length_map] at hlen

/-! ### Probes -/

/-- **A probe is answered by the six bits exactly when** some bit is 0 and the key does not
come through the filters that are read the wrong way round. -/
theorem probe_membership_iff (r : Registers ι) {h : Header} (hport : h.dstPort = 4242)
    (hflow : h.flowId = 2) :
    ((switch hash).drops r h = true ↔ ∃ f, bit hash r f h.key = 0) ↔
      (∃ f, bit hash r f h.key = 0) ∧ ¬ (Quiet hash r h.key ∧ bit hash r .six h.key = 1) := by
  have hboth : Quiet hash r h.key → ∃ f, bit hash r f h.key = 0 := fun hquiet =>
    ⟨.one, (BitVec.eq_zero_or_eq_one _).resolve_right (hquiet .one rfl)⟩
  rw [(switch_secondary hash r hport hflow).1]
  constructor
  · intro hiff
    by_cases hpass : Quiet hash r h.key ∧ bit hash r .six h.key = 1
    · exact absurd hpass (hiff.mpr (hboth hpass.1))
    · exact ⟨hiff.mp hpass, hpass⟩
  · intro hcond
    exact iff_of_true hcond.2 hcond.1

/-- **Probes leave the filters alone exactly when** no packet that gets to filter 6 finds
its bit unset there; then the verdicts do not depend on the packets before. -/
theorem probes_unchanged_iff (r : Registers ι) (S : List Header) (hport : ∀ h ∈ S, h.dstPort = 4242)
    (hflow : ∀ h ∈ S, h.flowId = 2) :
    ((switch hash).run r S = r ∧
        ∀ h, (switch hash).drops ((switch hash).run r S) h = (switch hash).drops r h) ↔
      ∀ h ∈ S, Quiet hash r h.key → bit hash r .six h.key = 1 := by
  have hrun := probe_run hash r S hport hflow
  constructor
  · intro hsame h hh hquiet
    have hsix := (hrun .six (index hash .six h.key)).mpr (Or.inr ⟨rfl, h, hh, hquiet, rfl⟩)
    rwa [hsame.1] at hsix
  · intro hset
    have hkeep : (switch hash).run r S = r := by
      funext f i
      have hbit : (switch hash).run r S f i = 1 ↔ r f i = 1 := by
        rw [hrun]
        refine or_iff_left_of_imp ?_
        intro hadded
        obtain ⟨rfl, h, hh, hquiet, rfl⟩ := hadded
        exact hset h hh hquiet
      rcases BitVec.eq_zero_or_eq_one (r f i) with hzero | hone
      · rw [hzero]
        refine (BitVec.eq_zero_or_eq_one _).resolve_right fun hone => ?_
        exact absurd (hzero.symm.trans (hbit.mp hone)) (by decide)
      · rw [hone]
        exact hbit.mpr hone
    exact ⟨hkeep, fun h => by rw [hkeep]⟩

end Filters

/-- The index of a key is the key. -/
def identityHash : Bloom → Word → Word := fun _ key => key

/-- Six copies of one row. -/
theorem in_all_filters_iff_six :
    InAllFilters identityHash ((switch identityHash).run Registers.zero
        (List.replicate 6 ⟨4242, 1, 2, 14, 0⟩)) (List.replicate 6 ⟨4242, 1, 2, 14, 0⟩) ↔
      ∀ h ∈ List.replicate 6 (⟨4242, 1, 2, 14, 0⟩ : Header), ∀ f, SetBy identityHash Registers.zero f
        ((List.replicate 6 (⟨4242, 1, 2, 14, 0⟩ : Header)).map Header.key) (index identityHash f h.key) :=
  in_all_filters_iff identityHash Registers.zero _ (by simp) (by simp)

/-- One row sets its bit in the first filter only. -/
theorem insertion_stops :
    ¬ InAllFilters identityHash ((switch identityHash).run Registers.zero [⟨4242, 1, 2, 14, 0⟩])
      [⟨4242, 1, 2, 14, 0⟩] := by
  intro hall
  exact absurd (hall ⟨4242, 1, 2, 14, 0⟩ (List.mem_singleton.mpr rfl) .two) (by decide)

/-- A probe of empty filters. -/
theorem probe_membership_iff_empty :
    ((switch identityHash).drops Registers.zero ⟨4242, 2, 1, 14, 0⟩ = true ↔
        ∃ f, bit identityHash Registers.zero f 14 = 0) ↔
      (∃ f, bit identityHash Registers.zero f 14 = 0) ∧
        ¬ (Quiet identityHash Registers.zero 14 ∧ bit identityHash Registers.zero .six 14 = 1) :=
  probe_membership_iff (h := ⟨4242, 2, 1, 14, 0⟩) identityHash Registers.zero rfl rfl

/-- A key whose six bits are all set is dropped. -/
theorem member_dropped :
    ¬ ((switch identityHash).drops (fun _ _ => 1) ⟨4242, 2, 1, 14, 0⟩ = true ↔
      ∃ f, bit identityHash (fun _ _ => 1) f 14 = 0) := by
  intro hiff
  obtain ⟨f, hf⟩ := hiff.mp (by decide)
  exact absurd hf (by simp [bit])

/-- A probe that finds its bit of the first filter. -/
theorem probes_unchanged_iff_one :
    ((switch identityHash).run (fun _ _ => 1) [⟨4242, 2, 1, 14, 0⟩] = (fun _ _ => 1) ∧
        ∀ h, (switch identityHash).drops
            ((switch identityHash).run (fun _ _ => 1) [⟨4242, 2, 1, 14, 0⟩]) h =
          (switch identityHash).drops (fun _ _ => 1) h) ↔
      ∀ h ∈ [(⟨4242, 2, 1, 14, 0⟩ : Header)], Quiet identityHash (fun _ _ => 1) h.key →
        bit identityHash (fun _ _ => 1) .six h.key = 1 :=
  probes_unchanged_iff identityHash (fun _ _ => 1) _ (by decide) (by decide)

/-- A probe of empty filters sets its bit in filter 6, and the same probe then comes out. -/
theorem probe_writes :
    (switch identityHash).run Registers.zero [⟨4242, 2, 1, 14, 0⟩] ≠ Registers.zero ∧
      (switch identityHash).drops Registers.zero ⟨4242, 2, 1, 14, 0⟩ = true ∧
      (switch identityHash).drops ((switch identityHash).run Registers.zero [⟨4242, 2, 1, 14, 0⟩])
        ⟨4242, 2, 1, 14, 0⟩ = false := by
  refine ⟨fun heq => ?_, by decide, by decide⟩
  have hbit := congrFun (congrFun heq .six) (index identityHash .six 14)
  revert hbit
  decide

end Cheetah.DataPlane.Join
