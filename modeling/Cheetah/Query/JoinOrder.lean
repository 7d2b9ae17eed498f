import Cheetah.Query.Join

/-! JOIN, when the tables' packets come in any order.

The bits of filters 1 to 5 are set by primary packets only. So a primary packet whose index
in one of them is its own finds the bit not set, whatever came before, and leaves there:
what the master gets are secondary rows. -/
namespace Cheetah.Query.Join
open Lib DataPlane DataPlane.Join Host.Join

section Order
variable {ι : Type} [DecidableEq ι] (hash : Bloom → Word → ι)

/-- Packets of the two tables, to the port of the rules. -/
structure Tables (ps : List Header) : Prop where
  port : ∀ h ∈ ps, h.dstPort = 4242
  flow : ∀ h ∈ ps, h.flowId = 1 ∨ h.flowId = 2

/-- The primary packets with an index in a filter. -/
def sharing (f : Bloom) (i : ι) (h : Header) : Bool := h.flowId = 1 && index hash f h.key = i

/-- Every primary packet has an index of its own, among primary ones, in some filter that
only they set. -/
def Alone (ps : List Header) : Prop :=
  ∀ h ∈ ps, h.flowId = 1 → ∃ f, f ≠ Bloom.six ∧ ps.countP (sharing hash f (index hash f h.key)) ≤ 1

variable {hash} {ps : List Header}

theorem Tables.subset {qs : List Header} (h : Tables ps) (hsub : qs ⊆ ps) : Tables qs :=
  ⟨fun q hq => h.port q (hsub hq), fun q hq => h.flow q (hsub hq)⟩

/-- A bit that is set in a filter but the sixth was set by a primary packet. -/
theorem primary_of_bit (h : Tables ps) {f : Bloom} (hf : f ≠ .six) {i : ι}
    (hbit : (switch hash).run Registers.zero ps f i = 1) : ∃ q ∈ ps, sharing hash f i q = true := by
  induction ps using List.reverseRecOn with
  | nil => exact absurd (show (0 : BitVec 1) = 1 from hbit) (by decide)
  | append_singleton ps p ih =>
    rw [Pruner.run_concat] at hbit
    have hport := h.port p (by simp)
    have hkeep : (switch hash).run Registers.zero ps f i = 1 → ∃ q ∈ ps ++ [p], sharing hash f i q = true := by
      intro hold
      obtain ⟨q, hq, hshare⟩ := ih (h.subset (List.subset_append_left _ _)) hold
      exact ⟨q, List.mem_append_left _ hq, hshare⟩
    rcases h.flow p (by simp) with hflow | hflow
    · rcases ((switch_primary hash _ hport hflow).2 f i).mp hbit with hold | ⟨_, hindex⟩
      · exact hkeep hold
      · exact ⟨p, by simp, by simp [sharing, hflow, hindex]⟩
    · obtain ⟨_, hquiet, hloud⟩ := switch_secondary hash ((switch hash).run Registers.zero ps) hport hflow
      by_cases hq : Quiet hash ((switch hash).run Registers.zero ps) p.key
      · rw [hquiet hq, setBit_eq_one] at hbit
        exact hkeep (hbit.resolve_right fun hboth => hf hboth.1)
      · rw [hloud hq] at hbit
        exact hkeep hbit

/-- **In any order** of any of the packets, none of the primary ones comes out. -/
theorem forwarded_secondary {all : List Header} (h : Tables all) (halone : Alone hash all)
    (hle : (ps : Multiset Header) ≤ (all : Multiset Header)) {p : Header} (hp : p ∈ forwarded hash ps) :
    p.flowId = 2 := by
  have hsub : ps ⊆ all := fun q hq => Multiset.mem_of_le hle hq
  refine (h.flow p (hsub ((switch hash).forwarded_subset _ _ hp))).resolve_left fun hflow => ?_
  obtain ⟨front, back, he⟩ := List.append_of_mem hp
  obtain ⟨pre, post, rfl, hdrop, _⟩ := ((switch hash).forwarded_eq_append_cons _ _ _ _ _).mp he
  have hmem : p ∈ all := hsub (by simp)
  obtain ⟨f, hf, hone⟩ := halone p hmem hflow
  have hcount : (pre ++ p :: post).countP (sharing hash f (index hash f p.key)) ≤ 1 := by
    exact Nat.le_trans ((Multiset.coe_le.mp hle).countP_le _) hone
  have hset : bit hash ((switch hash).run Registers.zero pre) f p.key = 1 := by
    by_contra hzero
    have hdrops := (switch_primary hash _ (h.port p hmem) hflow).1.mpr ⟨f, hzero⟩
    rw [hdrop] at hdrops
    cases hdrops
  obtain ⟨q, hq, hshare⟩ := primary_of_bit (h.subset fun q hq => hsub (List.mem_append_left _ hq)) hf hset
  have hself : sharing hash f (index hash f p.key) p = true := by simp [sharing, hflow]
  have htwo := List.countP_pos_iff.mpr ⟨q, hq, hshare⟩
  rw [List.countP_append, List.countP_cons_of_pos hself] at hcount
  omega

end Order

/-! ### Entries -/

section Entries
variable {κ : Type} [DecidableEq κ] {format : Word → κ} {calls : List Call}

/-- A row is held for the key of its call. -/
theorem mem_held {e : Word × Word} (h : e ∈ held format calls) : ∃ a ∈ calls, e = (a.key, a.rowId) := by
  induction calls using List.reverseRecOn with
  | nil => cases h
  | append_singleton calls a ih =>
    rw [held_concat, hold] at h
    have hold : e ∈ held format calls → ∃ b ∈ calls ++ [a], e = (b.key, b.rowId) := by
      intro he
      obtain ⟨b, hb, heq⟩ := ih he
      exact ⟨b, List.mem_append_left _ hb, heq⟩
    split at h
    · rcases List.mem_append.mp h with he | he
      · exact hold he
      · exact ⟨a, by simp, List.mem_singleton.mp he⟩
    · exact hold h

/-- An entry has the rows of two calls with one key, the second of them secondary. -/
theorem mem_produced {p s : Word} (h : ⟨p, s⟩ ∈ produced format calls) :
    ∃ a ∈ calls, ∃ b ∈ calls, a.key = b.key ∧ a.rowId = p ∧ b.rowId = s ∧ b.tbl = .secondary := by
  obtain ⟨pre, b, post, rfl, hb, hs, hp⟩ := mem_outputs.mp h
  rw [List.nil_append] at hp
  obtain ⟨e, he, rfl⟩ := List.mem_map.mp hp
  obtain ⟨hheld, hkey⟩ := List.mem_filter.mp he
  obtain ⟨a, ha, rfl⟩ := mem_held hheld
  exact ⟨a, List.mem_append_left _ ha, b, by simp, of_decide_eq_true hkey, rfl, hs, hb⟩

theorem length_held_le (calls : List Call) : (held format calls).length ≤ calls.length := by
  induction calls using List.reverseRecOn with
  | nil => exact Nat.le_refl 0
  | append_singleton calls a ih =>
    rw [held_concat, hold, List.length_append, List.length_singleton]
    split
    · rw [List.length_append, List.length_singleton]
      exact Nat.succ_le_succ ih
    · exact Nat.le_succ_of_le ih

/-- No call has more entries than there were calls. -/
theorem length_produced_le_mul (calls : List Call) :
    (produced format calls).length ≤ calls.length * calls.length := by
  induction calls using List.reverseRecOn with
  | nil => exact Nat.le_refl 0
  | append_singleton calls a ih =>
    have hlast : (emitted (rowsOf (held format calls) a.key) a).length ≤ calls.length := by
      refine Nat.le_trans ?_ (@length_held_le κ _ format calls)
      unfold emitted
      cases a.tbl with
      | primary => exact Nat.zero_le _
      | secondary =>
        rw [List.length_map, rowsOf, List.length_map]
        exact List.length_filter_le _ _
    rw [produced_concat, List.length_append, List.length_append, List.length_singleton, Nat.add_mul,
      Nat.mul_add]
    omega

end Entries
end Cheetah.Query.Join
