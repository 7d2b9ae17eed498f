import Cheetah.Lib.Pruning
import Mathlib.Logic.Function.Basic

/-! What the queries use of a Tofino pipeline: stateful ALUs, match-action tables
and the path of one packet through `ingress`.

A stateful ALU evaluates its two conditions on the packet's fields and the old
register word. The register takes the value of the update whose predicate holds
and keeps its word when none does; the `hi` output is the OR of the values whose
predicates hold, 0 when none does. Comparisons are exact: `diff` subtracts in the
integers. A table runs the action of the entry that matches and its default
action on a miss; an entry whose key is already installed is rejected. -/
namespace Cheetah.DataPlane

abbrev Word := BitVec 32
abbrev FlowId := BitVec 16

/-- The difference a condition compares with 0. -/
def diff (a b : Word) : Int := (a.toNat : Int) - b.toNat

theorem diff_eq_zero (a b : Word) : diff a b = 0 ↔ a = b := by
  constructor
  · intro h
    apply BitVec.eq_of_toNat_eq
    unfold diff at h
    omega
  · intro heq
    obtain rfl := heq
    exact Int.sub_self _

theorem diff_pos (a b : Word) : diff a b > 0 ↔ b < a := by
  rw [BitVec.lt_def]
  unfold diff
  omega

theorem diff_neg (a b : Word) : diff a b < 0 ↔ a < b := by
  rw [BitVec.lt_def]
  unfold diff
  omega

/-! ### Stateful ALUs -/

/-- One update: a predicate on `condition_lo` and `condition_hi`, and a value from
the packet's fields and the old register word. -/
structure Update (F : Type) where
  predicate : Bool → Bool → Bool
  value : F → Word → Word

/-- A `blackbox stateful_alu`. A condition the source leaves out is never read. -/
structure StatefulAlu (F : Type) where
  conditionLo : F → Word → Bool := fun _ _ => false
  conditionHi : F → Word → Bool := fun _ _ => false
  updateLo : List (Update F) := []
  updateHi : List (Update F) := []

namespace StatefulAlu
variable {F : Type} (alu : StatefulAlu F)

def holds (f : F) (reg : Word) (u : Update F) : Bool :=
  u.predicate (alu.conditionLo f reg) (alu.conditionHi f reg)

/-- The word the register holds afterwards; also the `alu_lo` output. -/
def lo (f : F) (reg : Word) : Word :=
  match alu.updateLo.find? (alu.holds f reg) with
  | some u => u.value f reg
  | none => reg

/-- The `alu_hi` output. -/
def hi (f : F) (reg : Word) : Word :=
  ((alu.updateHi.filter (alu.holds f reg)).map fun u => u.value f reg).foldl (· ||| ·) 0

end StatefulAlu

/-- An instruction on a 1-bit register: the new bit and the output. -/
abbrev BitAlu := BitVec 1 → BitVec 1 × BitVec 1

/-- Sets the bit and outputs the complement of its old value. -/
def setBitc : BitAlu := fun bit => (1, ~~~bit)

/-- Outputs the bit. -/
def readBit : BitAlu := fun bit => (bit, bit)

/-! ### Match-action tables -/

/-- A table over packets in state `S`: what it reads, the installed entries and the
default action. -/
structure Table (K S : Type) where
  reads : S → K
  entries : List (K × (S → S))
  default : S → S

namespace Table
variable {K S : Type} [DecidableEq K]

/-- `add_entry`: rejected when the key is already installed. -/
def addEntry (t : Table K S) (entry : K × (S → S)) : Table K S :=
  if (t.entries.lookup entry.1).isSome then t else {t with entries := t.entries ++ [entry]}

/-- The table after its rules, in the order they are installed. -/
def install (reads : S → K) (default : S → S) (rules : List (K × (S → S))) : Table K S :=
  rules.foldl addEntry ⟨reads, [], default⟩

def apply (t : Table K S) (s : S) : S := ((t.entries.lookup (t.reads s)).getD t.default) s

/-- Installing after `t` adds the entries that `t` and earlier rules leave room for. -/
theorem foldl_addEntry (t : Table K S) (rules : List (K × (S → S))) :
    (rules.foldl addEntry t).reads = t.reads ∧ (rules.foldl addEntry t).default = t.default ∧
      ∀ k, (rules.foldl addEntry t).entries.lookup k = (t.entries ++ rules).lookup k := by
  induction rules generalizing t with
  | nil => exact ⟨rfl, rfl, fun k => by rw [List.append_nil]; rfl⟩
  | cons e rest ih =>
    obtain ⟨hreads, hdefault, hlookup⟩ := ih (t.addEntry e)
    rw [List.foldl_cons]
    by_cases hdup : (t.entries.lookup e.1).isSome
    · rw [addEntry, if_pos hdup] at hreads hdefault hlookup ⊢
      refine ⟨hreads, hdefault, fun k => ?_⟩
      rw [hlookup k, List.lookup_append, List.lookup_append]
      by_cases hk : k = e.1
      · rw [← hk] at hdup
        obtain ⟨a, ha⟩ := Option.isSome_iff_exists.mp hdup
        rw [ha, Option.some_or, Option.some_or]
      · rw [List.lookup_cons, beq_eq_false_iff_ne.mpr hk]
    · rw [addEntry, if_neg hdup] at hreads hdefault hlookup ⊢
      refine ⟨hreads, hdefault, fun k => ?_⟩
      rw [hlookup k, List.append_assoc, List.singleton_append]

/-- A packet runs the action of the first rule with its key, or the default. -/
theorem apply_install (reads : S → K) (default : S → S) (rules : List (K × (S → S))) (s : S) :
    (install reads default rules).apply s = ((rules.lookup (reads s)).getD default) s := by
  obtain ⟨hreads, hdefault, hlookup⟩ := foldl_addEntry ⟨reads, [], default⟩ rules
  rw [apply, install, hreads, hdefault, hlookup]
  rfl

/-- A lookup compares the keys in order. -/
theorem lookup_cons_ite {A : Type} (k k' : K) (a : A) (rest : List (K × A)) :
    List.lookup k ((k', a) :: rest) = if k = k' then some a else rest.lookup k := by
  rw [List.lookup_cons]
  by_cases h : k = k'
  · rw [if_pos h, beq_iff_eq.mpr h]
  · rw [if_neg h, beq_eq_false_iff_ne.mpr h]

/-- A table with one rule runs it on the packets that match and the default on the rest. -/
theorem apply_install_one (reads : S → K) (default action : S → S) (k : K) (s : S) :
    (install reads default [(k, action)]).apply s = if reads s = k then action s else default s := by
  rw [apply_install, lookup_cons_ite]
  split <;> rfl

/-- A table whose rules all run one action runs it on the packets that match. -/
theorem apply_install_hit (reads : S → K) (default action : S → S) {ks : List K} {s : S}
    (hit : reads s ∈ ks) :
    (install reads default (ks.map fun k => (k, action))).apply s = action s := by
  have hlookup : (ks.map fun k => (k, action)).lookup (reads s) = some action := by
    induction ks with
    | nil => cases hit
    | cons k rest ih =>
      rw [List.map_cons, lookup_cons_ite]
      split
      · rfl
      · rename_i hne
        exact ih ((List.mem_cons.mp hit).resolve_left hne)
  rw [apply_install, hlookup]
  rfl

/-- The same on any packet. -/
theorem apply_install_mem (reads : S → K) (default action : S → S) (ks : List K) (s : S) :
    (install reads default (ks.map fun k => (k, action))).apply s =
      if reads s ∈ ks then action s else default s := by
  by_cases hit : reads s ∈ ks
  · rw [if_pos hit]
    exact apply_install_hit reads default action hit
  · have hlookup : (ks.map fun k => (k, action)).lookup (reads s) = none := by
      rw [List.lookup_eq_none_iff]
      intro e he
      obtain ⟨k, hk, rfl⟩ := List.mem_map.mp he
      refine bne_iff_ne.mpr fun heq : reads s = k => hit ?_
      rw [heq]
      exact hk
    rw [if_neg hit, apply_install, hlookup]
    rfl

end Table

/-! ### A packet in the pipeline -/

/-- A packet's header and metadata, the registers, and whether `drop()` was called. -/
structure Pipe (H M R : Type) where
  hdr : H
  md : M
  regs : R
  dropped : Bool

/-- `drop()`. -/
def Pipe.drop {H M R : Type} (p : Pipe H M R) : Pipe H M R := {p with dropped := true}

/-- The pipeline as a machine on packets: each enters with the metadata the parser
leaves it, and the registers stay for the next one. -/
def pruner {H M R : Type} (parse : H → M) (ingress : Pipe H M R → Pipe H M R) :
    Lib.Pruner H R where
  step := fun regs h => (ingress ⟨h, parse h, regs, false⟩).regs
  drops := fun regs h => (ingress ⟨h, parse h, regs, false⟩).dropped

section Pruner
variable {H M R : Type} (parse : H → M) (ingress : Pipe H M R → Pipe H M R) (regs : R) (h : H)

@[simp] theorem pruner_step :
    (pruner parse ingress).step regs h = (ingress ⟨h, parse h, regs, false⟩).regs := rfl

@[simp] theorem pruner_drops :
    (pruner parse ingress).drops regs h = (ingress ⟨h, parse h, regs, false⟩).dropped := rfl

end Pruner

end Cheetah.DataPlane
