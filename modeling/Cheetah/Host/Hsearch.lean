import Cheetah.Lib.ChainedTable

/-! `hsearch_r`, as the stores use it.

A store asks its hash table two things: `FIND` a key and `ENTER` a key that was not
found. `Hsearch` is that interface, `Htab` the map it is documented to be: it finds
what was entered under a key, entering keeps every other entry, and `ENTER` fails
when the table is full. What a key is is left to the caller: it is whatever
`hsearch_r` sees of the string it is given, so two keys with the same string are one. -/
namespace Cheetah.Host

/-- `uint32_t`. -/
abbrev Word := BitVec 32

/-- A counter below a bound does not wrap when it is incremented. -/
theorem toNat_succ {n size : Word} (h : n.toNat < size.toNat) : (n + 1).toNat = n.toNat + 1 := by
  have hsize := size.isLt
  rw [BitVec.toNat_add, show (1 : Word).toNat = 1 from rfl, Nat.mod_eq_of_lt (by omega)]

/-- A table in state `τ`, keyed by `κ`, whose data are addresses of nodes. -/
structure Hsearch (τ κ : Type) where
  find : τ → κ → Option Nat
  /-- No result when `hsearch_r` returns 0. -/
  enter : τ → κ → Nat → Option τ

/-- The entries made so far and how many the table can hold; `none` when it never fills. -/
structure Htab (κ : Type) where
  entries : List (κ × Nat)
  capacity : Option Nat

namespace Htab
variable {κ : Type} [DecidableEq κ]

def find (t : Htab κ) (k : κ) : Option Nat := t.entries.lookup k

def full (t : Htab κ) : Bool :=
  match t.capacity with
  | none => false
  | some c => decide (c ≤ t.entries.length)

/-- An entry with the key is left as it is. -/
def enter (t : Htab κ) (k : κ) (data : Nat) : Option (Htab κ) :=
  match t.find k with
  | some _ => some t
  | none => if t.full then none else some {t with entries := t.entries ++ [(k, data)]}

def hsearch : Hsearch (Htab κ) κ := ⟨find, enter⟩

theorem enter_new {t : Htab κ} {k : κ} (hfind : t.entries.lookup k = none)
    (hroom : ∀ c, t.capacity = some c → t.entries.length < c) (data : Nat) :
    t.enter k data = some {t with entries := t.entries ++ [(k, data)]} := by
  have hfull : t.full = false := by
    unfold full
    split
    · rfl
    · rename_i c hc
      exact decide_eq_false (Nat.not_le.mpr (hroom c hc))
  simp [enter, find, hfind, hfull]

theorem enter_full {t : Htab κ} {k : κ} (hfind : t.entries.lookup k = none) {c : Nat}
    (hcap : t.capacity = some c) (hfull : c ≤ t.entries.length) (data : Nat) :
    t.enter k data = none := by
  simp [enter, find, hfind, full, hcap, hfull]

end Htab

/-- `hcreate_r`: a table made for `nel` entries holds at least that many. -/
structure Hcreate where
  capacity : Nat → Option Nat
  holds : ∀ nel c, capacity nel = some c → nel ≤ c

namespace Hcreate

/-- Tables that never fill. -/
def unbounded : Hcreate := ⟨fun _ => none, fun _ _ h => by cases h⟩

/-- Tables that hold what they are made for and no more. -/
def least : Hcreate := ⟨some, fun _ _ h => Nat.le_of_eq (Option.some.inj h)⟩

def create {κ : Type} (hc : Hcreate) (nel : Nat) : Htab κ := ⟨[], hc.capacity nel⟩

end Hcreate
end Cheetah.Host
