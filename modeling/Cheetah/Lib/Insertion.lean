import Cheetah.Lib.Buffer
import Mathlib.Data.List.Induction
import Mathlib.Data.Multiset.Sort

/-! Keeping an array in descending order by insertion.

The place of a new value is found by scanning down from the last entry, the smaller
entries move up by one slot and the value takes the slot they leave. The loops run on
signed indices, as the scan ends at -1 when every entry is smaller. `insertAt` is the
effect on the array: the slot above the entries that move is overwritten.
`take_sort_cons` says what this means for the largest entries of a multiset. -/
namespace Cheetah.Lib

namespace Buffer
variable {α : Type}

/-! ### Signed indices -/

/-- `b[i]` for a signed index. -/
def readAt (b : Buffer α) : Int → Option α
  | .ofNat i => b.read i
  | .negSucc _ => none

/-- `b[i] = x` for a signed index. -/
def writeAt (b : Buffer α) (i : Int) (x : α) : Option (Buffer α) :=
  match i with
  | .ofNat i => b.write i x
  | .negSucc _ => none

@[simp] theorem readAt_natCast (b : Buffer α) (i : Nat) : b.readAt i = b.read i := rfl

@[simp] theorem writeAt_natCast (b : Buffer α) (i : Nat) (x : α) : b.writeAt i x = b.write i x := rfl

theorem read_append_cons (pre rest : Buffer α) (x : α) :
    Buffer.read (pre ++ some x :: rest) pre.length = some x := by
  simp [Buffer.read]

theorem write_append_cons (pre rest : Buffer α) (slot : Option α) (x : α) :
    Buffer.write (pre ++ slot :: rest) pre.length x = some (pre ++ some x :: rest) := by
  simp [Buffer.write]

/-! ### The two loops -/

/-- `while (i >= 0 && p(b[i])) i--` from `i = k - 1`: where `i` ends. -/
def scanBelow (b : Buffer α) (p : α → Bool) : Nat → Option Int
  | 0 => some (-1)
  | k + 1 => do
    let x ← b.read k
    if p x then scanBelow b p k else some k

/-- `while (i >= 0 && p(b[i])) i--` from any `i`. -/
def scanDown (b : Buffer α) (p : α → Bool) : Int → Option Int
  | .ofNat i => scanBelow b p (i + 1)
  | .negSucc i => some (.negSucc i)

/-- The first turns of `for (j = last; j > i; j--) b[j + 1] = b[j]`. -/
def shiftTurns : Nat → Int → Buffer α → Option (Buffer α)
  | 0, _, b => some b
  | turns + 1, j, b => do
    let x ← b.readAt j
    let b ← b.writeAt (j + 1) x
    shiftTurns turns (j - 1) b

/-- `for (j = last; j > i; j--) b[j + 1] = b[j]`. -/
def shiftUp (b : Buffer α) (last i : Int) : Option (Buffer α) := shiftTurns (last - i).toNat last b

/-- Without a turn the array stays as it is. -/
theorem shiftUp_of_le (b : Buffer α) {last i : Int} (h : last ≤ i) : b.shiftUp last i = some b := by
  rw [shiftUp, show (last - i).toNat = 0 from by omega, shiftTurns]

theorem scanDown_length (b : Buffer α) (p : α → Bool) (k : Nat) :
    b.scanDown p ((k : Int) - 1) = b.scanBelow p k := by
  cases k with
  | zero =>
    rw [show ((0 : Nat) : Int) - 1 = Int.negSucc 0 from rfl]
    rfl
  | succ k =>
    rw [show ((k + 1 : Nat) : Int) - 1 = Int.ofNat k from by simp]
    rfl

/-- The scan passes entries that satisfy `p` and stops below them. -/
theorem scanBelow_spec {b : Buffer α} {p : α → Bool} (front tail : List α)
    (h : Holds b (front ++ tail)) (htail : ∀ x ∈ tail, p x = true) :
    ∃ kept moved, kept ++ moved = front ++ tail ∧
      b.scanBelow p front.length = some ((kept.length : Int) - 1) ∧
      (∀ x ∈ moved, p x = true) ∧ ∀ x, kept.getLast? = some x → p x = false := by
  induction front using List.reverseRecOn generalizing tail with
  | nil => exact ⟨[], tail, rfl, rfl, htail, fun x hx => by cases hx⟩
  | append_singleton front x ih =>
    have hread : b.read front.length = some x := by
      rw [h.read (by simp)]
      simp
    rw [List.length_append, List.length_singleton, scanBelow, hread]
    cases hx : p x with
    | true =>
      obtain ⟨kept, moved, hsplit, hscan, hmoved, hkept⟩ := ih (x :: tail) (by simpa using h)
        (List.forall_mem_cons.mpr ⟨hx, htail⟩)
      exact ⟨kept, moved, by rw [hsplit]; simp, by simpa [hx] using hscan, hmoved, hkept⟩
    | false =>
      refine ⟨front ++ [x], tail, rfl, by simp [hx], htail, ?_⟩
      intro y hy
      rw [List.getLast?_concat] at hy
      rw [← Option.some.inj hy, hx]

/-- The loop moves `moved` up by one slot. -/
theorem shiftTurns_spec (pre rest : Buffer α) (moved : List α) (slot : Option α) :
    ∃ free, shiftTurns moved.length ((pre.length + moved.length : Nat) - 1)
      (pre ++ moved.map some ++ slot :: rest) = some (pre ++ free :: (moved.map some ++ rest)) := by
  induction moved using List.reverseRecOn generalizing rest slot with
  | nil => exact ⟨slot, by simp [shiftTurns]⟩
  | append_singleton moved x ih =>
    obtain ⟨free, hfree⟩ := ih (some x :: rest) (some x)
    refine ⟨free, ?_⟩
    have hlen : pre.length + moved.length = (pre ++ moved.map some).length := by simp
    have hlen' : pre.length + moved.length + 1 = (pre ++ moved.map some ++ [some x]).length := by
      simp [Nat.add_assoc]
    have hread : (pre ++ (moved ++ [x]).map some ++ slot :: rest).readAt
        ((pre.length + moved.length : Nat) : Int) = some x := by
      rw [readAt_natCast, hlen, List.map_append, ← List.append_assoc]
      simpa using read_append_cons (pre ++ moved.map some) (slot :: rest) x
    have hwrite : (pre ++ (moved ++ [x]).map some ++ slot :: rest).writeAt
        ((pre.length + moved.length : Nat) + 1) x =
        some (pre ++ moved.map some ++ some x :: some x :: rest) := by
      rw [show ((pre.length + moved.length : Nat) : Int) + 1 =
        ((pre.length + moved.length + 1 : Nat) : Int) from rfl, writeAt_natCast, hlen']
      simpa using write_append_cons (pre ++ moved.map some ++ [some x]) rest slot x
    rw [List.length_append, List.length_singleton, shiftTurns,
      show ((pre.length + (moved.length + 1) : Nat) : Int) - 1 = (pre.length + moved.length : Nat) from by
        omega, hread, Option.bind_eq_bind, Option.bind_some, hwrite, Option.bind_eq_bind,
      Option.bind_some, hfree]
    simp

/-- **Shifting and writing inserts** `x` in front of `moved`; the slot above them is lost. -/
theorem insertAt (pre rest : Buffer α) (moved : List α) (slot : Option α) (x : α) :
    ((pre ++ moved.map some ++ slot :: rest).shiftUp ((pre.length + moved.length : Nat) - 1)
      ((pre.length : Int) - 1)).bind (fun b => b.writeAt ((pre.length : Int) - 1 + 1) x) =
      some (pre ++ some x :: (moved.map some ++ rest)) := by
  obtain ⟨free, hfree⟩ := shiftTurns_spec pre rest moved slot
  have hturns : (((pre.length + moved.length : Nat) : Int) - 1 - ((pre.length : Int) - 1)).toNat =
      moved.length := by omega
  rw [shiftUp, hturns, hfree, Option.bind_some, Int.sub_add_cancel, writeAt_natCast, write_append_cons]

end Buffer

/-! ### The largest entries -/

section Sorted
variable {α : Type*} [LinearOrder α]

/-- A value goes between the entries that are no smaller and those that are smaller. -/
theorem orderedInsert_append (a : α) {front tail : List α} (hs : (front ++ tail).Pairwise (· ≥ ·))
    (hfront : ∀ x ∈ front, a ≤ x) (htail : ∀ x ∈ tail, x < a) :
    (front ++ tail).orderedInsert (· ≥ ·) a = front ++ a :: tail := by
  obtain ⟨hf, ht, hcross⟩ := List.pairwise_append.mp hs
  have hsorted : (front ++ a :: tail).Pairwise (· ≥ ·) := by
    refine List.pairwise_append.mpr ⟨hf, List.pairwise_cons.mpr ⟨fun x hx => (htail x hx).le, ht⟩, ?_⟩
    intro x hx y hy
    rcases List.mem_cons.mp hy with rfl | hy
    · exact hfront x hx
    · exact hcross x hx y hy
  refine List.Perm.eq_of_pairwise' (hs.orderedInsert a _) hsorted ?_
  exact (List.perm_orderedInsert _ a _).trans List.perm_middle.symm

/-- No entry of a descending list is below the last one. -/
theorem le_of_getLast? {l : List α} {y : α} (hs : l.Pairwise (· ≥ ·)) (hlast : l.getLast? = some y) :
    ∀ x ∈ l, y ≤ x := by
  obtain ⟨front, rfl⟩ := List.getLast?_eq_some_iff.mp hlast
  intro x hx
  rcases List.mem_append.mp hx with hx | hx
  · exact (List.pairwise_append.mp hs).2.2 x hx y (List.mem_singleton.mpr rfl)
  · exact (List.mem_singleton.mp hx).symm.le

theorem sort_cons_eq (a : α) (s : Multiset α) :
    (a ::ₘ s).sort (· ≥ ·) = (s.sort (· ≥ ·)).orderedInsert (· ≥ ·) a := by
  refine List.Perm.eq_of_pairwise' (Multiset.pairwise_sort _ _)
    ((Multiset.pairwise_sort s (· ≥ ·)).orderedInsert a _) ?_
  rw [← Multiset.coe_eq_coe, Multiset.sort_eq, Multiset.coe_eq_coe.mpr (List.perm_orderedInsert _ a _),
    ← Multiset.cons_coe, Multiset.sort_eq]

theorem take_orderedInsert (a : α) (n : Nat) (l : List α) :
    (l.orderedInsert (· ≥ ·) a).take n = ((l.take n).orderedInsert (· ≥ ·) a).take n := by
  induction l generalizing n with
  | nil => simp
  | cons b rest ih =>
    cases n with
    | zero => simp
    | succ n =>
      rw [List.take_succ_cons, List.orderedInsert_cons, List.orderedInsert_cons]
      split
      · rw [List.take_succ_cons, List.take_succ_cons]
        cases n with
        | zero => rfl
        | succ n => rw [List.take_succ_cons, List.take_succ_cons, List.take_take, Nat.min_eq_left (by omega)]
      · rw [List.take_succ_cons, List.take_succ_cons, ih n]

/-- The `n` largest entries after one more are those of the `n` largest before and the new one. -/
theorem take_sort_cons (a : α) (n : Nat) (s : Multiset α) :
    ((a ::ₘ s).sort (· ≥ ·)).take n =
      (((s.sort (· ≥ ·)).take n).orderedInsert (· ≥ ·) a).take n := by
  rw [sort_cons_eq, take_orderedInsert]

end Sorted
end Cheetah.Lib
