import Cheetah.Lib.Bytes
import Mathlib.Algebra.Order.Ring.Nat
import Mathlib.Tactic.Ring

/-! Bit fields on a wire, most significant bit first.

`wireBits` is a packet as the bits that are sent and `field` takes the next field off
them. A word that was stored in network byte order is the next field of its width
(`field_image`), and a field can be read in two parts (`wireBits_image_append`). -/
namespace Cheetah.Lib
open Bytes

namespace BitFields

/-- The low `w` bits of `x`, most significant first. -/
def msbBits : Nat → Nat → List Bool
  | 0, _ => []
  | w + 1, x => x.testBit w :: msbBits w x

/-- The number whose bits these are. -/
def ofBits : List Bool → Nat
  | [] => 0
  | b :: rest => b.toNat * 2 ^ rest.length + ofBits rest

/-- A packet, bit by bit. -/
def wireBits (pkt : List Byte) : List Bool := pkt.flatMap fun b => msbBits 8 b.toNat

/-- The next field and the bits after it; there is no reading past the end. -/
def field (w : Nat) (bits : List Bool) : Option (BitVec w × List Bool) :=
  if w ≤ bits.length then some (BitVec.ofNat w (ofBits (bits.take w)), bits.drop w) else none

@[simp] theorem length_msbBits (w x : Nat) : (msbBits w x).length = w := by
  induction w with
  | zero => rfl
  | succ w ih => rw [msbBits, List.length_cons, ih]

theorem ofBits_msbBits (w x : Nat) : ofBits (msbBits w x) = x % 2 ^ w := by
  induction w with
  | zero => rw [msbBits, ofBits, pow_zero, Nat.mod_one]
  | succ w ih =>
    rw [msbBits, ofBits, length_msbBits, ih, Nat.toNat_testBit, pow_succ, Nat.mod_mul]
    ring

/-- The low bits do not depend on what is above them. -/
theorem msbBits_mod {w k : Nat} (h : w ≤ k) (x : Nat) : msbBits w (x % 2 ^ k) = msbBits w x := by
  induction w with
  | zero => rfl
  | succ w ih =>
    rw [msbBits, msbBits, ih (by omega), Nat.testBit_mod_two_pow, decide_eq_true (Nat.lt_of_succ_le h),
      Bool.true_and]

/-- The upper bits come before the lower ones. -/
theorem msbBits_add (a b x : Nat) : msbBits (a + b) x = msbBits a (x / 2 ^ b) ++ msbBits b x := by
  induction a with
  | zero => rw [Nat.zero_add, msbBits, List.nil_append]
  | succ a ih =>
    rw [show a + 1 + b = a + b + 1 from by omega, msbBits, ih, msbBits, List.cons_append,
      Nat.testBit_div_two_pow, Nat.add_comm a b]

theorem wireBits_append (a b : List Byte) : wireBits (a ++ b) = wireBits a ++ wireBits b :=
  List.flatMap_append

theorem wireBits_reverse_little (n x : Nat) : wireBits (little n x).reverse = msbBits (8 * n) x := by
  induction n generalizing x with
  | zero => rfl
  | succ n ih =>
    have hlast : wireBits [BitVec.ofNat 8 x] = msbBits 8 x := by
      rw [wireBits, List.flatMap_singleton, BitVec.toNat_ofNat, msbBits_mod (Nat.le_refl 8)]
    rw [little, List.reverse_cons, wireBits_append, ih, hlast, Nat.mul_succ, msbBits_add]
    rfl

section Words
variable {w : Nat}

/-- A word in network byte order is sent most significant bit first. -/
theorem wireBits_image (hw : 8 ∣ w) (x : BitVec w) : wireBits (image (byteSwap x)) = msbBits w x.toNat := by
  rw [image_byteSwap hw, image, wireBits_reverse_little, Nat.mul_div_cancel' hw]

theorem field_msbBits (x : BitVec w) (rest : List Bool) :
    field w (msbBits w x.toNat ++ rest) = some (x, rest) := by
  have hlen : w ≤ (msbBits w x.toNat ++ rest).length := by simp
  rw [field, if_pos hlen, List.take_left' (length_msbBits w _), List.drop_left' (length_msbBits w _),
    ofBits_msbBits, Nat.mod_eq_of_lt x.isLt, BitVec.ofNat_toNat, BitVec.setWidth_eq]

/-- **A stored word is the next field.** -/
theorem field_image (hw : 8 ∣ w) (x : BitVec w) (rest : List Byte) :
    field w (wireBits (image (byteSwap x) ++ rest)) = some (x, wireBits rest) := by
  rw [wireBits_append, wireBits_image hw, field_msbBits]

/-- A word on the wire is its upper part and then its lower part. -/
theorem wireBits_image_append {u : Nat} (hu : 8 ∣ u) (hw : 8 ∣ w) (x : BitVec u) (y : BitVec w) :
    wireBits (image (byteSwap (x ++ y))) =
      wireBits (image (byteSwap x) ++ image (byteSwap y)) := by
  have hx : (x ++ y).toNat / 2 ^ w = x.toNat := by
    rw [BitVec.toNat_append, Nat.shiftLeft_eq, Nat.mul_comm, ← Nat.two_pow_add_eq_or_of_lt y.isLt,
      Nat.mul_add_div (Nat.two_pow_pos w), Nat.div_eq_of_lt y.isLt, Nat.add_zero]
  have hy : (x ++ y).toNat % 2 ^ w = y.toNat := by
    rw [BitVec.toNat_append, Nat.shiftLeft_eq, Nat.mul_comm, ← Nat.two_pow_add_eq_or_of_lt y.isLt,
      Nat.mul_add_mod, Nat.mod_eq_of_lt y.isLt]
  rw [wireBits_append, wireBits_image (Nat.dvd_add hu hw), wireBits_image hu, wireBits_image hw,
    msbBits_add, hx, ← msbBits_mod (Nat.le_refl w) (x ++ y).toNat, hy]

end Words
end BitFields
end Cheetah.Lib
