import Mathlib.Algebra.Order.Ring.Nat
import Mathlib.Data.List.Basic

/-! Words in a memory of bytes.

`image x` is how a little-endian machine stores the word `x`, `ofImage` reads it
back, and `byteSwap` is the conversion to and from network byte order. `slice` and
`splice` read and write a range of memory: a range read after a write is the new
bytes or, away from the write, the old ones. -/
namespace Cheetah.Lib

abbrev Byte := BitVec 8

namespace Bytes

/-! ### Little-endian numbers -/

/-- The low `n` bytes of `x`, least significant first. -/
def little : Nat → Nat → List Byte
  | 0, _ => []
  | n + 1, x => BitVec.ofNat 8 x :: little n (x / 256)

def ofLittle : List Byte → Nat
  | [] => 0
  | b :: rest => b.toNat + 256 * ofLittle rest

@[simp] theorem length_little (n x : Nat) : (little n x).length = n := by
  induction n generalizing x with
  | zero => rfl
  | succ n ih => simp only [little, List.length_cons, ih]

theorem ofLittle_lt (bs : List Byte) : ofLittle bs < 256 ^ bs.length := by
  induction bs with
  | nil => exact Nat.one_pos
  | cons b rest ih =>
    have hb : b.toNat < 256 := b.isLt
    simp only [ofLittle, List.length_cons, pow_succ]
    omega

theorem ofLittle_little {n x : Nat} (h : x < 256 ^ n) : ofLittle (little n x) = x := by
  induction n generalizing x with
  | zero => rw [pow_zero] at h; exact (Nat.lt_one_iff.mp h).symm
  | succ n ih =>
    have hq : x / 256 < 256 ^ n := Nat.div_lt_of_lt_mul (by rwa [pow_succ, Nat.mul_comm] at h)
    simp only [little, ofLittle, ih hq, BitVec.toNat_ofNat]
    exact Nat.mod_add_div x 256

theorem little_ofLittle (bs : List Byte) : little bs.length (ofLittle bs) = bs := by
  induction bs with
  | nil => rfl
  | cons b rest ih =>
    have hb : b.toNat < 256 := b.isLt
    have hlow : BitVec.ofNat 8 (b.toNat + 256 * ofLittle rest) = b :=
      BitVec.eq_of_toNat_eq (by rw [BitVec.toNat_ofNat]; omega)
    have hhigh : (b.toNat + 256 * ofLittle rest) / 256 = ofLittle rest := by omega
    simp only [List.length_cons, little, ofLittle, hlow, hhigh, ih]

/-- The low bytes come before the high ones. -/
theorem little_add (a b x : Nat) : little (a + b) x = little a x ++ little b (x / 256 ^ a) := by
  induction a generalizing x with
  | zero => rw [Nat.zero_add, pow_zero, Nat.div_one, little, List.nil_append]
  | succ a ih =>
    rw [show a + 1 + b = a + b + 1 from by omega, little, ih, little, List.cons_append, pow_succ,
      Nat.mul_comm, Nat.div_div_eq_div_mul]

/-! ### Words -/

section Words
variable {w : Nat}

/-- The bytes of a word in memory, on a little-endian machine. -/
def image (x : BitVec w) : List Byte := little (w / 8) x.toNat

def ofImage (w : Nat) (bs : List Byte) : BitVec w := BitVec.ofNat w (ofLittle bs)

/-- The word with its bytes in the opposite order. -/
def byteSwap (x : BitVec w) : BitVec w := ofImage w (image x).reverse

@[simp] theorem length_image (x : BitVec w) : (image x).length = w / 8 := length_little _ _

theorem two_pow_eq (hw : 8 ∣ w) : 2 ^ w = 256 ^ (w / 8) := by
  rw [show (256 : Nat) = 2 ^ 8 from rfl, ← pow_mul, Nat.mul_div_cancel' hw]

theorem ofImage_image (hw : 8 ∣ w) (x : BitVec w) : ofImage w (image x) = x := by
  have hx : x.toNat < 256 ^ (w / 8) := two_pow_eq hw ▸ x.isLt
  rw [ofImage, image, ofLittle_little hx, BitVec.ofNat_toNat, BitVec.setWidth_eq]

theorem image_ofImage (hw : 8 ∣ w) {bs : List Byte} (h : bs.length = w / 8) :
    image (ofImage w bs) = bs := by
  have hlt : ofLittle bs < 2 ^ w := by rw [two_pow_eq hw, ← h]; exact ofLittle_lt bs
  rw [image, ofImage, BitVec.toNat_ofNat, Nat.mod_eq_of_lt hlt, ← h]
  exact little_ofLittle bs

/-- A swapped word is stored most significant byte first. -/
theorem image_byteSwap (hw : 8 ∣ w) (x : BitVec w) : image (byteSwap x) = (image x).reverse :=
  image_ofImage hw (by simp)

theorem byteSwap_byteSwap (hw : 8 ∣ w) (x : BitVec w) : byteSwap (byteSwap x) = x := by
  rw [byteSwap, image_byteSwap hw, List.reverse_reverse, ofImage_image hw]

/-- The first bytes of a swapped word are its upper bits, swapped. -/
theorem take_image_byteSwap {u : Nat} (hw : 8 ∣ w) (hu : 8 ∣ u) (h : u ≤ w) (x : BitVec w) :
    (image (byteSwap x)).take (u / 8) = image (byteSwap (x.extractLsb' (w - u) u)) := by
  have hlow : 8 ∣ w - u := Nat.dvd_sub hw hu
  have hlen : w / 8 = (w - u) / 8 + u / 8 := by omega
  have hlt : x.toNat / 2 ^ (w - u) < 2 ^ u := by
    rw [Nat.div_lt_iff_lt_mul (Nat.two_pow_pos _), ← pow_add, Nat.add_sub_cancel' h]
    exact x.isLt
  have hhigh : (x.extractLsb' (w - u) u).toNat = x.toNat / 256 ^ ((w - u) / 8) := by
    rw [BitVec.extractLsb'_toNat, Nat.shiftRight_eq_div_pow, Nat.mod_eq_of_lt hlt, two_pow_eq hlow]
  rw [image_byteSwap hw, image_byteSwap hu, image, image, hlen, little_add, List.reverse_append, hhigh,
    List.take_left' (by rw [List.length_reverse, length_little])]

end Words

/-! ### Ranges of memory -/

section Ranges
variable {α : Type*} {b : List α} {off start n : Nat} {bs : List α}

/-- The `n` elements from `off` on. -/
def slice (b : List α) (off n : Nat) : List α := (b.drop off).take n

/-- `b` with `bs` written over it from `off` on. -/
def splice (b : List α) (off : Nat) (bs : List α) : List α :=
  b.take off ++ bs ++ b.drop (off + bs.length)

theorem length_slice (h : off + n ≤ b.length) : (slice b off n).length = n := by
  rw [slice, List.length_take, List.length_drop]
  omega

theorem length_splice (h : off + bs.length ≤ b.length) : (splice b off bs).length = b.length := by
  simp only [splice, List.length_append, List.length_take, List.length_drop]
  omega

theorem slice_splice (h : off + bs.length ≤ b.length) (hn : bs.length = n) :
    slice (splice b off bs) off n = bs := by
  have hlen : (b.take off).length = off := List.length_take_of_le (by omega)
  rw [slice, splice, List.append_assoc, List.drop_left' hlen, List.take_left' hn]

/-- A write leaves the ranges before and after it alone. -/
theorem slice_splice_of_disjoint (h : off + bs.length ≤ b.length)
    (hd : start + n ≤ off ∨ off + bs.length ≤ start) :
    slice (splice b off bs) start n = slice b start n := by
  have hlen : (b.take off).length = off := List.length_take_of_le (by omega)
  rcases hd with hd | hd
  · have hcut : n ≤ off - start := by omega
    rw [slice, splice, List.append_assoc, List.drop_append_of_le_length (by omega),
      List.take_append_of_le_length (by rw [List.length_drop]; omega), List.drop_take,
      List.take_take, Nat.min_eq_left hcut, slice]
  · rw [slice, splice, List.drop_append, List.drop_of_length_le (by simp; omega), List.nil_append,
      List.drop_drop, List.length_append, hlen, Nat.add_sub_cancel' hd, slice]

theorem slice_slice {len k : Nat} (h : k + n ≤ len) :
    slice (slice b off len) k n = slice b (off + k) n := by
  rw [slice, slice, List.drop_take, List.take_take, List.drop_drop, Nat.min_eq_left (by omega), slice]

theorem take_slice {k : Nat} (h : k ≤ n) : (slice b off n).take k = slice b off k := by
  rw [slice, List.take_take, Nat.min_eq_left h, slice]

/-- Two ranges next to each other are one. -/
theorem slice_append_slice (b : List α) (off n k : Nat) :
    slice b off n ++ slice b (off + n) k = slice b off (n + k) := by
  rw [slice, slice, slice, List.take_add, List.drop_drop]

theorem map_getElem?_range (h : off + n ≤ b.length) :
    ((List.range n).map fun k => b[off + k]?) = (slice b off n).map some := by
  refine List.ext_getElem? fun k => ?_
  simp only [slice, List.getElem?_map, List.getElem?_take, List.getElem?_drop]
  by_cases hk : k < n
  · have hin : off + k < b.length := by omega
    simp [hk, hin]
  · simp [hk]

end Ranges
end Bytes
end Cheetah.Lib
