import Cheetah.Lib.Bytes

/-! The `rte_mbuf`s of DPDK, as the packet code uses them.

A direct mbuf owns a buffer; its data are a range of it, and `prepend` makes the
range longer at the front and returns where it starts. A clone is an indirect
mbuf: it designates a range of the buffer of the mbuf it was made from, so what it
says is whatever that buffer holds when it is read. -/
namespace Cheetah.Host
open Lib Lib.Bytes

/-- A direct mbuf: its buffer and where the data are in it. -/
structure Mbuf where
  buf : List Byte
  dataOff : Nat
  dataLen : Nat
  fits : dataOff + dataLen ≤ buf.length
  deriving DecidableEq

/-- `RTE_PKTMBUF_HEADROOM`. -/
def headroom : Nat := 128

/-- `RTE_MBUF_DEFAULT_BUF_SIZE`, the size of the buffers in the pools. -/
def mbufDataSize : Nat := 2176

/-- A pool: the bytes each buffer happens to hold when it is allocated. -/
structure Mempool where
  bytes : Nat → List Byte
  length_bytes : ∀ i, (bytes i).length = mbufDataSize

/-- `rte_pktmbuf_alloc`: no data yet, and the headroom in front. -/
def Mempool.alloc (pool : Mempool) (i : Nat) : Mbuf where
  buf := pool.bytes i
  dataOff := headroom
  dataLen := 0
  fits := by rw [pool.length_bytes i]; decide

namespace Mbuf
variable {m : Mbuf} {w : Nat}

/-- `rte_pktmbuf_prepend`: the new start of the data, no result when the headroom is too small. -/
def prepend (m : Mbuf) (len : Nat) : Option (Mbuf × Nat) :=
  if h : len ≤ m.dataOff then
    some ({ m with
      dataOff := m.dataOff - len
      dataLen := m.dataLen + len
      fits := by have := m.fits; omega }, m.dataOff - len)
  else none

/-- Bytes written into the buffer; there is no writing outside it. -/
def write (m : Mbuf) (off : Nat) (bs : List Byte) : Option Mbuf :=
  if h : off + bs.length ≤ m.buf.length then
    some { m with
      buf := splice m.buf off bs
      fits := by rw [length_splice h]; exact m.fits }
  else none

/-- `*p = x`. -/
def store (m : Mbuf) (off : Nat) (x : BitVec w) : Option Mbuf := m.write off (image x)

/-- The fields of a header at `hdr`, given by their offsets. -/
def writeFields (m : Mbuf) (hdr : Nat) : List (Nat × List Byte) → Option Mbuf
  | [] => some m
  | (off, bs) :: rest => do (← m.write (hdr + off) bs).writeFields hdr rest

/-- The data. -/
def frame (m : Mbuf) : List Byte := slice m.buf m.dataOff m.dataLen

@[simp] theorem length_frame (m : Mbuf) : m.frame.length = m.dataLen := length_slice m.fits

/-- What one write does. -/
theorem write_spec (off : Nat) (bs : List Byte) (h : off + bs.length ≤ m.buf.length) :
    ∃ m', m.write off bs = some m' ∧ m'.buf = splice m.buf off bs ∧ m'.dataOff = m.dataOff ∧
      m'.dataLen = m.dataLen :=
  ⟨_, dif_pos h, rfl, rfl, rfl⟩

theorem store_spec (off : Nat) (x : BitVec w) (h : off + w / 8 ≤ m.buf.length) :
    ∃ m', m.store off x = some m' ∧ m'.buf = splice m.buf off (image x) ∧ m'.dataOff = m.dataOff ∧
      m'.dataLen = m.dataLen :=
  write_spec off (image x) (by rwa [length_image])

/-! ### What the builders keep

`Prepended n m m'`: `m'` is `m` with `n` bytes put in front, whatever they are. -/

structure Prepended (n : Nat) (m m' : Mbuf) : Prop where
  dataOff : m'.dataOff + n = m.dataOff
  dataLen : m'.dataLen = m.dataLen + n
  length_buf : m'.buf.length = m.buf.length
  kept : ∀ off len, m.dataOff ≤ off → slice m'.buf off len = slice m.buf off len

theorem prepend_spec {len : Nat} (h : len ≤ m.dataOff) :
    ∃ m', m.prepend len = some (m', m'.dataOff) ∧ Prepended len m m' :=
  ⟨_, dif_pos h, by dsimp only; omega, rfl, rfl, fun _ _ _ => rfl⟩

theorem Prepended.trans {n k : Nat} {m m' m'' : Mbuf} (h : Prepended n m m')
    (h' : Prepended k m' m'') : Prepended (n + k) m m'' where
  dataOff := by have := h.dataOff; have := h'.dataOff; omega
  dataLen := by have := h.dataLen; have := h'.dataLen; omega
  length_buf := h'.length_buf.trans h.length_buf
  kept off len hoff :=
    (h'.kept off len (by have := h.dataOff; omega)).trans (h.kept off len hoff)

/-- Writing among the bytes put in front. -/
theorem Prepended.write {n : Nat} {m m' : Mbuf} (h : Prepended n m m') (off : Nat)
    (bs : List Byte) (hoff : off + bs.length ≤ m.dataOff) :
    ∃ m'', m'.write off bs = some m'' ∧ Prepended n m m'' ∧ m''.dataOff = m'.dataOff := by
  have hfits := m.fits
  have hlen := h.length_buf
  obtain ⟨m'', hw, hbuf, hdo, hdl⟩ := m'.write_spec off bs (by omega)
  refine ⟨m'', hw, ⟨hdo ▸ h.dataOff, hdl ▸ h.dataLen, ?_, fun o l ho => ?_⟩, hdo⟩
  · rw [hbuf, length_splice (by omega), hlen]
  · rw [hbuf, slice_splice_of_disjoint (by omega) (Or.inr (by omega)), h.kept o l ho]

theorem Prepended.writeFields {n : Nat} {m m' : Mbuf} (h : Prepended n m m')
    (fields : List (Nat × List Byte)) (hin : ∀ f ∈ fields, f.1 + f.2.length ≤ n) :
    ∃ m'', m'.writeFields m'.dataOff fields = some m'' ∧ Prepended n m m'' ∧
      m''.dataOff = m'.dataOff := by
  induction fields generalizing m' with
  | nil => exact ⟨m', rfl, h, rfl⟩
  | cons f rest ih =>
    have hf := hin f (List.mem_cons_self ..)
    have hoff := h.dataOff
    obtain ⟨m₁, hw, h₁, hdo⟩ := h.write (m'.dataOff + f.1) f.2 (by omega)
    obtain ⟨m₂, hrest, h₂, hdo₂⟩ := ih h₁ fun g hg => hin g (List.mem_cons_of_mem f hg)
    refine ⟨m₂, ?_, h₂, hdo₂.trans hdo⟩
    rw [Mbuf.writeFields, hw]
    exact hdo ▸ hrest

end Mbuf

/-! ### Pointers and clones -/

/-- A pointer into the buffer of an mbuf. -/
structure Ptr where
  mbuf : Nat
  off : Nat
  deriving DecidableEq

/-- The direct mbufs in the order of their allocation. -/
abbrev Mem := List Mbuf

/-- An indirect mbuf, made by `rte_pktmbuf_clone`. -/
structure Clone where
  direct : Nat
  dataOff : Nat
  dataLen : Nat
  deriving DecidableEq

namespace Mem
variable {mem : Mem} {m : Mbuf} {w : Nat}

def store (mem : Mem) (p : Ptr) (x : BitVec w) : Option Mem := do
  let m ← mem[p.mbuf]?
  let m ← m.store p.off x
  some (mem.set p.mbuf m)

def clone (mem : Mem) (i : Nat) : Option Clone := do
  let m ← mem[i]?
  some ⟨i, m.dataOff, m.dataLen⟩

/-- The bytes a clone designates now. -/
def read (mem : Mem) (cl : Clone) : Option (List Byte) := do
  let m ← mem[cl.direct]?
  some (slice m.buf cl.dataOff cl.dataLen)

/-- A store changes the mbuf it points into. -/
theorem store_set {i off : Nat} {x : BitVec w} (hi : i < mem.length) :
    store (mem.set i m) ⟨i, off⟩ x = (m.store off x).map (mem.set i) := by
  have hm : (mem.set i m)[i]? = some m := by simp [hi]
  rw [store, hm, Option.map_eq_bind]
  show (m.store off x).bind (fun m' => some ((mem.set i m).set i m')) = _
  simp only [List.set_set]
  rfl

end Mem
end Cheetah.Host
