import Cheetah.Host.PacketCodec

/-! The headers of the packets of a stream.

`Headed` says that the first 42 bytes of a packet hold the fields the header builders
give them. A store behind the headers leaves them alone, so a packet keeps the headers
it was made with however often it is rewritten, and the fields of its last rewrite. -/
namespace Cheetah.Host
open Lib Lib.Bytes

namespace Mbuf
variable {m m' : Mbuf} {w : Nat}

/-! ### What a write leaves alone -/

theorem write_inv {off : Nat} {bs : List Byte} (h : m.write off bs = some m') :
    off + bs.length ≤ m.buf.length ∧ m'.buf = splice m.buf off bs ∧ m'.dataOff = m.dataOff ∧
      m'.dataLen = m.dataLen := by
  unfold write at h
  split at h
  · rename_i hin
    obtain rfl := Option.some.inj h
    exact ⟨hin, rfl, rfl, rfl⟩
  · cases h

theorem writeFields_inv {hdr : Nat} {fields : List (Nat × List Byte)}
    (h : m.writeFields hdr fields = some m') :
    m'.dataOff = m.dataOff ∧ m'.dataLen = m.dataLen ∧
      ∀ off n, (∀ f ∈ fields, off + n ≤ hdr + f.1 ∨ hdr + f.1 + f.2.length ≤ off) →
        slice m'.buf off n = slice m.buf off n := by
  induction fields generalizing m with
  | nil =>
    obtain rfl := Option.some.inj h
    exact ⟨rfl, rfl, fun _ _ _ => rfl⟩
  | cons f rest ih =>
    obtain ⟨m₁, hw, hrest⟩ := Option.bind_eq_some_iff.mp h
    obtain ⟨hin, hbuf, ho, hl⟩ := write_inv hw
    obtain ⟨ho', hl', hkeep⟩ := ih hrest
    refine ⟨ho'.trans ho, hl'.trans hl, fun off n hapart => ?_⟩
    rw [hkeep off n fun g hg => hapart g (List.mem_cons_of_mem f hg), hbuf,
      slice_splice_of_disjoint hin (hapart f (List.mem_cons_self ..))]

/-- Fields in order and apart from each other are all there at the end. -/
theorem writeFields_holds {hdr : Nat} {fields : List (Nat × List Byte)}
    (hsorted : fields.Pairwise fun f g => f.1 + f.2.length ≤ g.1)
    (h : m.writeFields hdr fields = some m') :
    ∀ f ∈ fields, slice m'.buf (hdr + f.1) f.2.length = f.2 := by
  induction fields generalizing m with
  | nil => exact fun f hf => absurd hf List.not_mem_nil
  | cons f rest ih =>
    obtain ⟨m₁, hw, hrest⟩ := Option.bind_eq_some_iff.mp h
    obtain ⟨hin, hbuf, _⟩ := write_inv hw
    obtain ⟨hafter, hsorted'⟩ := List.pairwise_cons.mp hsorted
    intro g hg
    rcases List.mem_cons.mp hg with rfl | hg
    · have hkeep := (writeFields_inv hrest).2.2
      rw [hkeep _ _ fun f hf => Or.inl (by have := hafter f hf; omega), hbuf, slice_splice hin rfl]
    · exact ih hsorted' hrest g hg

/-- What was in a packet before something was put in front is behind it. -/
theorem Prepended.slice_frame {n : Nat} (h : Prepended n m m') {off k : Nat} (hin : off + k ≤ m.dataLen) :
    slice m'.frame (n + off) k = slice m.frame off k := by
  have hoff := h.dataOff
  have hlen := h.dataLen
  rw [FastPacketStream.slice_frame m' (by omega), FastPacketStream.slice_frame m hin,
    show m'.dataOff + (n + off) = m.dataOff + off by omega, h.kept _ _ (by omega)]

end Mbuf
open Mbuf

/-! ### The headers -/

section Headers
variable {state : ConnectionState} {m m' : Mbuf}

/-- The fields of the UDP header. -/
def udpFields (state : ConnectionState) : List (Nat × List Byte) :=
  [ (0, image (cpuToBe state.udpSourcePort)), (2, image (cpuToBe state.udpDestinationPort)),
    (4, image (cpuToBe udpDatagramLength)), (6, image (cpuToBe (0 : BitVec 16))) ]

/-- The fields of the Ethernet header. -/
def etherFields (state : ConnectionState) : List (Nat × List Byte) :=
  [ (0, state.destinationMac.toList), (6, state.macAddress.toList),
    (12, image (cpuToBe (0x0800 : BitVec 16))) ]

/-- A header that was put in front holds its fields. -/
theorem prependHeader_inv {len : Nat} {fields : List (Nat × List Byte)}
    (hin : ∀ f ∈ fields, f.1 + f.2.length ≤ len)
    (hsorted : fields.Pairwise fun f g => f.1 + f.2.length ≤ g.1)
    (h : prependHeader len fields m = some m') :
    Prepended len m m' ∧ ∀ f ∈ fields, slice m'.frame f.1 f.2.length = f.2 := by
  have hlen : len ≤ m.dataOff := by
    by_contra hlt
    have hnone : m.prepend len = none := dif_neg hlt
    rw [prependHeader, hnone] at h
    cases h
  obtain ⟨m₁, hheader, hprep⟩ := prependHeader_spec fields hin hlen
  obtain rfl := Option.some.inj (hheader.symm.trans h)
  refine ⟨hprep, fun f hf => ?_⟩
  obtain ⟨⟨m₀, hdr⟩, hp, hw⟩ := Option.bind_eq_some_iff.mp h
  obtain ⟨m₀', hp', _⟩ := prepend_spec hlen
  obtain ⟨rfl, rfl⟩ := Prod.mk.inj (Option.some.inj (hp'.symm.trans hp))
  have hoff := (writeFields_inv hw).1
  have hend := hin f hf
  have hdata := hprep.dataLen
  rw [FastPacketStream.slice_frame m₁ (by omega), hoff]
  exact writeFields_holds hsorted hw f hf

/-- The 42 bytes in front of a payload hold what the header builders write. -/
structure Headed (state : ConnectionState) (pkt : List Byte) : Prop where
  ether : ∀ f ∈ etherFields state, slice pkt f.1 f.2.length = f.2
  ip : ∀ f ∈ ipFields, slice pkt (14 + f.1) f.2.length = f.2
  udp : ∀ f ∈ udpFields state, slice pkt (34 + f.1) f.2.length = f.2

theorem prependIpHeader_inv (h : prependIpHeader state m = some m') :
    Prepended 20 m m' ∧ ∀ f ∈ ipFields, slice m'.frame f.1 f.2.length = f.2 := by
  obtain ⟨m₁, hheader, hcksum⟩ := Option.bind_eq_some_iff.mp h
  have hin : ∀ f ∈ ipFields, f.1 + f.2.length ≤ 20 := by simp [ipFields]
  obtain ⟨hprep, hfields⟩ := prependHeader_inv hin (by simp [ipFields]) hheader
  obtain ⟨m₂, hcksum', hprep', hoff⟩ := hprep.writeFields
    [(10, image (state.rteIpv4Cksum (slice m₁.buf m₁.dataOff 20)))] (by simp)
  obtain rfl := Option.some.inj (hcksum'.symm.trans hcksum)
  refine ⟨hprep', fun f hf => ?_⟩
  have hend := hin f hf
  have hdata := hprep.dataLen
  have hdata' := hprep'.dataLen
  -- no field overlaps the checksum
  have hapart : f.1 + f.2.length ≤ 10 ∨ 12 ≤ f.1 := by
    have hall : ∀ f ∈ ipFields, f.1 + f.2.length ≤ 10 ∨ 12 ≤ f.1 := by simp [ipFields]
    exact hall f hf
  refine Eq.trans ?_ (hfields f hf)
  rw [FastPacketStream.slice_frame m₂ (by omega), FastPacketStream.slice_frame m₁ (by omega), hoff,
    (writeFields_inv hcksum).2.2 _ _ (by simp; omega)]

/-- The three builders, one after the other. -/
theorem headers_inv {m₁ m₂ m₃ : Mbuf} (hudp : prependUdpHeader state m = some m₁)
    (hip : prependIpHeader state m₁ = some m₂) (hether : prependEthernetHeader state m₂ = some m₃) :
    Prepended 42 m m₃ ∧ Headed state m₃.frame := by
  obtain ⟨h₁, hudpFields⟩ := prependHeader_inv (by simp) (by simp) hudp
  obtain ⟨h₂, hipFields⟩ := prependIpHeader_inv hip
  obtain ⟨h₃, hetherFields⟩ := prependHeader_inv (by simp) (by simp) hether
  have hlen₁ := h₁.dataLen
  have hlen₂ := h₂.dataLen
  refine ⟨h₁.trans (h₂.trans h₃), hetherFields, fun f hf => ?_, fun f hf => ?_⟩
  · have hend : f.1 + f.2.length ≤ 20 := by
      have hall : ∀ f ∈ ipFields, f.1 + f.2.length ≤ 20 := by simp [ipFields]
      exact hall f hf
    rw [h₃.slice_frame (by omega), hipFields f hf]
  · have hend : f.1 + f.2.length ≤ 8 := by
      have hall : ∀ f ∈ udpFields state, f.1 + f.2.length ≤ 8 := by simp [udpFields]
      exact hall f hf
    rw [show 34 + f.1 = 14 + (20 + f.1) by omega, h₃.slice_frame (by omega), h₂.slice_frame (by omega)]
    exact hudpFields f hf

/-- Only the first 42 bytes matter. -/
theorem Headed.congr {pkt pkt' : List Byte} (h : Headed state pkt) (hsame : slice pkt' 0 42 = slice pkt 0 42) :
    Headed state pkt' := by
  have hslice : ∀ off n, off + n ≤ 42 → slice pkt' off n = slice pkt off n := by
    intro off n hin
    have hcut : ∀ b : List Byte, slice (slice b 0 42) off n = slice b off n := by
      intro b
      rw [slice_slice hin, Nat.zero_add]
    rw [← hcut pkt', hsame, hcut]
  have hether : ∀ f ∈ etherFields state, f.1 + f.2.length ≤ 42 := by simp [etherFields]
  have hip : ∀ f ∈ ipFields, 14 + f.1 + f.2.length ≤ 42 := by simp [ipFields]
  have hudp : ∀ f ∈ udpFields state, 34 + f.1 + f.2.length ≤ 42 := by simp [udpFields]
  refine ⟨fun f hf => ?_, fun f hf => ?_, fun f hf => ?_⟩
  · rw [hslice _ _ (hether f hf), h.ether f hf]
  · rw [hslice _ _ (hip f hf), h.ip f hf]
  · rw [hslice _ _ (hudp f hf), h.udp f hf]

end Headers

/-! ### Stores behind the headers -/

namespace Mem
variable {mem mem' mem'' : Mem} {w : Nat}

/-- Packets keep their place and the first 42 bytes. -/
def SameHeaders (mem mem' : Mem) : Prop :=
  mem'.length = mem.length ∧ ∀ (j : Nat) (m m' : Mbuf), mem[j]? = some m → mem'[j]? = some m' →
    m'.dataOff = m.dataOff ∧ m'.dataLen = m.dataLen ∧ slice m'.frame 0 42 = slice m.frame 0 42

theorem SameHeaders.refl (mem : Mem) : SameHeaders mem mem := by
  refine ⟨rfl, fun j m m' hm hm' => ?_⟩
  obtain rfl := Option.some.inj (hm.symm.trans hm')
  exact ⟨rfl, rfl, rfl⟩

theorem SameHeaders.trans (h : SameHeaders mem mem') (h' : SameHeaders mem' mem'') :
    SameHeaders mem mem'' := by
  refine ⟨h'.1.trans h.1, fun j m m'' hm hm'' => ?_⟩
  have hlt : j < mem'.length := by
    rw [← h'.1]
    exact (List.getElem?_eq_some_iff.mp hm'').1
  obtain ⟨ho, hl, hs⟩ := h.2 j m _ hm (List.getElem?_eq_getElem hlt)
  obtain ⟨ho', hl', hs'⟩ := h'.2 j _ m'' (List.getElem?_eq_getElem hlt) hm''
  exact ⟨ho'.trans ho, hl'.trans hl, hs'.trans hs⟩

/-- A store behind the headers of its packet. -/
theorem SameHeaders.store {p : Ptr} {x : BitVec w} (h : mem.store p x = some mem')
    (hbehind : ∀ m, mem[p.mbuf]? = some m → m.dataOff + 42 ≤ p.off ∧ 42 ≤ m.dataLen) :
    SameHeaders mem mem' := by
  obtain ⟨m, hm, h⟩ := Option.bind_eq_some_iff.mp h
  obtain ⟨m₁, hstore, h⟩ := Option.bind_eq_some_iff.mp h
  obtain rfl := Option.some.inj h
  obtain ⟨hin, hbuf, ho, hl⟩ := write_inv hstore
  obtain ⟨hoff, hlen⟩ := hbehind m hm
  refine ⟨List.length_set, fun j a b ha hb => ?_⟩
  by_cases hj : j = p.mbuf
  · subst hj
    obtain rfl := Option.some.inj (hm.symm.trans ha)
    rw [List.getElem?_set_self (List.getElem?_eq_some_iff.mp hm).1] at hb
    obtain rfl := Option.some.inj hb
    refine ⟨ho, hl, ?_⟩
    rw [FastPacketStream.slice_frame m₁ (by omega), FastPacketStream.slice_frame m (by omega), ho, hbuf,
      slice_splice_of_disjoint hin (Or.inl (by omega))]
  · rw [List.getElem?_set_ne (Ne.symm hj)] at hb
    obtain rfl := Option.some.inj (ha.symm.trans hb)
    exact ⟨rfl, rfl, rfl⟩

end Mem

namespace FastPacketStream
open Mem
variable {c : Config} {stream : Stream} {mem mem' : Mem}

/-- `modify` writes behind the headers. -/
theorem modify_sameHeaders (h : Crafted c stream mem) {i : Nat} (hi : i < stream.packetCount) {row : Row c}
    (hmodify : modify c stream i row mem = some mem') : SameHeaders mem mem' := by
  obtain ⟨m, f, hm, ht, hp⟩ := h.packet i hi
  have hframe : c.frameLength = 48 + c.keyBits / 8 + c.valueBits / 8 := rfl
  simp only [modify, hp.rowId, hp.value, hp.key, hp.flowId, Option.bind_eq_bind, Option.bind_some] at hmodify
  obtain ⟨mem₁, h₁, hmodify⟩ := Option.bind_eq_some_iff.mp hmodify
  obtain ⟨mem₂, h₂, hmodify⟩ := Option.bind_eq_some_iff.mp hmodify
  obtain ⟨mem₃, h₃, h₄⟩ := Option.bind_eq_some_iff.mp hmodify
  have hlen := ht.dataLen
  -- every pointer leads behind the headers, which stay where they are
  have hplace : ∀ {mem₀ : Mem}, SameHeaders mem mem₀ → ∀ off, m.dataOff + 42 ≤ off →
      ∀ m₀, mem₀[(⟨i, off⟩ : Ptr).mbuf]? = some m₀ →
        m₀.dataOff + 42 ≤ (⟨i, off⟩ : Ptr).off ∧ 42 ≤ m₀.dataLen := by
    intro mem₀ hsame off hoff m₀ hm₀
    obtain ⟨ho, hl, _⟩ := hsame.2 i m m₀ hm hm₀
    exact ⟨by rw [ho]; exact hoff, by omega⟩
  have hsame₁ := SameHeaders.store h₁ (hplace (.refl mem) f.rowId (by have := ht.rowId; omega))
  have hsame₂ := hsame₁.trans (.store h₂ (hplace hsame₁ f.value (by have := ht.value; omega)))
  have hsame₃ := hsame₂.trans (.store h₃ (hplace hsame₂ f.key (by have := ht.key; omega)))
  exact hsame₃.trans (.store h₄ (hplace hsame₃ f.flowId (by have := ht.flowId; omega)))

end FastPacketStream
end Cheetah.Host
