import Cheetah.Host.ControlFlow

/-! The turns of the loop of `cheetah_fast_packet_stream_send`, whatever the port takes.

`turns` are the states the loop goes through, whether it ends or not, and `TurnSafe` is
what holds in each: the request is a block of the clone array and the subtraction does not
wrap. -/
namespace Cheetah.Host.FastPacketStream
open Lib

section Turns
variable {α : Type*} {port : Port} {arr : List α} {s s' : SendState}

/-- The variables before turn `k` of the loop, if it gets there. -/
def turns (port : Port) : Nat → SendState → Option SendState
  | 0, s => some s
  | k + 1, s =>
    let s := sendStep port s
    if s.packetsLeft = 0 then none else turns port k s

/-- A turn that takes no more than is left, of a request that is a block of an array of `n`. -/
structure TurnSafe (port : Port) (n : Nat) (s : SendState) : Prop where
  nonempty : s.packetsLeft ≠ 0
  request : (s.packetsLeft.setWidth 16).toNat = s.packetsLeft.toNat
  block : s.mbufBurstArrClone + (s.packetsLeft.setWidth 16).toNat = n
  taken : (port.accept s.calls (s.packetsLeft.setWidth 16)).toNat ≤ s.packetsLeft.toNat
  left : (sendStep port s).packetsLeft.toNat =
    s.packetsLeft.toNat - (port.accept s.calls (s.packetsLeft.setWidth 16)).toNat

theorem Sending.turnSafe (hs : Sending arr s) (hlen : arr.length < 65536) (hleft : s.packetsLeft ≠ 0) :
    TurnSafe port arr.length s := by
  have hstep := sendStep_left port hs hlen
  have hrequest := request_toNat hs hlen
  exact ⟨hleft, hrequest, by rw [hrequest]; exact hs.left, by omega, by omega⟩

/-- Every turn the loop gets to has something left and keeps the invariant. -/
theorem turns_inv (hlen : arr.length < 65536) {k : Nat} (hs : Sending arr s) (hleft : s.packetsLeft ≠ 0)
    (hturn : turns port k s = some s') :
    Sending arr s' ∧ s'.packetsLeft ≠ 0 ∧ s'.bursts.length = s.bursts.length + k := by
  induction k generalizing s with
  | zero =>
    obtain rfl := Option.some.inj hturn
    exact ⟨hs, hleft, rfl⟩
  | succ k ih =>
    rw [turns] at hturn
    split at hturn
    · cases hturn
    · rename_i hmore
      obtain ⟨hs', hleft', hcount⟩ := ih (sendStep_inv port hs hlen) hmore hturn
      refine ⟨hs', hleft', ?_⟩
      rw [hcount, sendStep, List.length_append, List.length_singleton]
      omega

/-- The loop ends with the first turn that leaves nothing. -/
theorem sendLoop_eq_some_iff {fuel : Nat} : sendLoop port fuel s = some s' ↔
    ∃ k < fuel, ∃ t, turns port k s = some t ∧ sendStep port t = s' ∧ s'.packetsLeft = 0 := by
  induction fuel generalizing s with
  | zero => simp [sendLoop]
  | succ fuel ih =>
    rw [sendLoop]
    by_cases hdone : (sendStep port s).packetsLeft = 0
    · rw [if_pos hdone]
      constructor
      · intro hs
        obtain rfl := Option.some.inj hs
        exact ⟨0, Nat.succ_pos fuel, s, rfl, rfl, hdone⟩
      · intro hsome
        obtain ⟨k, _, t, hturn, rfl, _⟩ := hsome
        cases k with
        | zero =>
          obtain rfl := Option.some.inj hturn
          rfl
        | succ k => simp [turns, hdone] at hturn
    · rw [if_neg hdone, ih]
      constructor
      · intro hsome
        obtain ⟨k, hk, t, hturn, hstep, hzero⟩ := hsome
        exact ⟨k + 1, Nat.succ_lt_succ hk, t, by rw [turns, if_neg hdone, hturn], hstep, hzero⟩
      · intro hsome
        obtain ⟨k, hk, t, hturn, hstep, hzero⟩ := hsome
        cases k with
        | zero =>
          obtain rfl := Option.some.inj hturn
          rw [hstep] at hdone
          exact absurd hzero hdone
        | succ k =>
          rw [turns, if_neg hdone] at hturn
          exact ⟨k, Nat.lt_of_succ_lt_succ hk, t, hturn, hstep, hzero⟩

/-- **Partial sends.** Whatever the port takes of its requests, every turn of the loop asks
for a block of the clones that are left and subtracts no more than those; when the loop
ends it has handed over every clone once and in order; and it ends within as many calls as
there are packets, if the port takes some of every request. The clones, the loop over their
count and what its calls took of them are the three parts of `send`. -/
theorem partial_sends (c : Config) (state : ConnectionState) (pool : Mempool) (port : Port) (calls : Nat)
    {packetCount : Nat} (hpos : 1 ≤ packetCount) (hcount : packetCount ≤ 65535) :
    ∃ stream mem clones, create c state pool packetCount = some (stream, mem) ∧
      cloneAll stream mem = some clones ∧ clones.map Clone.direct = List.range packetCount ∧
      (∀ k s, turns port k ⟨0, BitVec.ofNat 64 packetCount, calls, []⟩ = some s →
        TurnSafe port packetCount s) ∧
      (∀ fuel s, sendLoop port fuel ⟨0, BitVec.ofNat 64 packetCount, calls, []⟩ = some s →
        ∃ taken, s.bursts.mapM (TxBurst.taken clones) = some taken ∧ taken.flatten = clones) ∧
      (port.Progresses → ∃ s,
        sendLoop port packetCount ⟨0, BitVec.ofNat 64 packetCount, calls, []⟩ = some s ∧
          s.bursts.length ≤ packetCount) := by
  obtain ⟨stream, mem, hcreate, hpackets, hcrafted⟩ := create_spec (c := c) state pool packetCount
  obtain ⟨clones, hclones, hdirect, _⟩ := cloneAll_spec hcrafted
  rw [hpackets] at hdirect
  have hlen : clones.length = packetCount := by
    rw [← List.length_map (f := Clone.direct), hdirect, List.length_range]
  have hlt : clones.length < 65536 := by omega
  have hstart : Sending clones ⟨0, BitVec.ofNat 64 packetCount, calls, []⟩ := by
    rw [← hpackets] at hlen ⊢
    exact sending_start hlen (by omega) calls
  have htotal : (BitVec.ofNat 64 packetCount).toNat = packetCount := by
    rw [BitVec.toNat_ofNat]
    exact Nat.mod_eq_of_lt (by omega)
  have hleft : BitVec.ofNat 64 packetCount ≠ 0 := by
    intro hzero
    rw [hzero] at htotal
    exact absurd htotal (by simp; omega)
  refine ⟨stream, mem, clones, hcreate, hclones, hdirect, fun k s hturn => ?_, fun fuel s hrun => ?_,
    fun hport => ?_⟩
  · obtain ⟨hs, hmore, _⟩ := turns_inv hlt hstart hleft hturn
    rw [← hlen]
    exact hs.turnSafe hlt hmore
  · exact sendLoop_taken hlt hstart hrun
  · obtain ⟨s, hrun⟩ := sendLoop_ends hport hlt hstart hleft (Nat.le_of_eq htotal)
    obtain ⟨k, hk, t, hturn, rfl, _⟩ := sendLoop_eq_some_iff.mp hrun
    obtain ⟨_, _, hbursts⟩ := turns_inv hlt hstart hleft hturn
    refine ⟨_, hrun, ?_⟩
    rw [sendStep, List.length_append, List.length_singleton, hbursts, List.length_nil]
    omega

end Turns
/-- A port that takes one packet of a request. -/
def singlePort : Port where
  accept := fun _ request => if request = 0 then 0 else 1
  accept_le := fun _ request => by
    split
    · exact BitVec.le_def.mpr (Nat.zero_le _)
    · rename_i hne
      exact BitVec.le_def.mpr (Nat.pos_of_ne_zero fun h0 => hne (BitVec.eq_of_toNat_eq h0))

/-- Three packets, one at a time. -/
theorem partial_sends_three :
    ∃ stream mem clones, create shipped ControlFlow.zeroState ControlFlow.zeroPool 3 = some (stream, mem) ∧
      cloneAll stream mem = some clones ∧ clones.map Clone.direct = List.range 3 ∧
      (∀ k s, turns singlePort k ⟨0, BitVec.ofNat 64 3, 0, []⟩ = some s → TurnSafe singlePort 3 s) ∧
      (∀ fuel s, sendLoop singlePort fuel ⟨0, BitVec.ofNat 64 3, 0, []⟩ = some s →
        ∃ taken, s.bursts.mapM (TxBurst.taken clones) = some taken ∧ taken.flatten = clones) ∧
      (singlePort.Progresses → ∃ s,
        sendLoop singlePort 3 ⟨0, BitVec.ofNat 64 3, 0, []⟩ = some s ∧ s.bursts.length ≤ 3) :=
  partial_sends shipped ControlFlow.zeroState ControlFlow.zeroPool singlePort 0 (by decide) (by decide)

end Cheetah.Host.FastPacketStream
