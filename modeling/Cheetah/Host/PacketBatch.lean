import Cheetah.Host.PacketHeaders
import Mathlib.Data.List.Induction

/-! The packets of a stream over any sequence of rewrites.

`BatchHolds` is what the packets are after some calls of `modify`: each carries the
arguments of its last call, and the headers of all of them are those `create` wrote. -/
namespace Cheetah.Host.FastPacketStream
open Lib Lib.Bytes Mbuf Mem

section Batch
variable {c : Config} {state : ConnectionState} {stream : Stream} {fresh mem mem' : Mem}

/-- `create` puts the headers in front of every packet. -/
theorem craft_headed {m m' : Mbuf} {f : Fields} (h : craft c state m = some (m', f)) :
    Headed state m'.frame := by
  obtain ⟨⟨m₁, _⟩, _, h⟩ := Option.bind_eq_some_iff.mp h
  obtain ⟨⟨m₂, _⟩, _, h⟩ := Option.bind_eq_some_iff.mp h
  obtain ⟨⟨m₃, _⟩, _, h⟩ := Option.bind_eq_some_iff.mp h
  obtain ⟨⟨m₄, _⟩, _, h⟩ := Option.bind_eq_some_iff.mp h
  obtain ⟨m₅, _, h⟩ := Option.bind_eq_some_iff.mp h
  obtain ⟨m₆, hudp, h⟩ := Option.bind_eq_some_iff.mp h
  obtain ⟨m₇, hip, h⟩ := Option.bind_eq_some_iff.mp h
  obtain ⟨m₈, hether, h⟩ := Option.bind_eq_some_iff.mp h
  obtain ⟨rfl, _⟩ := Prod.mk.inj (Option.some.inj h)
  exact (headers_inv hudp hip hether).2

theorem create_headed {pool : Mempool} {packetCount : Nat}
    (h : create c state pool packetCount = some (stream, mem)) : ∀ m ∈ mem, Headed state m.frame := by
  obtain ⟨made, hrun, hmade⟩ : ∃ made, create c state pool packetCount = some made ∧
      ∀ m ∈ made.2, Headed state m.frame := by
    refine forLoop_rule (fun _ (made : Stream × Mem) => ∀ m ∈ made.2, Headed state m.frame)
      (fun m hm => absurd hm List.not_mem_nil) fun i made _ hold => ?_
    obtain ⟨m, f, hcraft, _⟩ := craft_spec (c := c) state pool i
    refine ⟨(made.1.save i f, made.2 ++ [m]), by rw [hcraft]; rfl, fun m' hm' => ?_⟩
    rcases List.mem_append.mp hm' with hm' | hm'
    · exact hold m' hm'
    · rw [List.mem_singleton.mp hm']
      exact craft_headed hcraft
  rwa [← Option.some.inj (h.symm.trans hrun)] at hmade

/-- The arguments of the last call for packet `j`. -/
def lastFill (fills : List (Nat × Row c)) (j : Nat) : Option (Row c) :=
  ((fills.filter fun fill => fill.1 = j).getLast?).map Prod.snd

theorem lastFill_concat (fills : List (Nat × Row c)) (i j : Nat) (row : Row c) :
    lastFill (fills ++ [(i, row)]) j = if i = j then some row else lastFill fills j := by
  by_cases hij : i = j <;> simp [lastFill, List.filter_append, hij]

theorem modifyAll_append (a b : List (Nat × Row c)) :
    modifyAll c stream (a ++ b) mem = (modifyAll c stream a mem).bind (modifyAll c stream b) := by
  induction a generalizing mem with
  | nil => rfl
  | cons fill rest ih =>
    simp only [List.cons_append, modifyAll, Option.bind_eq_bind, Option.bind_assoc]
    exact Option.bind_congr fun mem' _ => ih

/-- The packets after the calls `fills`. -/
structure BatchHolds (c : Config) (stream : Stream) (fresh : Mem) (fills : List (Nat × Row c)) (mem : Mem) :
    Prop where
  crafted : Crafted c stream mem
  headers : SameHeaders fresh mem
  filled : ∀ j row, lastFill fills j = some row → ∃ m, mem[j]? = some m ∧ Carries c m.frame row
  untouched : ∀ j, lastFill fills j = none → mem[j]? = fresh[j]?

/-- One more call rewrites its packet and no other. -/
theorem batchHolds_modify {fills : List (Nat × Row c)} (h : BatchHolds c stream fresh fills mem) {i : Nat}
    (hi : i < stream.packetCount) (row : Row c) :
    ∃ mem', modify c stream i row mem = some mem' ∧ (∀ j, j ≠ i → mem'[j]? = mem[j]?) ∧
      BatchHolds c stream fresh (fills ++ [(i, row)]) mem' := by
  obtain ⟨mem', m, m', hmodify, hcrafted, _, hm', hrow, _, hold⟩ := modify_carries h.crafted hi row
  refine ⟨mem', hmodify, hold, hcrafted, h.headers.trans (modify_sameHeaders h.crafted hi hmodify),
    fun j row' hlast => ?_, fun j hlast => ?_⟩
  · rw [lastFill_concat] at hlast
    by_cases hij : i = j
    · subst hij
      rw [if_pos rfl] at hlast
      obtain rfl := Option.some.inj hlast
      exact ⟨m', hm', hrow⟩
    · rw [if_neg hij] at hlast
      rw [hold j (Ne.symm hij)]
      exact h.filled j row' hlast
  · rw [lastFill_concat] at hlast
    by_cases hij : i = j
    · rw [if_pos hij] at hlast
      cases hlast
    · rw [if_neg hij] at hlast
      rw [hold j (Ne.symm hij), h.untouched j hlast]

/-- **Any sequence of calls.** -/
theorem batchHolds_run (h : Crafted c stream fresh) (fills : List (Nat × Row c))
    (hin : ∀ fill ∈ fills, fill.1 < stream.packetCount) :
    ∃ mem, modifyAll c stream fills fresh = some mem ∧ BatchHolds c stream fresh fills mem := by
  induction fills using List.reverseRecOn with
  | nil => exact ⟨fresh, rfl, h, .refl fresh, fun _ _ hlast => absurd hlast nofun, fun _ _ => rfl⟩
  | append_singleton fills fill ih =>
    obtain ⟨mem, hrun, hbatch⟩ := ih fun f hf => hin f (List.mem_append_left _ hf)
    obtain ⟨mem', hmodify, _, hbatch'⟩ :=
      batchHolds_modify hbatch (hin fill (List.mem_append_right _ (List.mem_singleton_self _))) fill.2
    refine ⟨mem', ?_, hbatch'⟩
    rw [modifyAll_append, hrun, Option.bind_some, modifyAll, hmodify]
    rfl

/-- A filled packet has its headers and carries its row. -/
theorem filled_headed (state : ConnectionState) (pool : Mempool) {packetCount : Nat}
    (earlier : List (Nat × Row c)) (hin : ∀ fill ∈ earlier, fill.1 < packetCount) {i : Nat}
    (hi : i < packetCount) (row : Row c) :
    ∃ stream mem m, Filled c state pool packetCount earlier i row stream mem ∧ mem[i]? = some m ∧
      Carries c m.frame row ∧ Headed state m.frame := by
  obtain ⟨stream, fresh, hcreate, hcount, hcrafted⟩ := create_spec (c := c) state pool packetCount
  obtain ⟨before, hrun, hbatch⟩ := batchHolds_run hcrafted earlier (by rwa [hcount])
  obtain ⟨mem, hmodify, _, hbatch'⟩ := batchHolds_modify hbatch (hcount.symm ▸ hi) row
  obtain ⟨m, hm, hrow⟩ := hbatch'.filled i row (by rw [lastFill_concat, if_pos rfl])
  obtain ⟨made, _, hmade, _⟩ := hcrafted.packet i (hcount.symm ▸ hi)
  have hheaded := create_headed hcreate made (List.mem_of_getElem? hmade)
  exact ⟨stream, mem, m, ⟨fresh, before, hcreate, hrun, hmodify⟩, hm, hrow,
    hheaded.congr (hbatch'.headers.2 i made m hmade hm).2.2⟩

/-- **Packets are independent.** After any rewrites of the packets of a stream, each packet
gives back the arguments of its last call and starts with the 42 bytes `create` wrote, and
one more rewrite leaves every other packet as it is. -/
theorem packets_independent (state : ConnectionState) (pool : Mempool) (packetCount : Nat)
    (fills : List (Nat × Row shipped)) (hin : ∀ fill ∈ fills, fill.1 < packetCount) :
    ∃ stream fresh mem, create shipped state pool packetCount = some (stream, fresh) ∧
      modifyAll shipped stream fills fresh = some mem ∧
      (∀ j < packetCount, ∃ made m, fresh[j]? = some made ∧ mem[j]? = some m ∧
        Headed state made.frame ∧ m.frame.take 42 = made.frame.take 42 ∧
        (∀ row, lastFill fills j = some row → unpackPayload shipped m.frame = some row) ∧
        (lastFill fills j = none → m = made)) ∧
      ∀ i < packetCount, ∀ row, ∃ mem', modify shipped stream i row mem = some mem' ∧
        ∀ j, j ≠ i → mem'[j]? = mem[j]? := by
  obtain ⟨stream, fresh, hcreate, hcount, hcrafted⟩ := create_spec (c := shipped) state pool packetCount
  obtain ⟨mem, hrun, hbatch⟩ := batchHolds_run hcrafted fills (by rwa [hcount])
  refine ⟨stream, fresh, mem, hcreate, hrun, fun j hj => ?_, fun i hi row => ?_⟩
  · rw [← hcount] at hj
    obtain ⟨made, _, hmade, _⟩ := hcrafted.packet j hj
    obtain ⟨m, _, hm, _⟩ := hbatch.crafted.packet j hj
    have hheaders := (hbatch.headers.2 j made m hmade hm).2.2
    refine ⟨made, m, hmade, hm, create_headed hcreate made (List.mem_of_getElem? hmade), hheaders,
      fun row hlast => ?_, fun hlast => ?_⟩
    · obtain ⟨m', hm', hrow⟩ := hbatch.filled j row hlast
      obtain rfl := Option.some.inj (hm.symm.trans hm')
      exact hrow.unpackPayload_eq rfl
    · have hsame := hbatch.untouched j hlast
      rw [hm, hmade] at hsame
      exact Option.some.inj hsame
  · obtain ⟨mem', hmodify, hother, _⟩ := batchHolds_modify hbatch (hcount.symm ▸ hi) row
    exact ⟨mem', hmodify, hother⟩

end Batch

/-- Rewrites of two packets, the first of them twice. -/
def threeFills : List (Nat × Row shipped) :=
  [ (0, ⟨(1 : BitVec 16), (2 : BitVec 32), (3 : BitVec 32), 4⟩),
    (1, ⟨(5 : BitVec 16), (6 : BitVec 32), (7 : BitVec 32), 8⟩),
    (0, ⟨(9 : BitVec 16), (10 : BitVec 32), (11 : BitVec 32), 12⟩) ]

theorem packets_independent_two :
    ∃ stream fresh mem, create shipped ControlFlow.zeroState ControlFlow.zeroPool 2 = some (stream, fresh) ∧
      modifyAll shipped stream threeFills fresh = some mem ∧
      (∀ j < 2, ∃ made m, fresh[j]? = some made ∧ mem[j]? = some m ∧
        Headed ControlFlow.zeroState made.frame ∧ m.frame.take 42 = made.frame.take 42 ∧
        (∀ row, lastFill threeFills j = some row → unpackPayload shipped m.frame = some row) ∧
        (lastFill threeFills j = none → m = made)) ∧
      ∀ i < 2, ∀ row, ∃ mem', modify shipped stream i row mem = some mem' ∧
        ∀ j, j ≠ i → mem'[j]? = mem[j]? :=
  packets_independent ControlFlow.zeroState ControlFlow.zeroPool 2 threeFills (by decide)

end Cheetah.Host.FastPacketStream
