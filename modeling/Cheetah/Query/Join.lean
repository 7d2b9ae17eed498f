import Cheetah.DataPlane.Join
import Cheetah.Host.Join

/-! JOIN, from the switch to the master.

Every primary packet marks its key in filter 1, where a secondary packet with that key is
dropped, so no row of the join comes out. What may come out are pairs of two secondary
rows: the host takes the first row of a table entry for a primary one. `GhostPair` is
such a pair, told from the packets alone, and so is the `Room` that the host needs. -/
namespace Cheetah.Query.Join
open Lib DataPlane DataPlane.Join Host.Join
open Host (Hcreate)

/-- The update the master makes for a packet. -/
def call (h : Header) : Call := ⟨h.key, h.rowId, if h.flowId = 1 then .primary else .secondary⟩

/-- A primary and a secondary packet with these rows and one key. -/
def Matches (P S : List Header) (p s : Word) : Prop :=
  ∃ a ∈ P, ∃ b ∈ S, a.key = b.key ∧ a.rowId = p ∧ b.rowId = s

section Ghosts
variable {ι κ : Type} [DecidableEq ι] [DecidableEq κ] (hash : Bloom → Word → ι) (format : Word → κ)

/-- A primary packet that passes the filters, or a secondary one that strays through them. -/
def ComesThrough (P S : List Header) (q : Header) : Prop :=
  (∃ P₁ P₂, P = P₁ ++ q :: P₂ ∧ Passes hash (P₁.map Header.key) q.key) ∨
    ∃ S₁ S₂, S = S₁ ++ q :: S₂ ∧ Strays hash (P.map Header.key) (S₁.map Header.key) q.key

/-- Behind the secondary packets `before`, `b` meets the row `p` of one of them, `a`, that has
its key. The key strays through the filters when `a` comes, and so also when `b` does, and no
packet before `a` that comes through, primary or secondary, has its table entry. -/
def Ghost (P before : List Header) (b : Header) (p : Word) : Prop :=
  ∃ pre a mid, before = pre ++ a :: mid ∧ a.key = b.key ∧ a.rowId = p ∧
    Strays hash (P.map Header.key) (pre.map Header.key) a.key ∧
    ∀ q, ComesThrough hash P pre q → format q.key ≠ format a.key

/-- The rows of two secondary packets, the second of which meets the first. -/
def GhostPair (P S : List Header) (p s : Word) : Prop :=
  ∃ before b post, S = before ++ b :: post ∧ b.rowId = s ∧ Ghost hash format P before b p

/-- The host has room: an entry for each secondary packet that meets a row, and a slot of its
table for each string of the packets that come through. -/
structure Room (capacity : Option Nat) (size : Nat) (P S : List Header) : Prop where
  entries : countSplits (fun before b => ∃ p, Ghost hash format P before b p) S ≤ size
  strings : ∀ n, capacity = some n →
    Set.ncard {k | ∃ q, ComesThrough hash P S q ∧ format q.key = k} ≤ n

/-- The packets that come out of a run. -/
def forwarded (ps : List Header) : List Header := (switch hash).forwarded Registers.zero ps

/-- The host's entries for what is forwarded are, as a set, the pairs that match. -/
def JoinPreserved (hc : Hcreate) (size hashSize : Nat) (P S : List Header) : Prop :=
  ∃ es, JoinYields hc format size hashSize ((forwarded hash (P ++ S)).map call) es ∧
    ∀ p s, ⟨p, s⟩ ∈ es ↔ Matches P S p s

end Ghosts

/-- The packets of a run: primary ones and then secondary ones, to the port of the rules. -/
structure Phases (P S : List Header) : Prop where
  portP : ∀ h ∈ P, h.dstPort = 4242
  flowP : ∀ h ∈ P, h.flowId = 1
  portS : ∀ h ∈ S, h.dstPort = 4242
  flowS : ∀ h ∈ S, h.flowId = 2

section Forwarded
variable {ι : Type} [DecidableEq ι] {hash : Bloom → Word → ι} {P S : List Header}

theorem Phases.front {pre post : List Header} (h : Phases P (pre ++ post)) : Phases P pre :=
  ⟨h.portP, h.flowP, fun q hq => h.portS q (List.mem_append_left _ hq),
    fun q hq => h.flowS q (List.mem_append_left _ hq)⟩

/-- A secondary packet is not one of the primary ones. -/
theorem Phases.split (h : Phases P S) {b : Header} (hb : b.flowId = 2) {pre post : List Header}
    (he : P ++ S = pre ++ b :: post) : ∃ S₁, pre = P ++ S₁ ∧ S = S₁ ++ b :: post := by
  rcases List.append_eq_append_iff.mp he with ⟨S₁, hpre, hS⟩ | ⟨mid, hP, hmid⟩
  · exact ⟨S₁, hpre, hS⟩
  · cases mid with
    | nil => exact ⟨[], by rw [hP, List.append_nil, List.append_nil], hmid.symm⟩
    | cons c mid =>
      obtain ⟨rfl, _⟩ := List.cons.inj hmid
      have hflow := h.flowP b (by rw [hP]; simp)
      exact absurd (hb.symm.trans hflow) (by decide)

theorem Phases.passes_iff {P₁ P₂ : List Header} {q : Header} (h : Phases (P₁ ++ q :: P₂) S) :
    (switch hash).drops ((switch hash).run Registers.zero P₁) q = false ↔ Passes hash (P₁.map Header.key) q.key := by
  have hdrops := drops_primary hash P₁ (fun r hr => h.portP r (List.mem_append_left _ hr))
    (fun r hr => h.flowP r (List.mem_append_left _ hr)) (h.portP q (by simp)) (h.flowP q (by simp))
  rw [Bool.eq_false_iff, ne_eq, hdrops, not_not]

theorem Phases.strays_iff {S₁ S₂ : List Header} {b : Header} (h : Phases P (S₁ ++ b :: S₂)) :
    (switch hash).drops ((switch hash).run Registers.zero (P ++ S₁)) b = false ↔
      Strays hash (P.map Header.key) (S₁.map Header.key) b.key := by
  have hdrops := drops_secondary hash h.portP h.flowP h.front.portS h.front.flowS
    (h.portS b (by simp)) (h.flowS b (by simp))
  rw [Bool.eq_false_iff, ne_eq, hdrops, not_not]

/-- Where a secondary packet comes out is where it went in and strayed. -/
theorem forwarded_split (h : Phases P S) {b : Header} (hb : b.flowId = 2) {front back : List Header}
    (he : forwarded hash (P ++ S) = front ++ b :: back) :
    ∃ S₁ S₂, S = S₁ ++ b :: S₂ ∧ Strays hash (P.map Header.key) (S₁.map Header.key) b.key ∧
      front = forwarded hash (P ++ S₁) := by
  obtain ⟨pre, post, hps, hd, hfront, _⟩ := ((switch hash).forwarded_eq_append_cons _ _ _ _ _).mp he
  obtain ⟨S₁, rfl, rfl⟩ := h.split hb hps
  exact ⟨S₁, post, rfl, h.strays_iff.mp hd, hfront.symm⟩

/-- A secondary packet that strays comes out behind what came out before it. -/
theorem forwarded_stray {S₁ S₂ : List Header} {b : Header} (h : Phases P (S₁ ++ b :: S₂))
    (hb : Strays hash (P.map Header.key) (S₁.map Header.key) b.key) :
    ∃ back, forwarded hash (P ++ (S₁ ++ b :: S₂)) = forwarded hash (P ++ S₁) ++ b :: back := by
  refine ⟨_, ((switch hash).forwarded_eq_append_cons _ _ _ _ _).mpr ⟨P ++ S₁, S₂, ?_, ?_, rfl, rfl⟩⟩
  · rw [List.append_assoc]
  · exact h.strays_iff.mpr hb

/-- The primary packets that come out. -/
theorem mem_forwarded_primary (h : Phases P S) (q : Header) :
    q ∈ forwarded hash P ↔ ∃ P₁ P₂, P = P₁ ++ q :: P₂ ∧ Passes hash (P₁.map Header.key) q.key := by
  constructor
  · intro hq
    obtain ⟨front, back, he⟩ := List.append_of_mem hq
    obtain ⟨P₁, P₂, rfl, hd, _⟩ := ((switch hash).forwarded_eq_append_cons _ _ _ _ _).mp he
    exact ⟨P₁, P₂, rfl, h.passes_iff.mp hd⟩
  · intro hsome
    obtain ⟨P₁, P₂, rfl, hpass⟩ := hsome
    have he := ((switch hash).forwarded_eq_append_cons Registers.zero (P₁ ++ q :: P₂) _ q _).mpr
      ⟨P₁, P₂, rfl, h.passes_iff.mpr hpass, rfl, rfl⟩
    rw [forwarded, he]
    simp

/-- What comes out: the primary packets that pass and the secondary ones that stray. -/
theorem mem_forwarded (h : Phases P S) (q : Header) :
    q ∈ forwarded hash (P ++ S) ↔ ComesThrough hash P S q := by
  have hsplit : forwarded hash (P ++ S) = forwarded hash P ++
      (switch hash).forwarded ((switch hash).run Registers.zero P) S := Lib.Pruner.forwarded_append ..
  constructor
  · intro hq
    by_cases hflow : q.flowId = 2
    · obtain ⟨front, back, he⟩ := List.append_of_mem hq
      obtain ⟨S₁, S₂, hS, hstray, _⟩ := forwarded_split h hflow he
      exact .inr ⟨S₁, S₂, hS, hstray⟩
    · rw [hsplit] at hq
      refine .inl ((mem_forwarded_primary h q).mp ((List.mem_append.mp hq).resolve_right fun hS => ?_))
      exact hflow (h.flowS q ((switch hash).forwarded_subset _ _ hS))
  · intro hor
    rcases hor with hprimary | ⟨S₁, S₂, rfl, hstray⟩
    · rw [hsplit]
      exact List.mem_append_left _ ((mem_forwarded_primary h q).mpr hprimary)
    · obtain ⟨back, he⟩ := forwarded_stray h hstray
      rw [he]
      simp

end Forwarded

section Result
variable {ι κ : Type} [DecidableEq ι] [DecidableEq κ] {hash : Bloom → Word → ι} {format : Word → κ}
  {P S : List Header}

theorem call_key (h : Header) : (call h).key = h.key := rfl

theorem call_secondary {h : Header} : (call h).tbl = .secondary ↔ h.flowId ≠ 1 := by
  by_cases hf : h.flowId = 1 <;> simp [call, hf]

theorem Phases.secondary (h : Phases P S) {b : Header} (hb : b ∈ S) : (call b).tbl = .secondary := by
  rw [call_secondary, h.flowS b hb]
  decide

/-- Where a secondary update comes from. -/
theorem Phases.flow_of_call (h : Phases P S) {b : Header} (hb : b ∈ forwarded hash (P ++ S))
    (htbl : (call b).tbl = .secondary) : b.flowId = 2 := by
  rcases List.mem_append.mp ((switch hash).forwarded_subset _ _ hb) with hP | hS
  · exact absurd (h.flowP b hP) (call_secondary.mp htbl)
  · exact h.flowS b hS

/-- No primary row is held for an unmarked key. -/
theorem primaryRows_unmarked (h : Phases P S) {k : Word} (hk : Unmarked hash (P.map Header.key) k) :
    primaryRows ((forwarded hash (P ++ S)).map call) k = [] := by
  rw [primaryRows, List.map_eq_nil_iff, List.filter_eq_nil_iff]
  intro c hc
  obtain ⟨q, hq, rfl⟩ := List.mem_map.mp hc
  rw [decide_eq_true_eq]
  intro hboth
  obtain ⟨htbl, hkey⟩ := hboth
  have hflow : q.flowId = 1 := by
    by_contra hne
    exact absurd (htbl.symm.trans (call_secondary.mpr hne)) (by decide)
  rcases List.mem_append.mp ((switch hash).forwarded_subset _ _ hq) with hP | hS
  · exact hk.not_mem hash (List.mem_map.mpr ⟨q, hP, hkey⟩)
  · exact absurd (hflow.symm.trans (h.flowS q hS)) (by decide)

/-- What is held for an unmarked key is its stray row. -/
theorem rowsOf_unmarked (h : Phases P S) {k : Word} (hk : Unmarked hash (P.map Header.key) k) :
    rowsOf (held format ((forwarded hash (P ++ S)).map call)) k =
      strayRows format ((forwarded hash (P ++ S)).map call) k := by
  rw [rowsOf_held, primaryRows_unmarked h hk, List.append_nil]

/-- The updates of a run, cut at a secondary one. -/
theorem calls_split (h : Phases P S) {pre post : List Call} {b : Call}
    (he : (forwarded hash (P ++ S)).map call = pre ++ b :: post) (hb : b.tbl = .secondary) :
    ∃ S₁ b₀ S₂, S = S₁ ++ b₀ :: S₂ ∧ call b₀ = b ∧
      Strays hash (P.map Header.key) (S₁.map Header.key) b₀.key ∧
      pre = (forwarded hash (P ++ S₁)).map call := by
  obtain ⟨front, back, hfwd, rfl, hback⟩ := List.map_eq_append_iff.mp he
  obtain ⟨b₀, back, rfl, rfl, _⟩ := List.map_eq_cons_iff.mp hback
  have hflow := h.flow_of_call (b := b₀) (by rw [hfwd]; simp) hb
  obtain ⟨S₁, S₂, hS, hstray, rfl⟩ := forwarded_split h hflow hfwd
  exact ⟨S₁, b₀, S₂, hS, rfl, hstray, rfl⟩

/-- The stray row of a key that strays is what the next packet with the key meets. -/
theorem ghost_iff (h : Phases P S) (b : Header) (p : Word) :
    Ghost hash format P S b p ↔ Strays hash (P.map Header.key) (S.map Header.key) b.key ∧
      p ∈ strayRows format ((forwarded hash (P ++ S)).map call) b.key := by
  constructor
  · intro hghost
    obtain ⟨pre, a, mid, rfl, hk, hrow, hastray, hfirst⟩ := hghost
    obtain ⟨back, hfwd⟩ := forwarded_stray h hastray
    -- the key of `a` has its bit in filter 6 when `b` comes
    refine ⟨hk ▸ ⟨hastray.1, .inr ⟨a.key, by simp, hastray.1, rfl⟩⟩, ?_⟩
    refine mem_strayRows.mpr ⟨(forwarded hash (P ++ pre)).map call, call a, back.map call, ?_, ?_,
      h.secondary (by simp), hk, hrow⟩
    · rw [hfwd, List.map_append, List.map_cons]
    · intro c hc
      obtain ⟨q, hq, rfl⟩ := List.mem_map.mp hc
      rw [← hk]
      exact hfirst q ((mem_forwarded h.front q).mp hq)
  · intro hboth
    obtain ⟨hbstray, hp⟩ := hboth
    obtain ⟨front, a, back, he, hfirst, ha, hk, hrow⟩ := mem_strayRows.mp hp
    obtain ⟨pre, a, mid, rfl, rfl, hastray, rfl⟩ := calls_split h he ha
    refine ⟨pre, a, mid, rfl, hk, hrow, hastray, fun q hq => ?_⟩
    have hne := hfirst (call q) (List.mem_map_of_mem ((mem_forwarded h.front q).mpr hq))
    rwa [← hk] at hne

/-- Primary calls output nothing. -/
theorem produced_primary (h : Phases P []) : produced format ((forwarded hash P).map call) = [] := by
  refine List.eq_nil_iff_forall_not_mem.mpr fun e he => ?_
  obtain ⟨pre, b, post, hsplit, hb, _⟩ := mem_outputs.mp he
  have hmem : b ∈ (forwarded hash P).map call := by
    rw [hsplit]
    simp
  obtain ⟨q, hq, rfl⟩ := List.mem_map.mp hmem
  exact call_secondary.mp hb (h.flowP q ((switch hash).forwarded_subset _ _ hq))

/-- **One secondary packet** outputs an entry for the row it meets, if it meets one. -/
theorem produced_concat_secondary {b : Header} (h : Phases P (S ++ [b])) :
    ∃ rows : List Word, rows.length ≤ 1 ∧ (∀ p, p ∈ rows ↔ Ghost hash format P S b p) ∧
      produced format ((forwarded hash (P ++ (S ++ [b]))).map call) =
        produced format ((forwarded hash (P ++ S)).map call) ++ rows.map (JoinEntry.mk · b.rowId) := by
  have hpass : (switch hash).drops ((switch hash).run Registers.zero (P ++ S)) b = false ↔ _ :=
    Phases.strays_iff h
  have hone : forwarded hash (P ++ (S ++ [b])) = forwarded hash (P ++ S) ++
      if (switch hash).drops ((switch hash).run Registers.zero (P ++ S)) b then [] else [b] := by
    rw [← List.append_assoc, forwarded, Pruner.forwarded_concat]
    rfl
  by_cases hstray : Strays hash (P.map Header.key) (S.map Header.key) b.key
  · have hsecondary := h.secondary (List.mem_concat_self ..)
    refine ⟨strayRows format ((forwarded hash (P ++ S)).map call) b.key, strayRows_length_le _ _,
      fun p => ?_, ?_⟩
    · rw [ghost_iff h.front, and_iff_right hstray]
    · rw [hone, hpass.mpr hstray, if_neg Bool.false_ne_true, List.map_append, List.map_singleton, produced_concat,
        call_key, rowsOf_unmarked h.front hstray.1, emitted, hsecondary]
      rfl
  · have hdrop := Bool.eq_true_of_not_eq_false (mt hpass.mp hstray)
    refine ⟨[], Nat.zero_le _, fun p => ?_, ?_⟩
    · rw [ghost_iff h.front]
      simp [hstray]
    · rw [hone, hdrop, if_pos rfl, List.append_nil, List.map_nil, List.append_nil]

/-- **What the host outputs** are the ghost pairs. -/
theorem mem_produced_iff (h : Phases P S) (p s : Word) :
    ⟨p, s⟩ ∈ produced format ((forwarded hash (P ++ S)).map call) ↔ GhostPair hash format P S p s := by
  induction S using List.reverseRecOn with
  | nil =>
    rw [List.append_nil, produced_primary h]
    simp [GhostPair]
  | append_singleton S b ih =>
    obtain ⟨rows, _, hrows, hproduced⟩ := @produced_concat_secondary _ κ _ _ hash format _ _ _ h
    have hlast : ⟨p, s⟩ ∈ rows.map (JoinEntry.mk · b.rowId) ↔ b.rowId = s ∧ Ghost hash format P S b p := by
      simp [hrows, and_comm]
    rw [hproduced, List.mem_append, ih h.front, hlast, GhostPair, GhostPair, exists_split_concat]

/-- The host outputs an entry for each secondary packet that meets a row. -/
theorem length_produced (h : Phases P S) :
    (produced format ((forwarded hash (P ++ S)).map call)).length =
      countSplits (fun before b => ∃ p, Ghost hash format P before b p) S := by
  induction S using List.reverseRecOn with
  | nil => rw [List.append_nil, produced_primary h, countSplits_nil, List.length_nil]
  | append_singleton S b ih =>
    obtain ⟨rows, hone, hrows, hproduced⟩ := @produced_concat_secondary _ κ _ _ hash format _ _ _ h
    rw [hproduced, List.length_append, List.length_map, ih h.front]
    match rows with
    | [] =>
      rw [countSplits_concat_of_not fun hsome => ?_, List.length_nil, Nat.add_zero]
      obtain ⟨p, hp⟩ := hsome
      exact List.not_mem_nil ((hrows p).mpr hp)
    | p :: rest =>
      rw [countSplits_concat ⟨p, (hrows p).mp List.mem_cons_self⟩]
      exact congrArg _ (Nat.le_antisymm hone (Nat.succ_pos _))

/-- The updates fit exactly when the host has room. -/
theorem fits_iff_room (h : Phases P S) (capacity : Option Nat) (size : Nat) :
    Fits format capacity size ((forwarded hash (P ++ S)).map call) ↔
      Room hash format capacity size P S := by
  have hstrings : {k | k ∈ ((forwarded hash (P ++ S)).map call).map fun c => format c.key} =
      {k | ∃ q, ComesThrough hash P S q ∧ format q.key = k} := by
    ext k
    simp only [Set.mem_ofPred_eq, List.mem_map, exists_exists_and_eq_and, mem_forwarded h, call_key]
  rw [Fits, length_produced h, length_eraseDups_eq_ncard, hstrings]
  exact ⟨fun hboth => ⟨hboth.1, hboth.2⟩, fun hroom => ⟨hroom.entries, hroom.strings⟩⟩

/-- **JOIN is preserved exactly when** the host has room and the pairs that match are, as
pairs of rows, the ghost pairs. -/
theorem join_preserved_iff (hc : Hcreate) (hash : Bloom → Word → ι) (format : Word → κ) {size : Nat}
    (hashSize : Nat) (h : Phases P S) (hsize : 0 < size) :
    JoinPreserved hash format hc size hashSize P S ↔
      Room hash format (hc.capacity hashSize) size P S ∧
        ∀ p s, Matches P S p s ↔ GhostPair hash format P S p s := by
  constructor
  · intro hsome
    obtain ⟨es, hyields, hmem⟩ := hsome
    obtain ⟨rfl, hfits⟩ := (joinYields_iff hsize _ _).mp hyields
    refine ⟨(fits_iff_room h _ _).mp hfits, fun p s => ?_⟩
    rw [← hmem, mem_produced_iff h]
  · intro hboth
    obtain ⟨hroom, hghosts⟩ := hboth
    refine ⟨_, (joinYields_iff hsize _ _).mpr ⟨rfl, (fits_iff_room h _ _).mpr hroom⟩, fun p s => ?_⟩
    rw [mem_produced_iff h, hghosts]

end Result

/-- A row with key 13. -/
def oneRow : List Header := [⟨4242, 1, 2, 13, 0⟩]

/-- Three rows with key 14 and one with key 13. The first sets the bit in filter 6 that lets
the next two through. -/
def fourRows : List Header :=
  [⟨4242, 2, 1, 14, 0⟩, ⟨4242, 2, 2, 14, 0⟩, ⟨4242, 2, 3, 14, 0⟩, ⟨4242, 2, 3, 13, 0⟩]

theorem oneRow_phases : Phases oneRow fourRows := ⟨by decide, by decide, by decide, by decide⟩

theorem oneRow_produced :
    produced (fun k => k) ((forwarded (fun _ k => k) (oneRow ++ fourRows)).map call) = [⟨2, 3⟩] := by
  decide

/-- The rows 2 and 3 match, but what is output for them is the second and third packets with
key 14. -/
theorem join_preserved_iff_coincidence :
    (JoinPreserved (fun _ k => k) (fun k => k) Hcreate.least 40000 15000 oneRow fourRows ↔
      Room (fun _ k => k) (fun k => k) (some 15000) 40000 oneRow fourRows ∧
        ∀ p s, Matches oneRow fourRows p s ↔ GhostPair (fun _ k => k) (fun k => k) oneRow fourRows p s) ∧
      Matches oneRow fourRows 2 3 ∧ GhostPair (fun _ k => k) (fun k => k) oneRow fourRows 2 3 ∧
      JoinPreserved (fun _ k => k) (fun k => k) Hcreate.least 40000 15000 oneRow fourRows := by
  have hiff := join_preserved_iff Hcreate.least (fun _ k => k) (fun k => k) 15000 oneRow_phases
    (show 0 < 40000 by decide)
  have hghost : ∀ p s, GhostPair (fun _ k => k) (fun k => k) oneRow fourRows p s ↔ p = 2 ∧ s = 3 := by
    intro p s
    rw [← mem_produced_iff oneRow_phases, oneRow_produced]
    simp
  have hmatch : ∀ p s, Matches oneRow fourRows p s ↔ p = 2 ∧ s = 3 := by
    intro p s
    simp [Matches, oneRow, fourRows, eq_comm]
  have hroom : Room (fun _ k => k) (fun k => k) (some 15000) 40000 oneRow fourRows :=
    (fits_iff_room oneRow_phases _ _).mp ⟨by rw [oneRow_produced]; decide, fun n hn => by cases hn; decide⟩
  exact ⟨hiff, (hmatch 2 3).mpr ⟨rfl, rfl⟩, (hghost 2 3).mpr ⟨rfl, rfl⟩,
    hiff.mpr ⟨hroom, fun p s => (hmatch p s).trans (hghost p s).symm⟩⟩

/-- One primary and one secondary packet with one key: both are dropped. -/
theorem join_lost :
    ¬ JoinPreserved (fun _ k => k) (fun k => k) Hcreate.least 40000 15000
      [⟨4242, 1, 2, 14, 0⟩] [⟨4242, 2, 1, 14, 0⟩] := by
  intro hsome
  obtain ⟨es, hyields, hmem⟩ := hsome
  have hnone : forwarded (fun _ k => k) ([⟨4242, 1, 2, 14, 0⟩] ++ [⟨4242, 2, 1, 14, 0⟩]) = [] := by
    decide
  rw [hnone] at hyields
  obtain ⟨rfl, _⟩ := (joinYields_iff (by decide) _ _).mp hyields
  have hmatch : Matches [⟨4242, 1, 2, 14, 0⟩] [⟨4242, 2, 1, 14, 0⟩] 2 1 :=
    ⟨_, List.mem_singleton.mpr rfl, _, List.mem_singleton.mpr rfl, rfl, rfl, rfl⟩
  exact absurd ((hmem 2 1).mpr hmatch) (by decide)

end Cheetah.Query.Join
