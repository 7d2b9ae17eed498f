import Cheetah.DataPlane.Tofino
import Cheetah.Lib.Splits
import Mathlib.Data.Fintype.Basic

/-! `cheetah_join.p4`: six Bloom filters passed one after another.

A packet leaves the pipeline at the first filter that outputs 1. With the rules of
`rules.md` a primary packet (flow 1) sets its bit in a filter and leaves there if the bit
was not set; a secondary one (flow 2) leaves at filters 1, 2, 4 and 5 if its bit is set,
misses filter 3, and sets its bit in filter 6 and leaves there if it was not set.
`marked_run` says which bits the packets of a run have set. -/
namespace Cheetah.DataPlane.Join

/-- The fields of `cheetah_t`, and the UDP port the tables read. -/
structure Header where
  dstPort : BitVec 16
  flowId : FlowId
  rowId : Word
  key : Word
  value : Word
  deriving DecidableEq, Repr

/-- The six instances of `CREATE_BLOOM`. -/
inductive Bloom where
  | one | two | three | four | five | six
  deriving DecidableEq, Repr

/-- The fields of `cheetah_md_t`; `key f` is the field `key_f`. -/
structure Metadata where
  prune : BitVec 8
  notInBloom : BitVec 1
  key : Bloom → Word

def Metadata.zero : Metadata := ⟨0, 0, fun _ => 0⟩

/-- `reg_bloom_f`, indexed by `ι`. -/
abbrev Registers (ι : Type) := Bloom → ι → BitVec 1

def Registers.zero {ι : Type} : Registers ι := fun _ _ => 0

abbrev Packet (ι : Type) := Pipe Header Metadata (Registers ι)

/-! ### Actions, tables, control -/

section Control
variable {ι : Type} [DecidableEq ι] (hash : Bloom → Word → ι)

/-- Either ALU of a filter at the index its hash gives, output to `not_in_bloom`. -/
def executeBloom (alu : BitAlu) (f : Bloom) (p : Packet ι) : Packet ι :=
  let i := hash f (p.md.key f)
  let bit := p.regs f i
  { p with
    regs := Function.update p.regs f (Function.update (p.regs f) i (alu bit).1)
    md := {p.md with notInBloom := (alu bit).2} }

def actBloom : Bloom → Packet ι → Packet ι := executeBloom hash setBitc
def actBloomR : Bloom → Packet ι → Packet ι := executeBloom hash readBit

/-- The rules of `tbl_bloom_f`, in the order they are installed. -/
def bloomRules : Bloom → List (FlowId × (Packet ι → Packet ι))
  | .one => [(1, actBloom hash .one), (2, actBloomR hash .one)]
  | .two => [(1, actBloom hash .two), (2, actBloomR hash .two)]
  | .three => [(1, actBloom hash .three), (1, actBloomR hash .three)]
  | .four => [(1, actBloom hash .four), (2, actBloomR hash .four)]
  | .five => [(1, actBloom hash .five), (2, actBloomR hash .five)]
  | .six => [(1, actBloom hash .six), (2, actBloom hash .six)]

def tblBloom (f : Bloom) : Table FlowId (Packet ι) :=
  .install (fun p => p.hdr.flowId) id (bloomRules hash f)

def actPrepareKeys (p : Packet ι) : Packet ι := {p with md := {p.md with key := fun _ => p.hdr.key}}

/-- What `act_prepare_keys_2` adds to a key. -/
def offset : Bloom → Word
  | .one => 0
  | .two => 3
  | .three => 5
  | .four => 7
  | .five => 11
  | .six => 13

def actPrepareKeys2 (p : Packet ι) : Packet ι :=
  {p with md := {p.md with key := fun f => p.md.key f + offset f}}

/-- The tables that read `udp.dstPort`, each with one rule. -/
def portTable (action : Packet ι → Packet ι) : Table (BitVec 16) (Packet ι) :=
  .install (fun p => p.hdr.dstPort) id [(4242, action)]

def tblPrepareKeys : Table (BitVec 16) (Packet ι) := portTable actPrepareKeys
def tblPrepareKeys2 : Table (BitVec 16) (Packet ι) := portTable actPrepareKeys2
def tblPrune : Table (BitVec 16) (Packet ι) := portTable Pipe.drop

/-- A filter, and what `ingress` does unless the filter outputs 1. -/
def applyBloom (f : Bloom) (otherwise : Packet ι → Packet ι) (p : Packet ι) : Packet ι :=
  let p := (tblBloom hash f).apply p
  if p.md.notInBloom = 1 then tblPrune.apply p else otherwise p

def ingress (p : Packet ι) : Packet ι :=
  let p := tblPrepareKeys.apply p
  let p := tblPrepareKeys2.apply p
  applyBloom hash .one (applyBloom hash .two (applyBloom hash .three
    (applyBloom hash .four (applyBloom hash .five (applyBloom hash .six id))))) p

/-- The switch running the join. -/
def switch : Lib.Pruner Header (Registers ι) := pruner (fun _ => Metadata.zero) (ingress hash)

end Control

/-! ### One filter -/

section Filter
variable {ι : Type} [DecidableEq ι] (hash : Bloom → Word → ι)

/-- The index of a key in a filter. -/
def index (f : Bloom) (key : Word) : ι := hash f (key + offset f)

/-- The bit of a key in a filter. -/
def bit (r : Registers ι) (f : Bloom) (key : Word) : BitVec 1 := r f (index hash f key)

/-- The registers with the bit of a key set in one filter. -/
def setBit (r : Registers ι) (f : Bloom) (key : Word) : Registers ι :=
  Function.update r f (Function.update (r f) (index hash f key) 1)

/-- A packet whose keys are prepared and that has not been dropped. -/
structure Prepared (h : Header) (p : Packet ι) : Prop where
  hdr : p.hdr = h
  key : ∀ f, p.md.key f = h.key + offset f
  dropped : p.dropped = false

variable {h : Header} {p : Packet ι}

omit [DecidableEq ι] in
theorem tblPrune_apply (hport : p.hdr.dstPort = 4242) : tblPrune.apply p = p.drop := by
  rw [tblPrune, portTable, Table.apply_install_one]
  exact if_pos hport

/-- A filter whose table runs `alu`: the packet leaves if the output is 1. -/
theorem applyBloom_execute {alu : BitAlu} {f : Bloom} (otherwise : Packet ι → Packet ι)
    (hp : Prepared h p) (hport : h.dstPort = 4242)
    (hit : (tblBloom hash f).apply p = executeBloom hash alu f p) :
    ∃ p' : Packet ι, Prepared h p' ∧ p'.md.notInBloom = (alu (bit hash p.regs f h.key)).2 ∧
      p'.regs = Function.update p.regs f
        (Function.update (p.regs f) (index hash f h.key) (alu (bit hash p.regs f h.key)).1) ∧
      applyBloom hash f otherwise p =
        if (alu (bit hash p.regs f h.key)).2 = 1 then p'.drop else otherwise p' := by
  have hindex : hash f (p.md.key f) = index hash f h.key := by rw [index, hp.key f]
  have hport' : (executeBloom hash alu f p).hdr.dstPort = 4242 := by
    show p.hdr.dstPort = 4242
    rw [hp.hdr, hport]
  have hout : (executeBloom hash alu f p).md.notInBloom = (alu (bit hash p.regs f h.key)).2 := by
    simp only [executeBloom, hindex, bit]
  refine ⟨executeBloom hash alu f p, ⟨hp.hdr, hp.key, hp.dropped⟩, hout, ?_, ?_⟩
  · simp only [executeBloom, hindex, bit]
  · rw [applyBloom, hit, hout, tblPrune_apply hport']

/-- A filter whose table sets the bit: the packet leaves unless it was set. -/
theorem applyBloom_setBitc {f : Bloom} (otherwise : Packet ι → Packet ι) (hp : Prepared h p)
    (hport : h.dstPort = 4242) (hit : (tblBloom hash f).apply p = executeBloom hash setBitc f p) :
    ∃ p' : Packet ι, Prepared h p' ∧ p'.regs = setBit hash p.regs f h.key ∧
      applyBloom hash f otherwise p =
        if bit hash p.regs f h.key = 1 then otherwise p' else p'.drop := by
  obtain ⟨p', hp', _, hregs, heq⟩ := applyBloom_execute hash otherwise hp hport hit
  refine ⟨p', hp', hregs, ?_⟩
  rw [heq]
  by_cases hbit : bit hash p.regs f h.key = 1
  · rw [if_pos hbit, hbit]
    rfl
  · have hzero : bit hash p.regs f h.key = 0 := (BitVec.eq_zero_or_eq_one _).resolve_right hbit
    rw [if_neg hbit, hzero]
    rfl

end Filter

/-! ### A primary packet -/

/-- The position of a filter in `ingress`. -/
def Bloom.rank : Bloom → Nat
  | .one => 1
  | .two => 2
  | .three => 3
  | .four => 4
  | .five => 5
  | .six => 6

section Primary
variable {ι : Type} [DecidableEq ι] (hash : Bloom → Word → ι) {h : Header}

theorem setBit_eq_one {r : Registers ι} {f g : Bloom} {key : Word} {i : ι} :
    setBit hash r f key g i = 1 ↔ r g i = 1 ∨ (g = f ∧ index hash f key = i) := by
  by_cases hg : g = f
  · subst hg
    by_cases hi : i = index hash g key
    · simp [setBit, hi]
    · simp [setBit, hi, Ne.symm hi]
  · simp [setBit, hg]

/-- Setting a bit that is set changes nothing. -/
theorem setBit_of_one {r : Registers ι} {f : Bloom} {key : Word} (hbit : bit hash r f key = 1) :
    setBit hash r f key = r := by
  unfold bit at hbit
  rw [setBit, ← hbit, Function.update_eq_self, Function.update_eq_self]

/-- A sequence of filters on a primary packet: it sets its bit in every filter whose
predecessors have it, and leaves at the first one that does not. -/
theorem foldr_applyBloom_primary (fs : List Bloom) (hport : h.dstPort = 4242) (hflow : h.flowId = 1)
    {p : Packet ι} (hp : Prepared h p) :
    ((fs.foldr (applyBloom hash) id p).dropped = true ↔ ∃ f ∈ fs, bit hash p.regs f h.key ≠ 1) ∧
      ∀ f i, (fs.foldr (applyBloom hash) id p).regs f i = 1 ↔ p.regs f i = 1 ∨
        (f ∈ fs ∧ (∀ g ∈ fs.takeWhile (· ≠ f), bit hash p.regs g h.key = 1) ∧ index hash f h.key = i) := by
  induction fs generalizing p with
  | nil => simp [hp.dropped]
  | cons f rest ih =>
    have hit : (tblBloom hash f).apply p = executeBloom hash setBitc f p := by
      rw [tblBloom, Table.apply_install, hp.hdr, hflow]
      cases f <;> rfl
    obtain ⟨p', hp', hregs, heq⟩ :=
      applyBloom_setBitc hash (rest.foldr (applyBloom hash) id) hp hport hit
    rw [List.foldr_cons, heq]
    by_cases hbit : bit hash p.regs f h.key = 1
    · rw [setBit_of_one hash hbit] at hregs
      obtain ⟨hdropped, hset⟩ := ih hp'
      rw [hregs] at hdropped hset
      rw [if_pos hbit]
      refine ⟨?_, fun g i => ?_⟩
      · rw [hdropped]
        simp [hbit]
      · rw [hset]
        by_cases hg : g = f
        · subst hg
          have hown : index hash g h.key = i → p.regs g i = 1 := by
            intro heq
            obtain rfl := heq
            exact hbit
          exact (or_iff_left_of_imp fun hin => hown hin.2.2).trans
            (or_iff_left_of_imp fun hin => hown hin.2.2).symm
        · have hg' : f ≠ g := Ne.symm hg
          simp [hg, hg', hbit]
    · rw [if_neg hbit]
      refine ⟨iff_of_true rfl ⟨f, List.mem_cons_self .., hbit⟩, fun g i => ?_⟩
      show p'.regs g i = 1 ↔ _
      rw [hregs, setBit_eq_one]
      by_cases hg : g = f
      · subst hg
        simp
      · have hg' : f ≠ g := Ne.symm hg
        simp only [List.mem_cons, hg, false_or, false_and, or_false, List.takeWhile_cons, hg', ne_eq,
          not_false_eq_true, decide_true, if_true]
        refine ⟨.inl, ?_⟩
        intro hor
        rcases hor with hset | ⟨_, hall, _⟩
        · exact hset
        · exact absurd (hall f (.inl rfl)) hbit

theorem ingress_eq (p : Packet ι) : ingress hash p =
    [Bloom.one, .two, .three, .four, .five, .six].foldr (applyBloom hash) id
      (tblPrepareKeys2.apply (tblPrepareKeys.apply p)) := by
  simp only [ingress, List.foldr_cons, List.foldr_nil]

/-- The filters start from the packet with its keys prepared. -/
theorem prepared_start (r : Registers ι) (hport : h.dstPort = 4242) :
    ∃ p : Packet ι, Prepared h p ∧ p.regs = r ∧ p.md.notInBloom = 0 ∧
      ingress hash ⟨h, Metadata.zero, r, false⟩ =
        [Bloom.one, .two, .three, .four, .five, .six].foldr (applyBloom hash) id p := by
  let start : Packet ι := ⟨h, Metadata.zero, r, false⟩
  have hprepare : tblPrepareKeys.apply start = actPrepareKeys start := by
    rw [tblPrepareKeys, portTable, Table.apply_install_one]
    exact if_pos hport
  have hprepare2 : tblPrepareKeys2.apply (actPrepareKeys start) = actPrepareKeys2 (actPrepareKeys start) := by
    rw [tblPrepareKeys2, portTable, Table.apply_install_one]
    exact if_pos hport
  refine ⟨actPrepareKeys2 (actPrepareKeys start), ⟨rfl, fun _ => rfl, rfl⟩, rfl, rfl, ?_⟩
  rw [ingress_eq, hprepare, hprepare2]

/-- **A primary packet** goes through when its bit is set in every filter, and sets it in
each filter whose predecessors have it. -/
theorem switch_primary (r : Registers ι) (hport : h.dstPort = 4242) (hflow : h.flowId = 1) :
    ((switch hash).drops r h = true ↔ ∃ f, bit hash r f h.key ≠ 1) ∧
      ∀ f i, (switch hash).step r h f i = 1 ↔ r f i = 1 ∨
        ((∀ g : Bloom, g.rank < f.rank → bit hash r g h.key = 1) ∧ index hash f h.key = i) := by
  obtain ⟨p, hp, hregs, _, heq⟩ := prepared_start hash r hport
  have hfilters := foldr_applyBloom_primary hash [.one, .two, .three, .four, .five, .six] hport hflow hp
  rw [← heq, hregs] at hfilters
  have hmem : ∀ f : Bloom, f ∈ [Bloom.one, .two, .three, .four, .five, .six] := by
    intro f
    cases f <;> decide
  have hbefore : ∀ f g : Bloom, g ∈ [Bloom.one, .two, .three, .four, .five, .six].takeWhile (· ≠ f) ↔
      g.rank < f.rank := by
    intro f g
    cases f <;> cases g <;> decide
  rw [switch, pruner_drops, pruner_step]
  simpa only [hmem, hbefore, true_and] using hfilters

end Primary

/-! ### A secondary packet -/

section Secondary
variable {ι : Type} [DecidableEq ι] (hash : Bloom → Word → ι) {h : Header} {p : Packet ι}

/-- The filters whose bit a secondary packet reads. -/
def Bloom.reads : Bloom → Bool
  | .one | .two | .four | .five => true
  | .three | .six => false

/-- No filter that is read has the bit of the key. -/
def Quiet (r : Registers ι) (key : Word) : Prop := ∀ f : Bloom, f.reads → bit hash r f key ≠ 1

/-- A filter that a secondary packet reads: it leaves if its bit is set. -/
theorem applyBloom_read {f : Bloom} (hf : f.reads) (otherwise : Packet ι → Packet ι)
    (hp : Prepared h p) (hport : h.dstPort = 4242) (hflow : h.flowId = 2) :
    ∃ p' : Packet ι, Prepared h p' ∧ p'.md.notInBloom = bit hash p.regs f h.key ∧ p'.regs = p.regs ∧
      applyBloom hash f otherwise p =
        if bit hash p.regs f h.key = 1 then p'.drop else otherwise p' := by
  have hit : (tblBloom hash f).apply p = executeBloom hash readBit f p := by
    rw [tblBloom, Table.apply_install, hp.hdr, hflow]
    cases f <;> first | rfl | cases hf
  obtain ⟨p', hp', hout, hregs, heq⟩ := applyBloom_execute hash otherwise hp hport hit
  refine ⟨p', hp', hout, ?_, heq⟩
  rw [hregs]
  show Function.update p.regs f (Function.update (p.regs f) _ (p.regs f _)) = p.regs
  rw [Function.update_eq_self, Function.update_eq_self]

/-- Filter 3 has no rule for a secondary packet, which keeps the output of filter 2. -/
theorem applyBloom_three (otherwise : Packet ι → Packet ι) (hp : Prepared h p) (hflow : h.flowId = 2)
    (hout : p.md.notInBloom ≠ 1) : applyBloom hash .three otherwise p = otherwise p := by
  have hmiss : (tblBloom hash .three).apply p = p := by
    rw [tblBloom, Table.apply_install, hp.hdr, hflow]
    rfl
  rw [applyBloom, hmiss, if_neg hout]

/-- Filter 6 treats a secondary packet as a primary one. -/
theorem applyBloom_six (otherwise : Packet ι → Packet ι) (hp : Prepared h p)
    (hport : h.dstPort = 4242) (hflow : h.flowId = 2) :
    ∃ p' : Packet ι, Prepared h p' ∧ p'.regs = setBit hash p.regs .six h.key ∧
      applyBloom hash .six otherwise p =
        if bit hash p.regs .six h.key = 1 then otherwise p' else p'.drop := by
  have hit : (tblBloom hash .six).apply p = executeBloom hash setBitc .six p := by
    rw [tblBloom, Table.apply_install, hp.hdr, hflow]
    rfl
  exact applyBloom_setBitc hash otherwise hp hport hit

/-- A filter that is read and has the bit ends the pipeline. -/
theorem drop_of_reads {f : Bloom} (hf : f.reads) {r : Registers ι} (hbit : bit hash r f h.key = 1)
    (hregs : p.regs = r) :
    (p.drop.dropped = true ↔ ¬ (Quiet hash r h.key ∧ bit hash r .six h.key = 1)) ∧
      (Quiet hash r h.key → p.drop.regs = setBit hash r .six h.key) ∧
      (¬ Quiet hash r h.key → p.drop.regs = r) := by
  have hloud : ¬ Quiet hash r h.key := fun hquiet => hquiet f hf hbit
  exact ⟨iff_of_true rfl fun hboth => hloud hboth.1, fun hquiet => absurd hquiet hloud, fun _ => hregs⟩

omit [DecidableEq ι] in
theorem quiet_of_four {r : Registers ι} {key : Word} (hone : bit hash r .one key ≠ 1)
    (htwo : bit hash r .two key ≠ 1) (hfour : bit hash r .four key ≠ 1) (hfive : bit hash r .five key ≠ 1) :
    Quiet hash r key := by
  intro f hf
  cases f
  case one => exact hone
  case two => exact htwo
  case four => exact hfour
  case five => exact hfive
  case three | six => cases hf

/-- **A secondary packet** goes through when no filter it reads has its bit and filter 6
has it, and sets its bit in filter 6 when it gets there. -/
theorem switch_secondary (r : Registers ι) (hport : h.dstPort = 4242) (hflow : h.flowId = 2) :
    ((switch hash).drops r h = true ↔ ¬ (Quiet hash r h.key ∧ bit hash r .six h.key = 1)) ∧
      (Quiet hash r h.key → (switch hash).step r h = setBit hash r .six h.key) ∧
      (¬ Quiet hash r h.key → (switch hash).step r h = r) := by
  obtain ⟨p, hp, hregs, _, heq⟩ := prepared_start hash r hport
  simp only [List.foldr_cons, List.foldr_nil] at heq
  rw [switch, pruner_drops, pruner_step, heq]
  obtain ⟨p₁, hp₁, _, hr₁, h₁⟩ := applyBloom_read hash (f := .one) rfl (applyBloom hash .two
    (applyBloom hash .three (applyBloom hash .four (applyBloom hash .five (applyBloom hash .six id)))))
    hp hport hflow
  rw [hregs] at h₁ hr₁
  rw [h₁]
  by_cases hone : bit hash r .one h.key = 1
  · rw [if_pos hone]
    exact drop_of_reads hash (f := .one) rfl hone hr₁
  rw [if_neg hone]
  obtain ⟨p₂, hp₂, hout₂, hr₂, h₂⟩ := applyBloom_read hash (f := .two) rfl (applyBloom hash .three
    (applyBloom hash .four (applyBloom hash .five (applyBloom hash .six id)))) hp₁ hport hflow
  rw [hr₁] at h₂ hr₂ hout₂
  rw [h₂]
  by_cases htwo : bit hash r .two h.key = 1
  · rw [if_pos htwo]
    exact drop_of_reads hash (f := .two) rfl htwo hr₂
  rw [if_neg htwo, applyBloom_three hash _ hp₂ hflow (by rw [hout₂]; exact htwo)]
  obtain ⟨p₄, hp₄, _, hr₄, h₄⟩ := applyBloom_read hash (f := .four) rfl
    (applyBloom hash .five (applyBloom hash .six id)) hp₂ hport hflow
  rw [hr₂] at h₄ hr₄
  rw [h₄]
  by_cases hfour : bit hash r .four h.key = 1
  · rw [if_pos hfour]
    exact drop_of_reads hash (f := .four) rfl hfour hr₄
  rw [if_neg hfour]
  obtain ⟨p₅, hp₅, _, hr₅, h₅⟩ := applyBloom_read hash (f := .five) rfl (applyBloom hash .six id)
    hp₄ hport hflow
  rw [hr₄] at h₅ hr₅
  rw [h₅]
  by_cases hfive : bit hash r .five h.key = 1
  · rw [if_pos hfive]
    exact drop_of_reads hash (f := .five) rfl hfive hr₅
  rw [if_neg hfive]
  have hquiet := quiet_of_four hash hone htwo hfour hfive
  obtain ⟨p₆, hp₆, hr₆, h₆⟩ := applyBloom_six hash id hp₅ hport hflow
  rw [hr₅] at h₆ hr₆
  rw [h₆]
  by_cases hsix : bit hash r .six h.key = 1
  · rw [if_pos hsix]
    exact ⟨iff_of_false (by rw [id, hp₆.dropped]; decide) fun hn => hn ⟨hquiet, hsix⟩,
      fun _ => hr₆, fun hn => absurd hquiet hn⟩
  · rw [if_neg hsix]
    exact ⟨iff_of_true rfl fun hboth => hsix hboth.2, fun _ => hr₆, fun hn => absurd hquiet hn⟩

end Secondary

/-! ### The bits of a run -/

section Marks
variable {ι : Type} (hash : Bloom → Word → ι)

/-- Some of the primary keys sets the bit at `i` of filter `f`: it has that index there,
and by the time it came the filters before `f` had its bits. -/
def Marked (f : Bloom) (keys : List Word) (i : ι) : Prop :=
  ∃ pre k post, keys = pre ++ k :: post ∧
    (∀ g : Bloom, g.rank < f.rank → Marked g pre (index hash g k)) ∧ index hash f k = i
termination_by f.rank

/-- The bit at `i` of filter `f` is set after primary packets with these keys: it was set
before them, or some key has that index there and came when the filters before `f` had its bits. -/
def SetBy (r : Registers ι) (f : Bloom) (keys : List Word) (i : ι) : Prop :=
  r f i = 1 ∨ ∃ pre k post, keys = pre ++ k :: post ∧
    (∀ g : Bloom, g.rank < f.rank → SetBy r g pre (index hash g k)) ∧ index hash f k = i
termination_by f.rank

theorem setBy_nil (r : Registers ι) (f : Bloom) (i : ι) : SetBy hash r f [] i ↔ r f i = 1 := by
  rw [SetBy]
  refine or_iff_left ?_
  intro hkey
  obtain ⟨pre, k, post, he, _⟩ := hkey
  simp at he

/-- One more key sets the bits it reaches. -/
theorem setBy_concat (r : Registers ι) (f : Bloom) (keys : List Word) (k : Word) (i : ι) :
    SetBy hash r f (keys ++ [k]) i ↔ SetBy hash r f keys i ∨
      ((∀ g : Bloom, g.rank < f.rank → SetBy hash r g keys (index hash g k)) ∧ index hash f k = i) := by
  rw [SetBy, SetBy, or_assoc]
  exact or_congr_right Lib.exists_split_concat

/-- From empty filters the bits that are set are the marked ones. -/
theorem setBy_zero (f : Bloom) (keys : List Word) (i : ι) :
    SetBy hash Registers.zero f keys i ↔ Marked hash f keys i := by
  induction hrank : f.rank using Nat.strong_induction_on generalizing f keys i with
  | _ n ih =>
    have hbefore : ∀ pre k, (∀ g : Bloom, g.rank < f.rank → SetBy hash Registers.zero g pre (index hash g k)) ↔
        ∀ g : Bloom, g.rank < f.rank → Marked hash g pre (index hash g k) := fun pre k =>
      forall_congr' fun g => forall_congr' fun hg => ih g.rank (hrank ▸ hg) g pre _ rfl
    rw [SetBy, Marked, or_iff_right (by simp [Registers.zero])]
    simp only [hbefore]

/-- Every primary key marks the first filter. -/
theorem marked_one (keys : List Word) (i : ι) :
    Marked hash .one keys i ↔ ∃ k ∈ keys, index hash .one k = i := by
  rw [Marked]
  constructor
  · intro hsome
    obtain ⟨pre, k, post, rfl, _, hi⟩ := hsome
    exact ⟨k, by simp, hi⟩
  · intro hsome
    obtain ⟨k, hk, hi⟩ := hsome
    obtain ⟨pre, post, rfl⟩ := List.append_of_mem hk
    refine ⟨pre, k, post, rfl, fun g hg => ?_, hi⟩
    cases g <;> exact absurd hg (by decide)

/-- A primary key that goes through all filters. -/
def Passes (keys : List Word) (k : Word) : Prop := ∀ f, Marked hash f keys (index hash f k)

/-- The primary keys mark none of the bits that a secondary key reads. -/
def Unmarked (keys : List Word) (k : Word) : Prop :=
  ∀ f : Bloom, f.reads → ¬ Marked hash f keys (index hash f k)

/-- A secondary key that goes through all filters: its bits are unmarked, and its bit in
filter 6 was set by a primary key or by a secondary one before it. -/
def Strays (keys before : List Word) (k : Word) : Prop :=
  Unmarked hash keys k ∧ (Marked hash .six keys (index hash .six k) ∨
    ∃ k' ∈ before, Unmarked hash keys k' ∧ index hash .six k' = index hash .six k)

/-- An unmarked key is not the key of a primary packet. -/
theorem Unmarked.not_mem {keys : List Word} {k : Word} (h : Unmarked hash keys k) : k ∉ keys :=
  fun hk => h .one rfl ((marked_one hash keys _).mpr ⟨k, hk, rfl⟩)

/-- What secondary packets add to filter 6 is not read. -/
theorem quiet_iff {r : Registers ι} {keys : List Word} {extra : ι → Prop}
    (hr : ∀ f i, r f i = 1 ↔ Marked hash f keys i ∨ (f = .six ∧ extra i)) (k : Word) :
    Quiet hash r k ↔ Unmarked hash keys k := by
  refine forall_congr' fun f => forall_congr' fun hf => not_congr ?_
  rw [bit, hr]
  constructor
  · intro hor
    rcases hor with hm | ⟨rfl, _⟩
    · exact hm
    · cases hf
  · exact .inl

variable [DecidableEq ι]

/-- **Any run** of primary packets sets the bits their keys reach. -/
theorem set_run (r : Registers ι) (ps : List Header) (hport : ∀ h ∈ ps, h.dstPort = 4242)
    (hflow : ∀ h ∈ ps, h.flowId = 1) (f : Bloom) (i : ι) :
    (switch hash).run r ps f i = 1 ↔ SetBy hash r f (ps.map Header.key) i := by
  induction ps using List.reverseRecOn generalizing f i with
  | nil => exact (setBy_nil hash r f i).symm
  | append_singleton ps h ih =>
    have ih := ih (fun q hq => hport q (List.mem_append_left _ hq))
      (fun q hq => hflow q (List.mem_append_left _ hq))
    have hstep := (switch_primary hash ((switch hash).run r ps) (hport h (by simp))
      (hflow h (by simp))).2 f i
    rw [Lib.Pruner.run_concat, hstep, List.map_append, List.map_singleton, setBy_concat]
    simp only [bit, ih]

/-- **Any run** of primary packets from empty filters marks the bits of their keys. -/
theorem marked_run (ps : List Header) (hport : ∀ h ∈ ps, h.dstPort = 4242)
    (hflow : ∀ h ∈ ps, h.flowId = 1) (f : Bloom) (i : ι) :
    (switch hash).run Registers.zero ps f i = 1 ↔ Marked hash f (ps.map Header.key) i := by
  rw [set_run hash Registers.zero ps hport hflow, setBy_zero]

/-- A primary packet is dropped unless it passes. -/
theorem drops_primary (ps : List Header) (hport : ∀ h ∈ ps, h.dstPort = 4242)
    (hflow : ∀ h ∈ ps, h.flowId = 1) {h : Header} (hport' : h.dstPort = 4242) (hflow' : h.flowId = 1) :
    (switch hash).drops ((switch hash).run Registers.zero ps) h = true ↔
      ¬ Passes hash (ps.map Header.key) h.key := by
  rw [(switch_primary hash _ hport' hflow').1]
  simp only [bit, Ne, marked_run hash ps hport hflow, Passes, not_forall]

/-- **Any run** of secondary packets adds to filter 6 the bits of the quiet keys. -/
theorem probe_run (r : Registers ι) (S : List Header) (hport : ∀ h ∈ S, h.dstPort = 4242)
    (hflow : ∀ h ∈ S, h.flowId = 2) (f : Bloom) (i : ι) :
    (switch hash).run r S f i = 1 ↔ r f i = 1 ∨
      (f = .six ∧ ∃ h ∈ S, Quiet hash r h.key ∧ index hash .six h.key = i) := by
  induction S using List.reverseRecOn generalizing f i with
  | nil =>
    refine (or_iff_left ?_).symm
    intro hkey
    obtain ⟨_, h, hh, _⟩ := hkey
    cases hh
  | append_singleton S h ih =>
    have ih := ih (fun q hq => hport q (List.mem_append_left _ hq))
      (fun q hq => hflow q (List.mem_append_left _ hq))
    -- what was added to filter 6 is not read
    have hquiet : Quiet hash ((switch hash).run r S) h.key ↔ Quiet hash r h.key := by
      refine forall_congr' fun g => forall_congr' fun hg => not_congr ?_
      rw [bit, ih]
      refine or_iff_left ?_
      intro hkey
      obtain ⟨rfl, _⟩ := hkey
      cases hg
    obtain ⟨_, hset, hkeep⟩ := switch_secondary hash ((switch hash).run r S) (hport h (by simp))
      (hflow h (by simp))
    have hkeys : (∃ q ∈ S ++ [h], Quiet hash r q.key ∧ index hash .six q.key = i) ↔
        (∃ q ∈ S, Quiet hash r q.key ∧ index hash .six q.key = i) ∨
          (Quiet hash r h.key ∧ index hash .six h.key = i) := by
      simp only [List.mem_append, List.mem_singleton, or_and_right, exists_or, exists_eq_left]
    rw [Lib.Pruner.run_concat, hkeys]
    by_cases hu : Quiet hash r h.key
    · rw [hset (hquiet.mpr hu), setBit_eq_one, ih, and_or_left, or_assoc, eq_true hu, true_and]
    · rw [hkeep (mt hquiet.mp hu), ih, eq_false hu, false_and, or_false]

section Secondary
variable {P : List Header} (hportP : ∀ h ∈ P, h.dstPort = 4242) (hflowP : ∀ h ∈ P, h.flowId = 1)
  {S : List Header} (hportS : ∀ h ∈ S, h.dstPort = 4242) (hflowS : ∀ h ∈ S, h.flowId = 2)
include hportP hflowP hportS hflowS

/-- **Any run** of secondary packets after the primary ones adds to filter 6 the bits of
the unmarked keys. -/
theorem secondary_run (f : Bloom) (i : ι) :
    (switch hash).run Registers.zero (P ++ S) f i = 1 ↔ Marked hash f (P.map Header.key) i ∨
      (f = .six ∧ ∃ k ∈ S.map Header.key, Unmarked hash (P.map Header.key) k ∧ index hash .six k = i) := by
  have hquiet : ∀ k, Quiet hash ((switch hash).run Registers.zero P) k ↔
      Unmarked hash (P.map Header.key) k := by
    intro k
    refine forall_congr' fun g => forall_congr' fun _ => not_congr ?_
    rw [bit, marked_run hash P hportP hflowP]
  rw [Lib.Pruner.run_append, probe_run hash _ S hportS hflowS, marked_run hash P hportP hflowP]
  simp only [hquiet, List.mem_map, exists_exists_and_eq_and]

/-- A secondary packet is dropped unless it strays. -/
theorem drops_secondary {h : Header} (hport' : h.dstPort = 4242) (hflow' : h.flowId = 2) :
    (switch hash).drops ((switch hash).run Registers.zero (P ++ S)) h = true ↔
      ¬ Strays hash (P.map Header.key) (S.map Header.key) h.key := by
  have hrun := secondary_run hash hportP hflowP hportS hflowS
  rw [(switch_secondary hash _ hport' hflow').1, quiet_iff hash hrun, Strays, bit, hrun, eq_self, true_and]

end Secondary
end Marks
end Cheetah.DataPlane.Join
