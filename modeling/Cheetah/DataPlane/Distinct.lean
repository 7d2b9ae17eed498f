import Cheetah.DataPlane.Tofino

/-! `cheetah_distinct.p4`: four stages of a cache of 64-bit values.

A stage holds a value as two words, in two registers. It takes the value handed to it
and hands on the one it held, with the top bit of a half set when that half is the
packet's; a packet is pruned when both top bits are set. `switch_drops` says when a
packet is pruned in terms of what the stages held before it came. -/
namespace Cheetah.DataPlane.Distinct

/-- The fields of `cheetah_t`. -/
structure Header where
  flowId : FlowId
  rowId : Word
  valueHi : Word
  valueLo : Word
  deriving DecidableEq, Repr

/-- The value a packet carries. -/
def Header.value (h : Header) : BitVec 64 := h.valueHi ++ h.valueLo

/-- The fields of `cheetah_md_t`. -/
structure CheetahMd where
  rowId : Word
  prune : BitVec 8
  replaceValueLo : Word
  replaceValueHi : Word

/-- The two instances, `cheetah_md` and `cheetah_md_2`. -/
inductive Instance where
  | md | md2
  deriving DecidableEq, Repr

abbrev Metadata := Instance → CheetahMd

/-- `parse_cheetah`. -/
def parseCheetah (h : Header) : Metadata
  | .md => ⟨h.rowId, 0, 0, 0⟩
  | .md2 => ⟨0, 0, 0, 0⟩

/-- The four imported files. -/
inductive Stage where
  | one | two | three | four
  deriving DecidableEq, Repr

/-- The instance a stage takes its new value from. The last stage takes what the second
one handed on. -/
def Stage.source : Stage → Instance
  | .one => .md
  | .two => .md2
  | .three => .md
  | .four => .md

/-- The instance a stage hands its old value to. -/
def Stage.dest : Stage → Instance
  | .one => .md2
  | .two => .md
  | .three => .md2
  | .four => .md

/-- `lru_reg_lo_s` and `lru_reg_hi_s`, indexed by `ι`. -/
structure Cells (ι : Type) where
  lo : ι → Word
  hi : ι → Word

abbrev Registers (ι : Type) := Stage → Cells ι

def Registers.zero {ι : Type} : Registers ι := fun _ => ⟨fun _ => 0, fun _ => 0⟩

abbrev Packet (ι : Type) := Pipe Header Metadata (Registers ι)

/-! ### The ALUs -/

/-- `lru_one_lo`, reading the instance its stage names. -/
def lruOneLo (s : Stage) : StatefulAlu (Header × Metadata) where
  conditionLo := fun f reg => diff f.1.valueLo reg = 0
  updateLo := [⟨fun _ _ => true, fun f _ => (f.2 s.source).replaceValueLo⟩]
  updateHi := [⟨fun lo _ => lo, fun _ reg => reg ||| 0x80000000⟩, ⟨fun lo _ => !lo, fun _ reg => reg⟩]

/-- `lru_one_hi`, reading the instance its stage names. -/
def lruOneHi (s : Stage) : StatefulAlu (Header × Metadata) where
  conditionLo := fun f reg => diff f.1.valueHi reg = 0
  updateLo := [⟨fun _ _ => true, fun f _ => (f.2 s.source).replaceValueHi⟩]
  updateHi := [⟨fun lo _ => lo, fun _ reg => reg ||| 0x80000000⟩, ⟨fun lo _ => !lo, fun _ reg => reg⟩]

/-! ### Actions, tables, control -/

section Control
variable {ι : Type} [DecidableEq ι] (lruCacheHash : Word → Word → ι)

/-- The slot of a packet: `lru_cache_hash` of its `value_lo` and `value_hi`. -/
def slot (h : Header) : ι := lruCacheHash h.valueLo h.valueHi

/-- `lru_action_lo`: the ALU at the packet's slot, output to the stage's instance. -/
def lruActionLo (s : Stage) (p : Packet ι) : Packet ι :=
  let i := slot lruCacheHash p.hdr
  let f := (p.hdr, p.md)
  let reg := (p.regs s).lo i
  let cells := {p.regs s with lo := Function.update (p.regs s).lo i ((lruOneLo s).lo f reg)}
  let out := {p.md s.dest with replaceValueLo := (lruOneLo s).hi f reg}
  {p with regs := Function.update p.regs s cells, md := Function.update p.md s.dest out}

/-- `lru_action_hi`: the ALU at the packet's slot, output to the stage's instance. -/
def lruActionHi (s : Stage) (p : Packet ι) : Packet ι :=
  let i := slot lruCacheHash p.hdr
  let f := (p.hdr, p.md)
  let reg := (p.regs s).hi i
  let cells := {p.regs s with hi := Function.update (p.regs s).hi i ((lruOneHi s).lo f reg)}
  let out := {p.md s.dest with replaceValueHi := (lruOneHi s).hi f reg}
  {p with regs := Function.update p.regs s cells, md := Function.update p.md s.dest out}

def copyToMetadataAction (p : Packet ι) : Packet ι :=
  let md := {p.md .md with replaceValueLo := p.hdr.valueLo, replaceValueHi := p.hdr.valueHi}
  {p with md := Function.update p.md .md md}

/-- What every table of the program reads. -/
def readsFlowId (p : Packet ι) : FlowId := p.hdr.flowId

def metadataCopyTable : Table FlowId (Packet ι) :=
  .install readsFlowId copyToMetadataAction [(1, copyToMetadataAction)]

/-- `lru_cache_lo` with its rule. -/
def lruCacheLo (s : Stage) : Table FlowId (Packet ι) :=
  .install readsFlowId id [(1, lruActionLo lruCacheHash s)]

/-- `lru_cache_hi` with its rule. -/
def lruCacheHi (s : Stage) : Table FlowId (Packet ι) :=
  .install readsFlowId id [(1, lruActionHi lruCacheHash s)]

/-- `prune_table`, whose default is to prune; the last two have no rule. -/
def pruneTable : Stage → Table FlowId (Packet ι)
  | .one | .two => .install readsFlowId Pipe.drop [(1, Pipe.drop)]
  | .three | .four => .install readsFlowId Pipe.drop []

/-- Both halves of an instance have the top bit. -/
def Marked (md : CheetahMd) : Prop :=
  md.replaceValueLo &&& 0x80000000 = 0x80000000 ∧ md.replaceValueHi &&& 0x80000000 = 0x80000000

instance (md : CheetahMd) : Decidable (Marked md) := inferInstanceAs (Decidable (_ ∧ _))

/-- A stage, and what `ingress` does unless the stage prunes. -/
def applyStage (s : Stage) (otherwise : Packet ι → Packet ι) (p : Packet ι) : Packet ι :=
  let p := (lruCacheLo lruCacheHash s).apply p
  let p := (lruCacheHi lruCacheHash s).apply p
  if Marked (p.md s.dest) then (pruneTable s).apply p else otherwise p

def ingress (p : Packet ι) : Packet ι :=
  let p := metadataCopyTable.apply p
  applyStage lruCacheHash .one
    (applyStage lruCacheHash .two (applyStage lruCacheHash .three (applyStage lruCacheHash .four id))) p

/-- The switch running the distinct query. -/
def switch : Lib.Pruner Header (Registers ι) := pruner parseCheetah (ingress lruCacheHash)

end Control

/-! ### One stage -/

/-- A stored half signals for a packet's half: they are equal, or the stored one has the
top bit. -/
def HalfSignals (reg half : Word) : Prop := half = reg ∨ reg &&& 0x80000000 = 0x80000000

instance (reg half : Word) : Decidable (HalfSignals reg half) := inferInstanceAs (Decidable (_ ∨ _))

theorem or_and_top (reg : Word) : (reg ||| 0x80000000) &&& 0x80000000 = 0x80000000 := by
  apply BitVec.eq_of_getLsbD_eq
  intro i _
  rw [BitVec.getLsbD_and, BitVec.getLsbD_or]
  cases BitVec.getLsbD (0x80000000 : Word) i <;> simp

/-- The top bit of an output says that the stored half signals. -/
theorem lruOneLo_hi_top (s : Stage) (f : Header × Metadata) (reg : Word) :
    (lruOneLo s).hi f reg &&& 0x80000000 = 0x80000000 ↔ HalfSignals reg f.1.valueLo := by
  by_cases h : f.1.valueLo = reg
  · simp [StatefulAlu.hi, StatefulAlu.holds, lruOneLo, diff_eq_zero, h, HalfSignals]
    exact or_and_top reg
  · simp [StatefulAlu.hi, StatefulAlu.holds, lruOneLo, diff_eq_zero, h, HalfSignals]

theorem lruOneHi_hi_top (s : Stage) (f : Header × Metadata) (reg : Word) :
    (lruOneHi s).hi f reg &&& 0x80000000 = 0x80000000 ↔ HalfSignals reg f.1.valueHi := by
  by_cases h : f.1.valueHi = reg
  · simp [StatefulAlu.hi, StatefulAlu.holds, lruOneHi, diff_eq_zero, h, HalfSignals]
    exact or_and_top reg
  · simp [StatefulAlu.hi, StatefulAlu.holds, lruOneHi, diff_eq_zero, h, HalfSignals]

section Run
variable {ι : Type} [DecidableEq ι] (lruCacheHash : Word → Word → ι)

/-- Both halves that a stage holds at the packet's slot signal. -/
def Signals (cells : Cells ι) (h : Header) : Prop :=
  HalfSignals (cells.lo (slot lruCacheHash h)) h.valueLo ∧
    HalfSignals (cells.hi (slot lruCacheHash h)) h.valueHi

instance (cells : Cells ι) (h : Header) : Decidable (Signals lruCacheHash cells h) :=
  inferInstanceAs (Decidable (_ ∧ _))

/-- The pair of halves a stage holds at a slot. -/
def held (r : Registers ι) (s : Stage) (i : ι) : Word × Word := ((r s).hi i, (r s).lo i)

/-- The pair of halves in an instance. -/
def given (p : Packet ι) (m : Instance) : Word × Word :=
  ((p.md m).replaceValueHi, (p.md m).replaceValueLo)

/-- What a stage hands on: the pair it held, a half that is the packet's with the top bit. -/
def handOn (h : Header) (old : Word × Word) : Word × Word :=
  (if h.valueHi = old.1 then old.1 ||| 0x80000000 else old.1,
    if h.valueLo = old.2 then old.2 ||| 0x80000000 else old.2)

theorem lruOneLo_hi (s : Stage) (f : Header × Metadata) (reg : Word) :
    (lruOneLo s).hi f reg = if f.1.valueLo = reg then reg ||| 0x80000000 else reg := by
  by_cases h : f.1.valueLo = reg <;>
    simp [StatefulAlu.hi, StatefulAlu.holds, lruOneLo, diff_eq_zero, h]

theorem lruOneHi_hi (s : Stage) (f : Header × Metadata) (reg : Word) :
    (lruOneHi s).hi f reg = if f.1.valueHi = reg then reg ||| 0x80000000 else reg := by
  by_cases h : f.1.valueHi = reg <;>
    simp [StatefulAlu.hi, StatefulAlu.holds, lruOneHi, diff_eq_zero, h]

theorem lruCacheLo_apply (s : Stage) (p : Packet ι) (hflow : p.hdr.flowId = 1) :
    (lruCacheLo lruCacheHash s).apply p = lruActionLo lruCacheHash s p := by
  rw [lruCacheLo, Table.apply_install_one]
  exact if_pos hflow

theorem lruCacheHi_apply (s : Stage) (p : Packet ι) (hflow : p.hdr.flowId = 1) :
    (lruCacheHi lruCacheHash s).apply p = lruActionHi lruCacheHash s p := by
  rw [lruCacheHi, Table.apply_install_one]
  exact if_pos hflow

/-- The tables of a stage have no rule for other flows. -/
theorem lruCacheLo_miss (s : Stage) (p : Packet ι) (hflow : p.hdr.flowId ≠ 1) :
    (lruCacheLo lruCacheHash s).apply p = p := by
  rw [lruCacheLo, Table.apply_install_one]
  exact if_neg hflow

theorem lruCacheHi_miss (s : Stage) (p : Packet ι) (hflow : p.hdr.flowId ≠ 1) :
    (lruCacheHi lruCacheHash s).apply p = p := by
  rw [lruCacheHi, Table.apply_install_one]
  exact if_neg hflow

omit [DecidableEq ι] in
theorem pruneTable_apply (s : Stage) (p : Packet ι) : (pruneTable s).apply p = p.drop := by
  cases s
  case one | two => rw [pruneTable, Table.apply_install_one, ite_self]
  case three | four => rfl

omit [DecidableEq ι] in
theorem metadataCopyTable_apply (p : Packet ι) : metadataCopyTable.apply p = copyToMetadataAction p := by
  rw [metadataCopyTable, Table.apply_install_one, ite_self]

/-- **One stage** on a flow-1 packet: it takes the pair it is given, hands on the one it
held and prunes when both halves of that signal. -/
theorem applyStage_eq (s : Stage) (otherwise : Packet ι → Packet ι) (p : Packet ι)
    (hflow : p.hdr.flowId = 1) :
    ∃ p' : Packet ι, p'.hdr = p.hdr ∧ p'.dropped = p.dropped ∧
      (∀ t, t ≠ s → p'.regs t = p.regs t) ∧
      (∀ i, held p'.regs s i =
        if i = slot lruCacheHash p.hdr then given p s.source else held p.regs s i) ∧
      (∀ m, given p' m =
        if m = s.dest then handOn p.hdr (held p.regs s (slot lruCacheHash p.hdr)) else given p m) ∧
      applyStage lruCacheHash s otherwise p =
        if Signals lruCacheHash (p.regs s) p.hdr then p'.drop else otherwise p' := by
  refine ⟨lruActionHi lruCacheHash s (lruActionLo lruCacheHash s p), rfl, rfl, ?_, ?_, ?_, ?_⟩
  · intro t ht
    simp [lruActionHi, lruActionLo, ht]
  · intro i
    -- the low half's output does not touch the high half the stage still has to take
    have hgiven : (Function.update p.md s.dest {p.md s.dest with
        replaceValueLo := (lruOneLo s).hi (p.hdr, p.md) ((p.regs s).lo (slot lruCacheHash p.hdr))}
        s.source).replaceValueHi = (p.md s.source).replaceValueHi := by
      by_cases hm : s.source = s.dest
      · rw [hm, Function.update_self]
      · rw [Function.update_of_ne hm]
    have hlo : ∀ f reg, (lruOneLo s).lo f reg = (f.2 s.source).replaceValueLo := fun _ _ => rfl
    have hhi : ∀ f reg, (lruOneHi s).lo f reg = (f.2 s.source).replaceValueHi := fun _ _ => rfl
    simp only [held, given, lruActionHi, lruActionLo, Function.update_self, hlo, hhi, hgiven]
    by_cases hi : i = slot lruCacheHash p.hdr
    · simp [hi]
    · simp [hi]
  · intro m
    by_cases hm : m = s.dest
    · simp only [given, held, handOn, lruActionHi, lruActionLo, hm, if_pos, Function.update_self]
      exact Prod.ext (lruOneHi_hi s _ _) (lruOneLo_hi s _ _)
    · simp [given, lruActionHi, lruActionLo, hm]
  · have hmarked : Marked ((lruActionHi lruCacheHash s (lruActionLo lruCacheHash s p)).md s.dest) ↔
        Signals lruCacheHash (p.regs s) p.hdr := by
      simp only [Marked, Signals, lruActionHi, lruActionLo, Function.update_self, lruOneLo_hi_top,
        lruOneHi_hi_top]
    rw [applyStage, lruCacheLo_apply lruCacheHash s p hflow,
      lruCacheHi_apply lruCacheHash s (lruActionLo lruCacheHash s p) hflow]
    simp only [pruneTable_apply, hmarked]

/-- A sequence of stages drops a packet when one of them signals: a stage still holds
what it held when the packet came. -/
theorem foldr_applyStage_dropped (stages : List Stage) (hnodup : stages.Nodup) (p : Packet ι)
    (hflow : p.hdr.flowId = 1) (hd : p.dropped = false) :
    (stages.foldr (applyStage lruCacheHash) id p).dropped = true ↔
      ∃ s ∈ stages, Signals lruCacheHash (p.regs s) p.hdr := by
  induction stages generalizing p with
  | nil => simp [hd]
  | cons s rest ih =>
    obtain ⟨hs, hrest⟩ := List.nodup_cons.mp hnodup
    obtain ⟨p', hhdr, hdropped, hregs, -, -, heq⟩ :=
      applyStage_eq lruCacheHash s (rest.foldr (applyStage lruCacheHash) id) p hflow
    rw [List.foldr_cons, heq]
    by_cases hsig : Signals lruCacheHash (p.regs s) p.hdr
    · rw [if_pos hsig]
      exact iff_of_true rfl ⟨s, List.mem_cons_self .., hsig⟩
    · rw [if_neg hsig, ih hrest p' (by rw [hhdr]; exact hflow) (hdropped.trans hd), hhdr]
      constructor
      · intro hsome
        obtain ⟨t, ht, hsig'⟩ := hsome
        rw [hregs t (ne_of_mem_of_not_mem ht hs)] at hsig'
        exact ⟨t, List.mem_cons_of_mem s ht, hsig'⟩
      · intro hsome
        obtain ⟨t, ht, hsig'⟩ := hsome
        rcases List.mem_cons.mp ht with rfl | ht
        · exact absurd hsig' hsig
        · refine ⟨t, ht, ?_⟩
          rwa [hregs t (ne_of_mem_of_not_mem ht hs)]

theorem ingress_eq (p : Packet ι) : ingress lruCacheHash p = [Stage.one, .two, .three, .four].foldr
    (applyStage lruCacheHash) id (metadataCopyTable.apply p) := rfl

/-- **When a packet is pruned**: some stage held, at its slot, two halves that signal. -/
theorem switch_drops (r : Registers ι) (h : Header) (hflow : h.flowId = 1) :
    (switch lruCacheHash).drops r h = true ↔ ∃ s, Signals lruCacheHash (r s) h := by
  simp only [switch, pruner_drops, ingress_eq, metadataCopyTable_apply]
  rw [foldr_applyStage_dropped lruCacheHash _ (by decide) _ hflow rfl]
  constructor
  · intro hsome
    obtain ⟨s, _, hs⟩ := hsome
    exact ⟨s, hs⟩
  · intro hsome
    obtain ⟨s, hs⟩ := hsome
    exact ⟨s, by cases s <;> simp, hs⟩

end Run
end Cheetah.DataPlane.Distinct
