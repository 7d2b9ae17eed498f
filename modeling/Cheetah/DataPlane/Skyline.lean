import Cheetah.DataPlane.Tofino
import Cheetah.Lib.Maxima

/-! `cheetah_skyline.p4`: one stored point.

The stored point is replaced when a packet's coordinates sum to more than its own; the
sum is taken modulo 2^32, so a sum that wraps only makes a replacement less likely. A
packet that does not replace the point and lies below it in both coordinates is pruned.
`rules.md` lists no rule for this program: `rules` are the flow ids installed in every
table. -/
namespace Cheetah.DataPlane.Skyline

/-- The fields of `cheetah_t`. -/
structure Header where
  flowId : FlowId
  rowId : Word
  x : Word
  y : Word
  deriving DecidableEq, Repr

/-- The point a packet carries. -/
def Header.point (h : Header) : Word × Word := (h.x, h.y)

/-- The fields of `cheetah_md_t`. -/
structure Metadata where
  prune : BitVec 8
  replaceNext : BitVec 8
  valSum : Word
  dominatesX : BitVec 8
  dominatesY : BitVec 8

/-- `parse_cheetah`. -/
def parseCheetah (h : Header) : Metadata := ⟨0, 0, h.x, 0, 0⟩

/-- `reg_heuristic`, `reg_x` and `reg_y`, one word each. -/
structure Registers where
  heuristic : Word
  x : Word
  y : Word
  deriving DecidableEq, Repr

def Registers.zero : Registers := ⟨0, 0, 0⟩

abbrev Packet := Pipe Header Metadata Registers

/-! ### The ALUs -/

def aluHeuristic : StatefulAlu (Header × Metadata) where
  conditionLo := fun f reg => diff reg f.2.valSum < 0
  updateLo := [⟨fun lo _ => lo, fun f _ => f.2.valSum⟩]
  updateHi := [⟨fun lo _ => lo, fun _ _ => 1⟩, ⟨fun lo _ => !lo, fun _ _ => 0⟩]

/-- `alu_x` and `alu_y`, which differ in the coordinate. -/
def aluCoordinate (coordinate : Header → Word) : StatefulAlu (Header × Metadata) where
  conditionLo := fun f _ => f.2.replaceNext = 1
  conditionHi := fun f reg => diff reg (coordinate f.1) > 0
  updateLo := [⟨fun lo _ => lo, fun f _ => coordinate f.1⟩]
  updateHi := [⟨fun lo hi => hi && !lo, fun _ _ => 1⟩, ⟨fun lo hi => !hi || lo, fun _ _ => 0⟩]

def aluX : StatefulAlu (Header × Metadata) := aluCoordinate Header.x
def aluY : StatefulAlu (Header × Metadata) := aluCoordinate Header.y

/-! ### Actions, tables, control -/

def actionHeuristicPkt (p : Packet) : Packet :=
  {p with md := {p.md with valSum := p.md.valSum + p.hdr.y}}

def actionHeuristic (p : Packet) : Packet :=
  let f := (p.hdr, p.md)
  { p with
    regs := {p.regs with heuristic := aluHeuristic.lo f p.regs.heuristic}
    md := {p.md with replaceNext := (aluHeuristic.hi f p.regs.heuristic).setWidth 8} }

def actionX (p : Packet) : Packet :=
  let f := (p.hdr, p.md)
  { p with
    regs := {p.regs with x := aluX.lo f p.regs.x}
    md := {p.md with dominatesX := (aluX.hi f p.regs.x).setWidth 8} }

def actionY (p : Packet) : Packet :=
  let f := (p.hdr, p.md)
  { p with
    regs := {p.regs with y := aluY.lo f p.regs.y}
    md := {p.md with dominatesY := (aluY.hi f p.regs.y).setWidth 8} }

section Control
variable (rules : List FlowId)

/-- Every table reads the flow id and holds `rules` for its one action. -/
def table (action : Packet → Packet) : Table FlowId Packet :=
  .install (fun p => p.hdr.flowId) id (rules.map fun k => (k, action))

def tableHeuristicPkt : Table FlowId Packet := table rules actionHeuristicPkt
def tableHeuristic : Table FlowId Packet := table rules actionHeuristic
def tableX : Table FlowId Packet := table rules actionX
def tableY : Table FlowId Packet := table rules actionY
def tablePrune : Table FlowId Packet := table rules Pipe.drop

/-- `ingress` up to its `if`. -/
def applyTables (p : Packet) : Packet :=
  let p := (tableHeuristicPkt rules).apply p
  let p := (tableHeuristic rules).apply p
  let p := (tableX rules).apply p
  (tableY rules).apply p

def ingress (p : Packet) : Packet :=
  let p := applyTables rules p
  if p.md.dominatesX = 1 ∧ p.md.dominatesY = 1 then (tablePrune rules).apply p else p

/-- The switch running the skyline query. -/
def switch : Lib.Pruner Header Registers := pruner parseCheetah (ingress rules)

end Control

/-! ### One packet -/

/-- The packet's point becomes the stored one. -/
def Replaces (r : Registers) (h : Header) : Prop := r.heuristic < h.x + h.y

instance (r : Registers) (h : Header) : Decidable (Replaces r h) := inferInstanceAs (Decidable (_ < _))

theorem aluHeuristic_lo (f : Header × Metadata) (reg : Word) :
    aluHeuristic.lo f reg = if reg < f.2.valSum then f.2.valSum else reg := by
  by_cases h : reg < f.2.valSum <;>
    simp [StatefulAlu.lo, StatefulAlu.holds, aluHeuristic, diff_neg, h]

theorem aluHeuristic_hi (f : Header × Metadata) (reg : Word) :
    aluHeuristic.hi f reg = if reg < f.2.valSum then 1 else 0 := by
  by_cases h : reg < f.2.valSum <;>
    simp [StatefulAlu.hi, StatefulAlu.holds, aluHeuristic, diff_neg, h]

theorem aluCoordinate_lo (coordinate : Header → Word) (f : Header × Metadata) (reg : Word) :
    (aluCoordinate coordinate).lo f reg = if f.2.replaceNext = 1 then coordinate f.1 else reg := by
  by_cases h : f.2.replaceNext = 1#8 <;>
    simp [StatefulAlu.lo, StatefulAlu.holds, aluCoordinate, h]

/-- Replacement and pruning exclude each other. -/
theorem aluCoordinate_hi (coordinate : Header → Word) (f : Header × Metadata) (reg : Word) :
    (aluCoordinate coordinate).hi f reg =
      if coordinate f.1 < reg ∧ f.2.replaceNext ≠ 1 then 1 else 0 := by
  by_cases hr : f.2.replaceNext = 1#8 <;> by_cases hc : coordinate f.1 < reg <;>
    simp [StatefulAlu.hi, StatefulAlu.holds, aluCoordinate, diff_pos, hr, hc]

theorem table_apply {rules : List FlowId} (action : Packet → Packet) {p : Packet}
    (hit : p.hdr.flowId ∈ rules) : (table rules action).apply p = action p :=
  Table.apply_install_hit _ _ _ hit

section Run
variable {rules : List FlowId}

/-- The tables on a packet that hits: the stored point after it, and one flag for each
coordinate in which the stored point exceeds it. -/
theorem applyTables_hit (r : Registers) (h : Header) (hit : h.flowId ∈ rules) :
    applyTables rules ⟨h, parseCheetah h, r, false⟩ =
      { hdr := h
        md := ⟨0, if Replaces r h then 1 else 0, h.x + h.y,
          if h.x < r.x ∧ ¬ Replaces r h then 1 else 0, if h.y < r.y ∧ ¬ Replaces r h then 1 else 0⟩
        regs := if Replaces r h then ⟨h.x + h.y, h.x, h.y⟩ else r
        dropped := false } := by
  let start : Packet := ⟨h, parseCheetah h, r, false⟩
  have hhit : ∀ p : Packet, p.hdr = h → p.hdr.flowId ∈ rules := by
    intro p heq
    obtain rfl := heq
    exact hit
  have htables : applyTables rules start =
      actionY (actionX (actionHeuristic (actionHeuristicPkt start))) := by
    simp only [applyTables, tableHeuristicPkt, tableHeuristic, tableX, tableY]
    rw [table_apply _ (hhit start rfl), table_apply _ (hhit (actionHeuristicPkt start) rfl),
      table_apply _ (hhit (actionHeuristic (actionHeuristicPkt start)) rfl),
      table_apply _ (hhit (actionX (actionHeuristic (actionHeuristicPkt start))) rfl)]
  rw [htables]
  by_cases hr : Replaces r h
  · have hlt : r.heuristic < h.x + h.y := hr
    simp [start, actionY, actionX, actionHeuristic, actionHeuristicPkt, parseCheetah, aluX, aluY,
      aluCoordinate_lo, aluCoordinate_hi, aluHeuristic_lo, aluHeuristic_hi, hr, hlt]
  · have hlt : ¬ r.heuristic < h.x + h.y := hr
    by_cases hx : h.x < r.x <;> by_cases hy : h.y < r.y <;>
      simp [start, actionY, actionX, actionHeuristic, actionHeuristicPkt, parseCheetah, aluX, aluY,
        aluCoordinate_lo, aluCoordinate_hi, aluHeuristic_lo, aluHeuristic_hi, hr, hlt, hx, hy]

/-- What a packet that hits does: it replaces the stored point, or is pruned when the
stored point exceeds it. -/
theorem switch_hit (r : Registers) (h : Header) (hit : h.flowId ∈ rules) :
    (switch rules).step r h = (if Replaces r h then ⟨h.x + h.y, h.x, h.y⟩ else r) ∧
      ((switch rules).drops r h = true ↔ ¬ Replaces r h ∧ h.x < r.x ∧ h.y < r.y) := by
  have hflag : ∀ (c : Prop) [Decidable c], (if c then (1 : BitVec 8) else 0) = 1 ↔ c := by
    intro c _
    split <;> simp_all
  have hprune : ∀ p : Packet, p.hdr = h → (tablePrune rules).apply p = p.drop := by
    intro p heq
    obtain rfl := heq
    exact table_apply _ hit
  simp only [switch, pruner_step, pruner_drops, ingress, applyTables_hit r h hit, hflag]
  by_cases hdom : (h.x < r.x ∧ ¬ Replaces r h) ∧ h.y < r.y ∧ ¬ Replaces r h
  · rw [if_pos hdom, hprune _ rfl]
    exact ⟨rfl, iff_of_true rfl ⟨hdom.1.2, hdom.1.1, hdom.2.1⟩⟩
  · rw [if_neg hdom]
    refine ⟨rfl, iff_of_false Bool.false_ne_true ?_⟩
    intro hboth
    obtain ⟨hr, hx, hy⟩ := hboth
    exact hdom ⟨⟨hx, hr⟩, hy, hr⟩

/-! ### The invariant of a run -/

/-- The stored point is the origin or was forwarded. -/
def Stored (fwd : List Header) (r : Registers) : Prop :=
  (r.x = 0 ∧ r.y = 0) ∨ ∃ q ∈ fwd, r.x = q.x ∧ r.y = q.y

theorem Stored.mono {a b : List Header} {r : Registers} (h : Stored a r) (hab : a ⊆ b) : Stored b r := by
  rcases h with h0 | ⟨q, hq, hx, hy⟩
  · exact .inl h0
  · exact .inr ⟨q, hab hq, hx, hy⟩

/-- Strictly below in both coordinates. -/
def Below (p q : Word × Word) : Prop := p.1 < q.1 ∧ p.2 < q.2

instance : DecidableRel Below := fun _ _ => inferInstanceAs (Decidable (_ ∧ _))

instance : IsTrans (Word × Word) Below where
  trans := fun _ _ _ h h' => ⟨BitVec.lt_trans h.1 h'.1, BitVec.lt_trans h.2 h'.2⟩

/-- A packet the stored point prunes lies below a forwarded one: nothing lies below the
origin. -/
theorem below_of_dropped {fwd : List Header} {r : Registers} {h : Header} (hs : Stored fwd r)
    (hit : h.flowId ∈ rules) (hd : (switch rules).drops r h = true) :
    ∃ q ∈ fwd, Below h.point q.point := by
  obtain ⟨_, hx, hy⟩ := (switch_hit r h hit).2.mp hd
  rcases hs with ⟨hx0, _⟩ | ⟨q, hq, hqx, hqy⟩
  · rw [hx0, BitVec.lt_def] at hx
    exact absurd hx (Nat.not_lt_zero _)
  · rw [hqx] at hx
    rw [hqy] at hy
    exact ⟨q, hq, hx, hy⟩

/-- One packet: the stored point was forwarded, or is this packet, which is forwarded. -/
theorem stored_step {fwd : List Header} {r : Registers} {h : Header} (hs : Stored fwd r)
    (hit : h.flowId ∈ rules) :
    Stored (fwd ++ (if (switch rules).drops r h then [] else [h])) ((switch rules).step r h) := by
  obtain ⟨hstep, hdrops⟩ := switch_hit r h hit
  rw [hstep]
  by_cases hr : Replaces r h
  · have hkept : ¬ (switch rules).drops r h = true := fun hd => (hdrops.mp hd).1 hr
    rw [if_pos hr, if_neg hkept]
    exact .inr ⟨h, by simp, rfl, rfl⟩
  · rw [if_neg hr]
    exact hs.mono (List.subset_append_left _ _)

/-- **Any run**: the stored point is the origin or was forwarded. -/
theorem stored_run (ps : List Header) (hit : ∀ h ∈ ps, h.flowId ∈ rules) :
    Stored ((switch rules).forwarded Registers.zero ps) ((switch rules).run Registers.zero ps) :=
  (switch rules).run_rule (I := fun r _ fwd => Stored fwd r) (Q := fun h => h.flowId ∈ rules)
    (.inl ⟨rfl, rfl⟩) (fun _ _ _ _ hq hs => stored_step hs hq) ps hit

/-- A dropped packet lies below one that was forwarded before it. -/
theorem below_forwarded {pre post : List Header} {p : Header}
    (hit : ∀ h ∈ pre ++ p :: post, h.flowId ∈ rules)
    (hd : (switch rules).drops ((switch rules).run Registers.zero pre) p = true) :
    ∃ q ∈ (switch rules).forwarded Registers.zero pre, Below p.point q.point :=
  below_of_dropped (stored_run pre fun h hh => hit h (List.mem_append_left _ hh))
    (hit p (by simp)) hd

/-- So every packet of a run that was dropped lies below one that was forwarded. -/
theorem dropped_below {ps : List Header} (hit : ∀ h ∈ ps, h.flowId ∈ rules) :
    ∀ p ∈ (switch rules).dropped Registers.zero ps,
      ∃ q ∈ (switch rules).forwarded Registers.zero ps, Below p.point q.point := by
  intro p hp
  obtain ⟨pre, post, rfl, hd⟩ := ((switch rules).mem_dropped _ _ p).mp hp
  obtain ⟨q, hq, hbelow⟩ := below_forwarded hit hd
  exact ⟨q, (switch rules).forwarded_prefix_append Registers.zero pre (p :: post) hq, hbelow⟩

/-- **SKYLINE is preserved.** Whatever the coordinates and however their sums wrap, a
dropped packet lies below one forwarded before it, and the forwarded points have the
maximal points of all of them. -/
theorem skyline_preserved (rules : List FlowId) (ps : List Header) (hit : ∀ h ∈ ps, h.flowId ∈ rules) :
    (∀ pre p post, ps = pre ++ p :: post →
      (switch rules).drops ((switch rules).run Registers.zero pre) p = true →
      ∃ q ∈ (switch rules).forwarded Registers.zero pre, Below p.point q.point) ∧
    Lib.maxima Below (((switch rules).forwarded Registers.zero ps).map Header.point : Multiset _) =
      Lib.maxima Below (ps.map Header.point : Multiset _) := by
  refine ⟨?_, ?_⟩
  · intro pre p post heq hd
    obtain rfl := heq
    exact below_forwarded hit hd
  · rw [← Multiset.map_coe, ← Multiset.map_coe]
    exact (switch rules).maxima_forwarded Below Header.point Registers.zero ps (dropped_below hit)

/-- The second packet lies below the first and is dropped; the third replaces it. -/
theorem skyline_preserved_three :
    (∀ pre p post, [⟨1, 0, 5, 5⟩, ⟨1, 1, 2, 3⟩, ⟨1, 2, 4, 9⟩] = pre ++ p :: post →
      (switch [1]).drops ((switch [1]).run Registers.zero pre) p = true →
      ∃ q ∈ (switch [1]).forwarded Registers.zero pre, Below p.point q.point) ∧
    Lib.maxima Below (((switch [1]).forwarded Registers.zero
        [⟨1, 0, 5, 5⟩, ⟨1, 1, 2, 3⟩, ⟨1, 2, 4, 9⟩]).map Header.point : Multiset _) =
      Lib.maxima Below
        ([⟨1, 0, 5, 5⟩, ⟨1, 1, 2, 3⟩, ⟨1, 2, 4, 9⟩].map Header.point : Multiset _) :=
  skyline_preserved [1] [⟨1, 0, 5, 5⟩, ⟨1, 1, 2, 3⟩, ⟨1, 2, 4, 9⟩] (by decide)

end Run
end Cheetah.DataPlane.Skyline
