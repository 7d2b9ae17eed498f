import Cheetah.System.Conservation
import Cheetah.Host.WireFrames
import Mathlib.Algebra.Order.BigOperators.Group.Finset

/-! Where the rows of the datasets are.

When every port reads a packet before it is rewritten, the rows of the batches handed over
are each in one place: in a packet that is still queued, in a frame on its way, pruned,
lost, or in a row the master has gone through. -/
namespace Cheetah.System
open Lib Host Host.StreamReceiver Host.ControlFlow Host.Master

section Rows
variable {c : Config} {κ R : Type} {n : Nat} {d : Deployment c κ R n} {s : State c κ R n}

/-- The rows of some frames, as the host reads them. -/
def rowsOf (c : Config) (frames : List (List Byte)) : Multiset (Option (Row c)) :=
  ((frames.map (unpackPayload c) : List (Option (Row c))) : Multiset (Option (Row c)))

/-- The rows of the batches worker `i` has handed over. -/
def handed (d : Deployment c κ R n) (s : State c κ R n) (i : Fin n) : List (Row c) :=
  (d.sim i).rows.take (batchSize * (s.worker i).batch)

/-- The rows of the packets that worker `i`'s port has not read. -/
def queued (c : Config) (w : InFlight.State) : Multiset (Option (Row c)) :=
  (((InFlight.view c w).queue.map (InFlight.view c w).cells : List (Option (Row c))) :
    Multiset (Option (Row c)))

theorem rowsOf_append (a b : List (List Byte)) : rowsOf c (a ++ b) = rowsOf c a + rowsOf c b := by
  rw [rowsOf, List.map_append, ← Multiset.coe_add, rowsOf, rowsOf]

theorem rowsOf_eq_map (frames : List (List Byte)) :
    rowsOf c frames = (frames : Multiset (List Byte)).map (unpackPayload c) := rfl

theorem coe_allRows (d : Deployment c κ R n) : (allRows d : Multiset (Row c)) =
    ∑ i, (((d.sim i).rows.take (batchSize * ((d.sim i).entryCount / batchSize)) : List (Row c)) :
      Multiset (Row c)) := by
  rw [allRows, ← Multiset.coe_bind, Finset.sum_eq_multiset_sum, Multiset.bind, Multiset.join]
  rfl

theorem mem_allRows {i : Fin n} {row : Row c} (h : row ∈ InFlight.wholeRows (d.sim i)) : row ∈ allRows d :=
  List.mem_flatMap.mpr ⟨i, List.mem_finRange i, h⟩

variable [DecidableEq κ]

theorem handed_eq (hc : c.unpackedBits = c.valueBits) (hs : (system d InFlight.Clear).Reached s) (i : Fin n) :
    (((handed d s i).map some : List (Option (Row c))) : Multiset (Option (Row c))) =
      rowsOf c (s.worker i).wire + queued c (s.worker i) := by
  rw [handed, ← InFlight.clear_delivered hc (reached_worker hs i), SharedQueue.delivered, ← Multiset.coe_add]
  rfl

/-- A frame that a worker's port has sent is one of the worker's rows. -/
theorem mem_handed (hc : c.unpackedBits = c.valueBits) (hs : (system d InFlight.Clear).Reached s)
    {i : Fin n} {frame : List Byte} (h : frame ∈ (s.worker i).wire) :
    ∃ row ∈ handed d s i, unpackPayload c frame = some row := by
  have hmem : unpackPayload c frame ∈ rowsOf c (s.worker i).wire + queued c (s.worker i) :=
    Multiset.mem_add.mpr (.inl (List.mem_map.mpr ⟨frame, h, rfl⟩))
  rw [← handed_eq hc hs] at hmem
  obtain ⟨row, hrow, heq⟩ := List.mem_map.mp hmem
  exact ⟨row, hrow, heq.symm⟩

/-- So is every frame there ever was. -/
theorem mem_wires (hc : c.unpackedBits = c.valueBits) (hs : (system d InFlight.Clear).Reached s)
    {frame : List Byte} (h : frame ∈ s.wires) :
    ∃ i, ∃ row ∈ handed d s i, unpackPayload c frame = some row := by
  obtain ⟨i, _, hi⟩ := Multiset.mem_sum.mp h
  exact ⟨i, mem_handed hc hs hi⟩

/-- Every frame there ever was is whole, in any run. -/
theorem wires_whole {Q : InFlight.State → InFlight.Act → Prop} (hc : c.unpackedBits = c.valueBits)
    (hs : (system d Q).Reached s) {frame : List Byte} (h : frame ∈ s.wires) :
    ∃ i, InFlight.Whole (d.state i) (d.sim i) frame := by
  obtain ⟨i, _, hi⟩ := Multiset.mem_sum.mp h
  exact ⟨i, (InFlight.reached_framed hc (reached_worker hs i)).wire frame hi⟩

/-- What the master has received has come out of the switch. -/
theorem received_forwarded (h : Inv d s) {frame : List Byte} (hframe : frame ∈ received s.bursts) :
    frame ∈ d.switch.forwarded d.registers s.read := by
  have hmem : frame ∈ (d.switch.forwarded d.registers s.read : Multiset (List Byte)) := by
    rw [h.forwarded]
    exact Multiset.mem_add.mpr (.inl (Multiset.mem_add.mpr (.inl hframe)))
  exact hmem

/-- So it was sent by a worker. -/
theorem received_subset (h : Inv d s) {frame : List Byte} (hframe : frame ∈ received s.bursts) :
    frame ∈ s.wires := by
  rw [h.wires]
  exact Multiset.mem_add.mpr
    (.inr (d.switch.forwarded_subset d.registers s.read (received_forwarded h hframe)))

/-- So was what is on its way to it. -/
theorem downstream_subset (h : Inv d s) {frame : List Byte} (hframe : frame ∈ s.downstream) :
    frame ∈ s.wires := by
  rw [h.wires]
  refine Multiset.mem_add.mpr (.inr (d.switch.forwarded_subset d.registers s.read ?_))
  have hmem : frame ∈ (d.switch.forwarded d.registers s.read : Multiset (List Byte)) := by
    rw [h.forwarded]
    exact Multiset.mem_add.mpr (.inr hframe)
  exact hmem

/-- The master has gone through the rows of the frames it has received. -/
theorem rowsOf_received (hc : c.unpackedBits = c.valueBits) (hs : (system d InFlight.Clear).Reached s) :
    rowsOf c (received s.bursts) =
      (((rowsIn c s.bursts.flatten).map some : List (Option (Row c))) : Multiset (Option (Row c))) := by
  rw [← map_rowsIn, rowsOf, received, List.map_map]
  refine congrArg _ (List.map_congr_left fun mbuf hm => ?_)
  obtain ⟨_, row, _, hrow⟩ := mem_wires hc hs
    (received_subset (reached_inv hs) (List.mem_map.mpr ⟨mbuf, hm, rfl⟩))
  rw [Function.comp_apply, hrow, drop_buf, unpackPayload_append hrow]

/-- **No row is lost track of.** The rows handed over by all workers are, one by one, those
still queued, those in frames before and behind the switch, those it pruned, those that
got lost, and those the master has gone through. -/
theorem rows_conserved (hc : c.unpackedBits = c.valueBits) (hs : (system d InFlight.Clear).Reached s) :
    ∑ i, (((handed d s i).map some : List (Option (Row c))) : Multiset (Option (Row c))) =
      ∑ i, queued c (s.worker i) + rowsOf c s.upstream +
        rowsOf c (d.switch.dropped d.registers s.read) + rowsOf c s.downstream +
        rowsOf c (s.lostUp ++ s.lostDown) +
        (((rowsIn c s.bursts.flatten).map some : List (Option (Row c))) : Multiset (Option (Row c))) := by
  have hinv := reached_inv hs
  have hwires : ∑ i, rowsOf c (s.worker i).wire = s.wires.map (unpackPayload c) := by
    rw [State.wires, ← Multiset.coe_mapAddMonoidHom, map_sum]
    rfl
  have hread : rowsOf c s.read = rowsOf c (received s.bursts) + rowsOf c s.lostDown + rowsOf c s.downstream +
      rowsOf c (d.switch.dropped d.registers s.read) := by
    rw [rowsOf_eq_map, d.switch.split d.registers s.read, hinv.forwarded, Multiset.map_add,
      Multiset.map_add, Multiset.map_add]
    rfl
  rw [Finset.sum_congr rfl fun i _ => handed_eq hc hs i, Finset.sum_add_distrib, hwires, hinv.wires,
    Multiset.map_add, Multiset.map_add, ← rowsOf_eq_map, ← rowsOf_eq_map, ← rowsOf_eq_map, hread,
    rowsOf_append, ← rowsOf_received hc hs]
  abel

/-- The rows handed over are some of all rows. -/
theorem sum_handed_le {Q : InFlight.State → InFlight.Act → Prop} (hs : (system d Q).Reached s) :
    ∑ i, ((handed d s i : List (Row c)) : Multiset (Row c)) ≤ (allRows d : Multiset (Row c)) := by
  rw [coe_allRows]
  refine Finset.sum_le_sum fun i _ => Multiset.coe_le.mpr (List.Sublist.subperm ?_)
  exact List.take_sublist_take_left (Nat.mul_le_mul_left _ (reached_batch_le (reached_worker hs i)))

/-- What the ports have sent are some of all rows. -/
theorem wires_le (hc : c.unpackedBits = c.valueBits) (hs : (system d InFlight.Clear).Reached s) :
    s.wires.map (unpackPayload c) ≤ (allRows d : Multiset (Row c)).map some := by
  refine le_trans ?_ (Multiset.map_le_map (sum_handed_le hs))
  rw [State.wires, ← Multiset.coe_mapAddMonoidHom, ← Multiset.coe_mapAddMonoidHom, map_sum, map_sum]
  simp only [Multiset.coe_mapAddMonoidHom, Multiset.map_coe]
  refine Finset.sum_le_sum fun i _ => ?_
  rw [handed_eq hc hs i]
  exact Multiset.le_add_right _ _

/-- What the master has gone through and what is on its way are different rows. -/
theorem downstream_le (hc : c.unpackedBits = c.valueBits) (hs : (system d InFlight.Clear).Reached s) :
    rowsOf c s.downstream +
        (((rowsIn c s.bursts.flatten).map some : List (Option (Row c))) : Multiset (Option (Row c))) ≤
      (allRows d : Multiset (Row c)).map some := by
  refine le_trans ?_ (Multiset.map_le_map (sum_handed_le hs))
  rw [← Multiset.coe_mapAddMonoidHom, map_sum]
  simp only [Multiset.coe_mapAddMonoidHom, Multiset.map_coe]
  rw [rows_conserved hc hs]
  refine add_le_add ?_ le_rfl
  refine le_trans ?_ (Multiset.le_add_right _ _)
  exact Multiset.le_add_left _ _

/-- Once everything is with the ports and read by them, the wires carry all rows. -/
theorem wires_rows (hc : c.unpackedBits = c.valueBits) (hs : (system d InFlight.Clear).Reached s)
    (hall : ∀ i, HandedOver d s i) (hqueue : ∀ i, (s.worker i).queue = []) :
    s.wires.map (unpackPayload c) = (allRows d : Multiset (Row c)).map some := by
  have hwire : ∀ i, rowsOf c (s.worker i).wire =
      ((((d.sim i).rows.take (batchSize * ((d.sim i).entryCount / batchSize)) : List (Row c)) :
        Multiset (Row c)).map some) := by
    intro i
    have hqueued : queued c (s.worker i) = 0 := by
      rw [queued, InFlight.view, hqueue i]
      rfl
    rw [← add_zero (rowsOf c _), ← hqueued, ← handed_eq hc hs, handed, hall i, Multiset.map_coe]
  rw [coe_allRows, State.wires, ← Multiset.coe_mapAddMonoidHom, ← Multiset.coe_mapAddMonoidHom, map_sum, map_sum]
  exact Finset.sum_congr rfl fun i _ => hwire i

/-- The master goes through no row twice, and through none that no worker sent. -/
theorem rowsIn_le (hc : c.unpackedBits = c.valueBits) (hs : (system d InFlight.Clear).Reached s) :
    ((rowsIn c s.bursts.flatten : List (Row c)) : Multiset (Row c)) ≤
      ∑ i, ((handed d s i : List (Row c)) : Multiset (Row c)) := by
  have hmap : (((rowsIn c s.bursts.flatten : List (Row c)) : Multiset (Row c)).map some) ≤
      (∑ i, ((handed d s i : List (Row c)) : Multiset (Row c))).map some := by
    rw [← Multiset.coe_mapAddMonoidHom, map_sum]
    simp only [Multiset.coe_mapAddMonoidHom, Multiset.map_coe]
    rw [rows_conserved hc hs]
    exact Multiset.le_add_left _ _
  exact (Multiset.map_le_map_iff (Option.some_injective _)).mp hmap

theorem rowsIn_subset (hc : c.unpackedBits = c.valueBits) (hs : (system d InFlight.Clear).Reached s) :
    rowsIn c s.bursts.flatten ⊆ allRows d :=
  fun _ hrow => Multiset.subset_of_le (le_trans (rowsIn_le hc hs) (sum_handed_le hs)) hrow

/-- The query states are what the updates of these rows leave. -/
theorem queries_eq (h : Inv d s) {queries : Queries κ} {updateCount : BitVec 64}
    (hupdates : updateRows d.format d.query (d.queries, 0) (rowsIn c s.bursts.flatten) =
      some (queries, updateCount)) :
    s.master.queries = queries :=
  (Prod.mk.inj (Option.some.inj (h.master.updates.symm.trans hupdates))).1

/-! ### Rows and frames -/

/-- Every frame that the switch has read is a row. -/
theorem read_rows (hc : c.unpackedBits = c.valueBits) (hs : (system d InFlight.Clear).Reached s) :
    ∀ frame ∈ s.read, ∃ row, unpackPayload c frame = some row := by
  intro frame hframe
  have hmem : frame ∈ s.wires := by
    rw [(reached_inv hs).wires]
    exact Multiset.mem_add.mpr (.inr hframe)
  obtain ⟨_, row, _, hrow⟩ := mem_wires hc hs hmem
  exact ⟨row, hrow⟩

/-- Once everything has arrived, the master has received what came out of the switch. -/
theorem forwarded_of_drained (h : Inv d s) (hdrained : Drained d s) :
    (d.switch.forwarded d.registers s.read : Multiset (List Byte)) = received s.bursts := by
  rw [h.forwarded, hdrained.lostDown, hdrained.downstream, Multiset.coe_nil, add_zero, add_zero]

/-- The rows the master has gone through are those of the frames it has received. -/
theorem mem_rowsIn (hc : c.unpackedBits = c.valueBits) (hs : (system d InFlight.Clear).Reached s) (row : Row c) :
    row ∈ rowsIn c s.bursts.flatten ↔ ∃ frame ∈ received s.bursts, unpackPayload c frame = some row := by
  rw [← List.mem_map_of_injective (Option.some_injective _), ← Multiset.mem_coe, ← rowsOf_received hc hs]
  exact List.mem_map

section Headers
variable {P : Type} {header : List Byte → Option P} {headerOf : Row c → P}

/-- The headers of frames that are rows are those of the rows. -/
theorem filterMap_header {frames : List (List Byte)}
    (hframes : ∀ frame ∈ frames, ∃ row, unpackPayload c frame = some row)
    (hheader : ∀ frame ∈ frames, ∀ row, unpackPayload c frame = some row → header frame = some (headerOf row)) :
    frames.filterMap header = (frames.map (unpackPayload c)).filterMap (Option.map headerOf) := by
  rw [List.filterMap_map]
  refine List.filterMap_congr fun frame hframe => ?_
  obtain ⟨row, hrow⟩ := hframes frame hframe
  rw [Function.comp_apply, hrow, Option.map_some, hheader frame hframe row hrow]

theorem coe_headers {frames : List (List Byte)}
    (hframes : ∀ frame ∈ frames, ∃ row, unpackPayload c frame = some row)
    (hheader : ∀ frame ∈ frames, ∀ row, unpackPayload c frame = some row → header frame = some (headerOf row)) :
    ((frames.filterMap header : List P) : Multiset P) = (rowsOf c frames).filterMap (Option.map headerOf) := by
  rw [filterMap_header hframes hheader, ← Multiset.filterMap_coe]
  rfl

theorem filterMap_map_some (rows : Multiset (Row c)) :
    (rows.map some).filterMap (Option.map headerOf) = rows.map headerOf := by
  rw [Multiset.filterMap_map, ← Multiset.filterMap_eq_map]
  rfl

/-- The headers that the switch has read are those of some of all rows. -/
theorem read_headers_le (hc : c.unpackedBits = c.valueBits) (hs : (system d InFlight.Clear).Reached s)
    (hheader : ∀ frame ∈ s.wires, ∀ row, unpackPayload c frame = some row → header frame = some (headerOf row)) :
    ((s.read.filterMap header : List P) : Multiset P) ≤ (allRows d : Multiset (Row c)).map headerOf := by
  have hwires : (s.read : Multiset (List Byte)) ≤ s.wires := by
    rw [(reached_inv hs).wires]
    exact Multiset.le_add_left _ _
  rw [coe_headers (read_rows hc hs) fun frame hframe => hheader frame (Multiset.mem_of_le hwires hframe),
    ← filterMap_map_some, rowsOf_eq_map]
  exact Multiset.filterMap_le_filterMap _ (le_trans (Multiset.map_le_map hwires) (wires_le hc hs))

variable (hheader : ∀ frame row, unpackPayload c frame = some row → header frame = some (headerOf row))
include hheader

/-- Once everything has arrived, the switch has read the headers of all rows. -/
theorem read_headers (hc : c.unpackedBits = c.valueBits) (hs : (system d InFlight.Clear).Reached s)
    (hdrained : Drained d s) :
    ((s.read.filterMap header : List P) : Multiset P) = (allRows d : Multiset (Row c)).map headerOf := by
  have hrows := wires_rows hc hs hdrained.handed hdrained.queue
  rw [(reached_inv hs).wires, hdrained.upstream, hdrained.lostUp, Multiset.coe_nil, zero_add, zero_add,
    ← rowsOf_eq_map] at hrows
  rw [coe_headers (read_rows hc hs) fun frame _ => hheader frame, hrows, filterMap_map_some]

/-- What came out of it are the headers of the rows that the master has gone through. -/
theorem forwarded_headers (hc : c.unpackedBits = c.valueBits) (hs : (system d InFlight.Clear).Reached s)
    (hdrained : Drained d s) :
    (((d.switch.forwarded d.registers s.read).filterMap header : List P) : Multiset P) =
      (rowsIn c s.bursts.flatten : Multiset (Row c)).map headerOf := by
  have hread := read_rows hc hs
  rw [coe_headers (fun frame hframe => hread frame (d.switch.forwarded_subset _ _ hframe)) fun frame _ =>
    hheader frame, rowsOf_eq_map, forwarded_of_drained (reached_inv hs) hdrained, ← rowsOf_eq_map,
    rowsOf_received hc hs, ← Multiset.map_coe, filterMap_map_some]

theorem mem_read_headers (hc : c.unpackedBits = c.valueBits) (hs : (system d InFlight.Clear).Reached s)
    (hdrained : Drained d s) (p : P) : p ∈ (allRows d).map headerOf ↔ p ∈ s.read.filterMap header := by
  rw [← Multiset.mem_coe, ← Multiset.map_coe, ← read_headers hheader hc hs hdrained, Multiset.mem_coe]

theorem mem_forwarded_headers (hc : c.unpackedBits = c.valueBits) (hs : (system d InFlight.Clear).Reached s)
    (hdrained : Drained d s) (p : P) : p ∈ (rowsIn c s.bursts.flatten).map headerOf ↔
      p ∈ (d.switch.forwarded d.registers s.read).filterMap header := by
  rw [← Multiset.mem_coe, ← Multiset.map_coe, ← forwarded_headers hheader hc hs hdrained, Multiset.mem_coe]

end Headers

end Rows
end Cheetah.System
