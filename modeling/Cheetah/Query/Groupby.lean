import Cheetah.DataPlane.GroupbyCoverage
import Cheetah.Host.GroupbyStore

/-! GROUP BY, from the switch to the master.

The master feeds what the switch forwards to `cheetah_aggregate_processing_groupby_update`.
A packet the switch drops is beaten by a forwarded packet with its key
(`DataPlane.Groupby.run_covers`), so the maximum of each key is forwarded. -/
namespace Cheetah.Query.Groupby
open DataPlane.Groupby Host Host.AggregateProcessing

/-- The update the master makes for a packet. -/
def call (h : Header) : Word × Word := (h.key, h.value)

/-- A maximum among the forwarded packets is one among all of them. -/
theorem isMaxOf_forwarded {fwd ps : List Header} (hsub : fwd ⊆ ps)
    (hcover : ∀ h ∈ ps, h ∈ fwd ∨ Beaten fwd h) (k v : Word) :
    IsMaxOf (fwd.map call) k v ↔ IsMaxOf (ps.map call) k v := by
  constructor
  · intro hboth
    obtain ⟨hmem, hmax⟩ := hboth
    refine ⟨List.map_subset call hsub hmem, fun w hw => ?_⟩
    obtain ⟨h, hh, hcall⟩ := List.mem_map.mp hw
    cases hcall
    rcases hcover h hh with hfwd | ⟨q, hq, hkey, hlt⟩
    · exact hmax _ (List.mem_map.mpr ⟨h, hfwd, rfl⟩)
    · have hle := hmax q.value (List.mem_map.mpr ⟨q, hq, by rw [call, hkey]⟩)
      exact BitVec.le_trans (BitVec.le_of_lt hlt) hle
  · intro hboth
    obtain ⟨hmem, hmax⟩ := hboth
    refine ⟨?_, fun w hw => hmax w (List.map_subset call hsub hw)⟩
    obtain ⟨h, hh, hcall⟩ := List.mem_map.mp hmem
    cases hcall
    rcases hcover h hh with hfwd | ⟨q, hq, hkey, hlt⟩
    · exact List.mem_map.mpr ⟨h, hfwd, rfl⟩
    · -- a packet that beats the maximum would be a packet of the stream
      have hle := hmax q.value (List.mem_map.mpr ⟨q, hsub hq, by rw [call, hkey]⟩)
      rw [BitVec.lt_def] at hlt
      rw [BitVec.le_def] at hle
      omega

/-- **GROUP BY is preserved.** Whatever the index functions and the order of the
packets, the master finds the same maximum for every key in what the switch forwards
as in the whole stream: that of the values of its packets. Those of flows without rules
pass. -/
theorem groupby_preserved {ι κ : Type} [DecidableEq ι] [DecidableEq κ] (hash : Sketch → Word → ι)
    (hc : Hcreate) (format : Word → κ) (size : Word) (ps : List Header)
    (hroom : (ps.map Header.key).eraseDups.length ≤ size.toNat) :
    ∃ all pruned : GroupbyState (Htab κ),
      groupbyRun Htab.hsearch format (groupbyInit (hc.create size.toNat) size) (ps.map call) =
        some all ∧
      groupbyRun Htab.hsearch format (groupbyInit (hc.create size.toNat) size)
        (((switch hash).forwarded Registers.zero ps).map call) = some pruned ∧
      groupbyMap pruned = groupbyMap all ∧
      ∀ k v, groupbyMap all k = some v ↔ IsMaxOf (ps.map call) k v := by
  have hsub := (switch hash).forwarded_subset Registers.zero ps
  have hcover := (run_covers hash ps).2
  have hkeys : ∀ qs : List Header, (qs.map call).map Prod.fst = qs.map Header.key :=
    fun qs => List.map_map
  have hinit := groupbyStored_init format hc size
  obtain ⟨all, hall, hstored⟩ := stored_run hinit (ps.map call)
    (by rw [List.nil_append, hkeys]; exact hroom)
  obtain ⟨pruned, hpruned, hstored'⟩ := stored_run hinit
    (((switch hash).forwarded Registers.zero ps).map call) (by
      rw [List.nil_append, hkeys]
      exact Nat.le_trans (Lib.length_eraseDups_le_of_subset (List.map_subset _ hsub)) hroom)
  refine ⟨all, pruned, hall, hpruned, ?_, hstored.map_eq_some⟩
  funext k
  apply Option.ext
  intro v
  rw [hstored.map_eq_some, hstored'.map_eq_some]
  exact isMaxOf_forwarded hsub hcover k v

/-- The smaller value of key 5 is pruned, and the maxima are those of all packets. -/
theorem groupby_preserved_three :
    ∃ all pruned : GroupbyState (Htab Word),
      groupbyRun Htab.hsearch (fun k => k % 2) (groupbyInit (Hcreate.unbounded.create 2) 2)
        ([⟨1, 0, 5, 9⟩, ⟨1, 1, 5, 3⟩, ⟨1, 2, 7, 1⟩].map call) = some all ∧
      groupbyRun Htab.hsearch (fun k => k % 2) (groupbyInit (Hcreate.unbounded.create 2) 2)
        (((switch fun _ k => k % 4).forwarded Registers.zero
          [⟨1, 0, 5, 9⟩, ⟨1, 1, 5, 3⟩, ⟨1, 2, 7, 1⟩]).map call) = some pruned ∧
      groupbyMap pruned = groupbyMap all ∧
      ∀ k v, groupbyMap all k = some v ↔
        IsMaxOf ([⟨1, 0, 5, 9⟩, ⟨1, 1, 5, 3⟩, ⟨1, 2, 7, 1⟩].map call) k v :=
  groupby_preserved (fun _ k => k % 4) Hcreate.unbounded (fun k => k % 2) 2
    [⟨1, 0, 5, 9⟩, ⟨1, 1, 5, 3⟩, ⟨1, 2, 7, 1⟩] (by decide)

end Cheetah.Query.Groupby
