import Cheetah.Host.DatasetLoad
import Cheetah.Lib.Decimal

/-! A dataset that is written and loaded.

`datasetText` is the file of a dataset in the TPCH format, one line a row. What
`cheetah_memory_sim_create` loads from it are the rows it was written from, as long as they
are numbers of an `int` and fit the arrays. -/
namespace Cheetah.Host.DatasetLoad
open Lib Lib.Scanf

/-- A flow id and a key. -/
abbrev TextRow := Int × Int

/-- The line of a row. -/
def rowText (row : TextRow) : List Byte := printInt row.1 ++ comma :: printInt row.2

/-- The file of some rows. -/
def datasetText (rows : List TextRow) : List Byte := rows.flatMap fun row => rowText row ++ [newline]

/-- A number an `int` holds. -/
def IsCInt (v : Int) : Prop := -2 ^ 31 ≤ v ∧ v < 2 ^ 31

instance (v : Int) : Decidable (IsCInt v) := inferInstanceAs (Decidable (_ ∧ _))

section Text
variable {row : TextRow} {rows : List TextRow}

theorem newline_not_mem_rowText (row : TextRow) : newline ∉ rowText row := by
  intro h
  rcases List.mem_append.mp h with h | h
  · exact (isInt_printInt row.1).newline_not_mem h
  · rcases List.mem_cons.mp h with h | h
    · exact absurd h (by decide)
    · exact (isInt_printInt row.2).newline_not_mem h

theorem lines_datasetText (rows : List TextRow) : lines (datasetText rows) = rows.map rowText ++ [[]] := by
  induction rows with
  | nil => rfl
  | cons row rest ih =>
    have hsplit : datasetText (row :: rest) = rowText row ++ newline :: datasetText rest := by
      rw [datasetText, List.flatMap_cons, List.append_assoc]
      rfl
    rw [hsplit, lines_append_newline (newline_not_mem_rowText row), ih]
    rfl

/-- The integers of a line are those it was written from. -/
theorem lineItems_rowText (row : TextRow) :
    lineItems (rowText row) = some (printInt row.1, printInt row.2) := by
  refine lineItems_eq_some_iff_matches.mpr
    ⟨isInt_printInt _, isInt_printInt _, [], [], [], nofun, nofun, nofun, ?_⟩
  rw [rowText, List.nil_append, List.nil_append, List.append_nil]

theorem rowTexts_datasetText (rows : List TextRow) :
    rowTexts (datasetText rows) = rows.map fun row => (printInt row.1, printInt row.2) := by
  rw [rowTexts, lines_datasetText, List.filterMap_append, List.filterMap_map]
  have hlast : List.filterMap lineItems [[]] = [] := rfl
  rw [hlast, List.append_nil, ← List.filterMap_eq_map]
  exact List.filterMap_congr fun row _ => lineItems_rowText row

theorem wellFormed_datasetText (rows : List TextRow) : WellFormed (datasetText rows) := by
  intro l hl
  rw [lines_datasetText] at hl
  rcases List.mem_append.mp hl with hl | hl
  · obtain ⟨row, _, rfl⟩ := List.mem_map.mp hl
    rw [lineItems_rowText]
    exact .inr rfl
  · rw [List.mem_singleton.mp hl]
    exact .inl rfl

/-- The row that is loaded for row `k` of a dataset. -/
def loadedRow (k : Nat) (row : TextRow) : LoadedRow :=
  ⟨BitVec.ofNat 32 k, BitVec.ofInt 16 row.1, BitVec.ofInt 32 row.2⟩

/-- The cast to `cheetah_header_field_small_t` keeps a number up to a multiple of 2^16. -/
theorem setWidth_ofInt (v : Int) : (BitVec.ofInt 32 v).setWidth 16 = BitVec.ofInt 16 v := by
  apply BitVec.eq_of_toNat_eq
  rw [BitVec.toNat_setWidth, BitVec.toNat_ofInt, BitVec.toNat_ofInt]
  omega

theorem fileRows_datasetText (rows : List TextRow) :
    fileRows toInt32 (datasetText rows) = rows.mapIdx loadedRow := by
  rw [fileRows, rowTexts_datasetText]
  refine List.ext_getElem (by simp) fun k hk _ => ?_
  simp only [List.getElem_mapIdx, List.getElem_map, loadedRow, toInt32, decimal_printInt, setWidth_ofInt]

/-- **Written and loaded.** Whatever `flow_id` and `key` held before, the loop ends on the
file of a dataset that fits, and the arrays hold its rows in order, one index each: their
numbers, their keys, and their flow ids up to multiples of 2^16. -/
theorem dataset_round_trip (flowId key : BitVec 32) {size : Nat} (hsize : rows.length ≤ size)
    (hcount : rows.length < 2 ^ 32) (hint : ∀ row ∈ rows, IsCInt row.1 ∧ IsCInt row.2) :
    ∃ turns s, loop toInt32 turns (start size flowId key (datasetText rows)) = .ended s ∧
      s.entryCount = rows.length ∧
      ∀ k row, rows[k]? = some row → ∃ loaded, s.row k = some loaded ∧ loaded.rowId.toNat = k ∧
        loaded.flowId = BitVec.ofInt 16 row.1 ∧ loaded.key.toInt = row.2 := by
  have hlength : (rowTexts (datasetText rows)).length = rows.length := by
    rw [rowTexts_datasetText, List.length_map]
  have hnone : (start size flowId key (datasetText rows)).loaded.length = 0 := rfl
  obtain ⟨turns, s, hrun, hs, hloaded⟩ := loop_wellFormed toInt32
    (holding_start size flowId key (datasetText rows)) (wellFormed_datasetText rows)
    (by rw [hnone, Nat.zero_add]; exact hlength.trans_le hsize)
    (by rw [hnone, Nat.zero_add]; exact hlength.trans_lt hcount)
  have hall : s.loaded = rows.mapIdx loadedRow := by
    rw [← fileRows_datasetText, ← numbered_zero]
    exact hloaded
  have hentries : s.entryCount = rows.length := by
    rw [Loading.entryCount, hs.count, hall, List.length_mapIdx]
  refine ⟨turns, s, hrun, hentries, fun k row hk => ?_⟩
  obtain ⟨hlt, rfl⟩ := List.getElem?_eq_some_iff.mp hk
  have hrow := congrArg (fun l => l[k]?) hs.rows_eq
  simp only [List.getElem?_map, List.getElem?_range (hentries.symm ▸ hlt), hall, List.getElem?_mapIdx,
    List.getElem?_eq_getElem hlt, Option.map_some, Option.some.injEq] at hrow
  obtain ⟨_, hlow, hhigh⟩ := hint _ (List.getElem_mem hlt)
  refine ⟨_, hrow, ?_, rfl, ?_⟩
  · rw [loadedRow, BitVec.toNat_ofNat]
    exact Nat.mod_eq_of_lt (Nat.lt_trans hlt hcount)
  · rw [loadedRow, BitVec.toInt_ofInt, Int.bmod_eq_of_le (by omega) (by omega)]

end Text

/-- A negative key, and a flow id behind 2^16. -/
theorem dataset_round_trip_two :
    ∃ turns s, loop toInt32 turns (start 4 0 0 (datasetText [(65537, -1), (2, 30)])) = .ended s ∧
      s.entryCount = 2 ∧
      ∀ k row, ([(65537, -1), (2, 30)] : List TextRow)[k]? = some row → ∃ loaded, s.row k = some loaded ∧
        loaded.rowId.toNat = k ∧ loaded.flowId = BitVec.ofInt 16 row.1 ∧ loaded.key.toInt = row.2 :=
  dataset_round_trip 0 0 (by decide) (by decide) (by decide)

end Cheetah.Host.DatasetLoad
