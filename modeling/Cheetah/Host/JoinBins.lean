import Cheetah.Host.Join

/-! The bins of the hash join, over whole runs.

A bin is created by one call and holds its row and then the rows of the primary calls
with its key that follow. `BinsHold` says so for every bin of a state that calls lead to,
with what its array looks like. -/
namespace Cheetah.Host.Join
open Lib

/-! ### The call that creates a bin -/

section Created
variable {κ : Type} [DecidableEq κ] {format : Word → κ}

theorem hold_eq_or (format : Word → κ) (l : List (Word × Word)) (c : Call) :
    hold format l c = l ++ [(c.key, c.rowId)] ∨ hold format l c = l := by
  unfold hold
  split
  · exact .inl rfl
  · exact .inr rfl

/-- A key with a row held has a call that was the first to hold one, and its rows are that
call's and those of the primary calls after it. -/
theorem rowsOf_created {calls : List Call} {k : Word} (hk : k ∈ (held format calls).map Prod.fst) :
    ∃ pre c post, calls = pre ++ c :: post ∧ c.key = k ∧ k ∉ (held format pre).map Prod.fst ∧
      k ∈ (held format (pre ++ [c])).map Prod.fst ∧
      rowsOf (held format calls) k = c.rowId :: primaryRows post k := by
  induction calls using List.reverseRecOn with
  | nil => cases hk
  | append_singleton calls d ih =>
    have hheld : held format (calls ++ [d]) = Join.hold format (held format calls) d := held_concat calls d
    by_cases hold : k ∈ (held format calls).map Prod.fst
    · obtain ⟨pre, c, post, hsplit, hkey, hnot, hmem, hrows⟩ := ih hold
      refine ⟨pre, c, post ++ [d], by simp [hsplit], hkey, hnot, hmem, ?_⟩
      rw [primaryRows_concat, ← List.cons_append, ← hrows, hheld]
      by_cases hd : d.tbl = .primary ∧ d.key = k
      · have hadd : Join.hold format (held format calls) d = _ := hold_primary _ hd.1
        rw [hadd, rowsOf_concat, if_pos hd.2, if_pos hd]
      · rw [if_neg hd, List.append_nil]
        by_cases hdk : d.key = k
        · -- a secondary call with this key holds no row, since one is held already
          have hs : d.tbl = .secondary := by
            cases ht : d.tbl with
            | primary => exact absurd ⟨ht, hdk⟩ hd
            | secondary => rfl
          obtain ⟨e, he, hek⟩ := List.mem_map.mp hold
          rw [hold_secondary hs he (congrArg format (hek.trans hdk.symm))]
        · rcases hold_eq_or format (held format calls) d with heq | heq
          · rw [heq, rowsOf_concat, if_neg hdk, List.append_nil]
          · rw [heq]
    · have hnil : rowsOf (held format calls) k = [] :=
        rowsOf_eq_nil fun e he hek => hold (List.mem_map.mpr ⟨e, he, hek⟩)
      have hk' := hk
      rw [hheld] at hk'
      have hadd : Join.hold format (held format calls) d = held format calls ++ [(d.key, d.rowId)] := by
        rcases hold_eq_or format (held format calls) d with heq | heq
        · exact heq
        · rw [heq] at hk'
          exact absurd hk' hold
      have hdk : d.key = k := by
        rw [hadd, List.map_append, List.mem_append] at hk'
        rcases hk' with hk' | hk'
        · exact absurd hk' hold
        · exact (List.mem_singleton.mp hk').symm
      refine ⟨calls, d, [], rfl, hdk, hold, hk, ?_⟩
      rw [hheld, hadd, rowsOf_concat, if_pos hdk, hnil]
      rfl

end Created

/-! ### Runs -/

section Runs
variable {τ : Type}

/-- What the loop over a bin leaves alone: everything but the slots it writes. -/
theorem writeEntries_frame {b : HashBin} {rowId : Word} {left i : Nat} {state state' : JoinState τ}
    (h : writeEntries b rowId left i state = some state') :
    state' = { state with
        entries := state'.entries, currentEntries := state.currentEntries + left } ∧
      ∀ j, j < state.currentEntries ∨ state.currentEntries + left ≤ j →
        state'.entries[j]? = state.entries[j]? := by
  induction left generalizing i state with
  | zero =>
    obtain rfl := Option.some.inj h
    exact ⟨rfl, fun _ _ => rfl⟩
  | succ left ih =>
    rw [writeEntries] at h
    split at h
    · obtain ⟨row, _, h⟩ := Option.bind_eq_some_iff.mp h
      obtain ⟨entries, hwrite, h⟩ := Option.bind_eq_some_iff.mp h
      obtain ⟨heq, hkeep⟩ := ih h
      constructor
      · rw [heq]
        simp only [JoinState.mk.injEq, true_and, and_true]
        omega
      · intro j hj
        rw [hkeep j (by simp only; omega)]
        unfold Buffer.write at hwrite
        split at hwrite
        · obtain rfl := Option.some.inj hwrite
          exact List.getElem?_set_ne (by omega)
        · cases hwrite
    · cases h

end Runs

/-! ### The bins of a run -/

section Bins
variable {τ κ : Type}

/-- `row_ids[0 .. row_id_count)`. -/
def HashBin.rows (b : HashBin) : List (Option Word) := (List.range b.rowIdCount).map b.rowIds.read

/-- The bins after `calls` from `init`. -/
structure BinsHold (H : Hsearch τ κ) (format : Word → κ) (init : JoinState τ) (calls : List Call)
    (state : JoinState τ) : Prop where
  /-- A key has one bin at most, whether the table leads to it or not. -/
  unique : ∀ (i j : Nat) (b b' : HashBin), state.heap[i]? = some b → state.heap[j]? = some b' →
    b.key = b'.key → i = j
  /-- The table leads to every bin. -/
  found : ∀ (i : Nat) (b : HashBin), state.heap[i]? = some b → ∃ head prev,
    H.find state.htab (format b.key) = some head ∧
      walk b.key state.heap (state.heap.length + 1) (some head) none = some (some i, prev)
  /-- A key with a primary call has a bin. -/
  kept : ∀ c ∈ calls, c.tbl = .primary → ∃ b ∈ state.heap, b.key = c.key
  /-- The rows of a bin are that of the call `c` that created it and those of the primary
  calls with its key after `c`. -/
  rows : ∀ b ∈ state.heap, ∃ pre c post before after, calls = pre ++ c :: post ∧ c.key = b.key ∧
    joinRun H format init pre = some before ∧ (∀ x ∈ before.heap, x.key ≠ b.key) ∧
    joinRun H format init (pre ++ [c]) = some after ∧ (∃ x ∈ after.heap, x.key = b.key) ∧
    b.rows = (c.rowId :: primaryRows post b.key).map some
  capacity : ∀ b ∈ state.heap, (∃ m, b.rowIdCap = 1024 * 2 ^ m) ∧ b.rowIds.length = b.rowIdCap ∧
    1 ≤ b.rowIdCount ∧ b.rowIdCount ≤ b.rowIdCap
  /-- The next row of a bin has a slot below its capacity, grown if it was full. -/
  room : ∀ b ∈ state.heap, ∃ b', b.reserve = some b' ∧ b'.rowIdCount = b.rowIdCount ∧
    b'.rowIds.length = b'.rowIdCap ∧ b'.rowIdCount < b'.rowIdCap

/-- A secondary call for a bin appends the pairs of its rows and changes nothing else. -/
def AppendsPairs (state state' : JoinState τ) (b : HashBin) (rowId : Word) : Prop :=
  (∃ rows : List Word, b.rows = rows.map some ∧
    joinView state' = joinView state ++ (rows.map (JoinEntry.mk · rowId)).map some) ∧
  state' = {state with
    entries := state'.entries, currentEntries := state.currentEntries + b.rowIdCount} ∧
  ∀ j, j < state.currentEntries ∨ state.currentEntries + b.rowIdCount ≤ j →
    state'.entries[j]? = state.entries[j]?

variable [DecidableEq κ] {format : Word → κ} {calls : List Call} {init state : JoinState (Htab κ)}

theorem BinHolds.rows_eq {rows : List Word} {b : HashBin} (h : BinHolds rows b) :
    b.rows = rows.map some := by
  rw [HashBin.rows, h.count]
  exact h.holds.map_read

theorem JoinStored.found (h : JoinStored format calls state) {i : Nat} {b : HashBin}
    (hb : state.heap[i]? = some b) : ∃ head prev, state.htab.find (format b.key) = some head ∧
      walk b.key state.heap (state.heap.length + 1) (some head) none = some (some i, prev) := by
  have hmem : b ∈ state.heap := List.mem_of_getElem? hb
  cases hfind : state.htab.find (format b.key) with
  | none => exact absurd rfl ((h.table.lookup_eq_none_iff b.key).mp hfind b hmem)
  | some head =>
    rcases h.table.search hfind with ⟨a, x, prev, hwalk, hx, hk⟩ | ⟨_, _, _, _, _, _, hmiss⟩
    · obtain rfl := h.table.key_inj hx hb hk
      exact ⟨head, prev, rfl, hwalk⟩
    · exact absurd rfl (hmiss b hmem)

theorem JoinStored.kept (h : JoinStored format calls state) {c : Call} (hc : c ∈ calls)
    (hp : c.tbl = .primary) : ∃ b ∈ state.heap, b.key = c.key := by
  have hrow : c.rowId ∈ rowsOf (held format calls) c.key := by
    rw [rowsOf_held, List.mem_append]
    exact .inr (List.mem_map.mpr ⟨c, List.mem_filter.mpr ⟨hc, decide_eq_true ⟨hp, rfl⟩⟩, rfl⟩)
  obtain ⟨e, he, _⟩ := List.mem_map.mp hrow
  obtain ⟨he, hk⟩ := List.mem_filter.mp he
  exact (h.mem_keys c.key).mp (List.mem_map.mpr ⟨e, he, of_decide_eq_true hk⟩)

theorem JoinStored.created (h : JoinStored format calls state) {b : HashBin} (hb : b ∈ state.heap) :
    ∃ pre c post, calls = pre ++ c :: post ∧ c.key = b.key ∧
      b.key ∉ (held format pre).map Prod.fst ∧ b.key ∈ (held format (pre ++ [c])).map Prod.fst ∧
      rowsOf (held format calls) b.key = c.rowId :: primaryRows post b.key :=
  rowsOf_created ((h.mem_keys b.key).mpr ⟨b, hb, rfl⟩)

/-- The bins of a state with the invariant, given the states of the run before it. -/
theorem JoinStored.binsHold (h : JoinStored format calls state)
    (hruns : ∀ pre post, calls = pre ++ post → ∃ before,
      joinRun Htab.hsearch format init pre = some before ∧ JoinStored format pre before) :
    BinsHold Htab.hsearch format init calls state where
  unique := fun i j b b' hb hb' hk => h.table.key_inj hb hb' hk
  found := fun i b hb => h.found hb
  kept := fun c hc hp => h.kept hc hp
  rows := fun b hb => by
    obtain ⟨pre, c, post, hsplit, hkey, hnot, hmem, hrows⟩ := h.created hb
    obtain ⟨before, hrun, hbefore⟩ := hruns pre (c :: post) hsplit
    obtain ⟨after, hrun', hafter⟩ := hruns (pre ++ [c]) post (by simp [hsplit])
    refine ⟨pre, c, post, _, _, hsplit, hkey, hrun, fun x hx hk => ?_, hrun',
      (hafter.mem_keys b.key).mp hmem, ?_⟩
    · exact hnot ((hbefore.mem_keys b.key).mpr ⟨x, hx, hk⟩)
    · rw [← hrows]
      exact (h.rows b hb).rows_eq
  capacity := fun b hb => by
    obtain ⟨_, _, _, _, _, _, _, hrows⟩ := h.created hb
    have hholds := h.rows b hb
    refine ⟨hholds.cap, hholds.length, ?_, ?_⟩
    · rw [hholds.count, hrows]
      exact Nat.succ_pos _
    · rw [hholds.count]
      exact hholds.length_le
  room := fun b hb => by
    obtain ⟨b', hreserve, _, _, hholds, hlt⟩ := reserve_eq (h.rows b hb)
    refine ⟨b', hreserve, hholds.count.trans (h.rows b hb).count.symm, hholds.length, ?_⟩
    rw [hholds.count]
    exact hlt

/-- A secondary call that fits appends the pairs of the bin with its key. -/
theorem JoinStored.appendsPairs (h : JoinStored format calls state) {c : Call} (hc : c.tbl = .secondary)
    (hfits : Fits format state.htab.capacity state.size (calls ++ [c])) {b : HashBin}
    (hb : b ∈ state.heap) (hk : b.key = c.key) :
    ∃ state', joinUpdate Htab.hsearch (format c.key) state c = some state' ∧
      AppendsPairs state state' b c.rowId := by
  obtain ⟨i, hi⟩ := List.mem_iff_getElem?.mp hb
  obtain ⟨head, prev, hfind, hwalk⟩ := h.found hi
  rw [hk] at hfind hwalk
  have hrows := h.rows b hb
  rw [hk] at hrows
  have hone := joinStored_update h c
  rw [if_pos hfits] at hone
  obtain ⟨state', hupdate, hstored, _⟩ := hone
  have hloop : joinUpdate Htab.hsearch (format c.key) state c =
      writeEntries b c.rowId b.rowIdCount 0 state := by
    have hfind' : Htab.hsearch.find state.htab (format c.key) = some head := hfind
    simp [joinUpdate, hfind', hwalk, hi, hc]
  obtain ⟨hframe, hkeep⟩ := writeEntries_frame (hloop.symm.trans hupdate)
  refine ⟨state', hupdate, ⟨_, hrows.rows_eq, ?_⟩, hframe, hkeep⟩
  rw [hstored.view, h.view, produced_concat, List.map_append, emitted, hc]

/-- **The bins of the hash join.** After any calls that fit, every key has one bin at most
and every bin has the row of the call that created it followed by the rows of the primary
calls with its key, in an array of 1024 times a power of two slots with one for the next
row; a secondary call that fits appends the pairs of the bin with its key. -/
theorem join_bins (hc : Hcreate) (format : Word → κ) {size : Nat} (hsize : 0 < size) (hashSize : Nat)
    (calls : List Call) (hfits : Fits format (hc.capacity hashSize) size calls) :
    ∃ init state, joinInit (hc.create hashSize : Htab κ) size = some init ∧
      joinRun Htab.hsearch format init calls = some state ∧
      BinsHold Htab.hsearch format init calls state ∧
      ∀ c, c.tbl = .secondary → Fits format (hc.capacity hashSize) size (calls ++ [c]) →
        ∀ b ∈ state.heap, b.key = c.key → ∃ state',
          joinUpdate Htab.hsearch (format c.key) state c = some state' ∧
          AppendsPairs state state' b c.rowId := by
  obtain ⟨init, hinit, hstored, hstate, hcapacity⟩ := @joinStored_init κ _ format size hsize hc hashSize
  rw [← hstate, ← hcapacity] at hfits
  have hruns : ∀ pre post, calls = pre ++ post → ∃ state,
      joinRun Htab.hsearch format init pre = some state ∧ JoinStored format pre state ∧
        SameRoom init state := by
    intro pre post hsplit
    rw [hsplit] at hfits
    have hrun := joinStored_run hstored pre
    rwa [List.nil_append, if_pos hfits.left] at hrun
  obtain ⟨state, hrun, hlast, hsame⟩ := hruns calls [] (List.append_nil calls).symm
  refine ⟨init, state, hinit, hrun, hlast.binsHold fun pre post hsplit => ?_, fun c hs hfit b hb hk => ?_⟩
  · obtain ⟨before, hbefore, hpre, _⟩ := hruns pre post hsplit
    exact ⟨before, hbefore, hpre⟩
  · rw [← hstate, ← hcapacity, ← hsame.size, ← hsame.capacity] at hfit
    exact hlast.appendsPairs hs hfit hb hk

/-- Two primary calls and a secondary call with one key, in a table for one string. -/
theorem join_bins_duplicate :
    ∃ init state, joinInit (Hcreate.least.create 1 : Htab Word) 40000 = some init ∧
      joinRun Htab.hsearch (fun k => k) init [⟨14, 2, .primary⟩, ⟨14, 3, .primary⟩, ⟨14, 1, .secondary⟩] =
        some state ∧
      BinsHold Htab.hsearch (fun k => k) init
        [⟨14, 2, .primary⟩, ⟨14, 3, .primary⟩, ⟨14, 1, .secondary⟩] state ∧
      ∀ c, c.tbl = .secondary → Fits (fun k => k) (some 1) 40000
          ([⟨14, 2, .primary⟩, ⟨14, 3, .primary⟩, ⟨14, 1, .secondary⟩] ++ [c]) →
        ∀ b ∈ state.heap, b.key = c.key → ∃ state',
          joinUpdate Htab.hsearch c.key state c = some state' ∧ AppendsPairs state state' b c.rowId :=
  join_bins Hcreate.least (fun k => k) (by decide) 1
    [⟨14, 2, .primary⟩, ⟨14, 3, .primary⟩, ⟨14, 1, .secondary⟩]
    ⟨by decide, fun n hn => by cases hn; decide⟩

end Bins
end Cheetah.Host.Join
