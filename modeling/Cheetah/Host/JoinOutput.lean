import Cheetah.Host.Hsearch
import Cheetah.Lib.Splits

/-! What a join is given, what it should output, and what it holds on the way.

`joinOutput` is the join: each secondary call meets the primary calls with its key that
came before it. `held` are the rows the hash join of `cheetah_join.c` stores: those of
the primary calls, and the row of any call that opens a table entry, whichever table it
is from. `rowsOf_held` says how the two differ, by the row of a secondary call that
opened the entry; `produced_eq_iff` what this does to the output. -/
namespace Cheetah.Host.Join

/-- `enum cheetah_join_table`. -/
inductive JoinTable where
  | primary | secondary
  deriving DecidableEq, Repr

/-- The arguments of one `cheetah_join_update`. -/
structure Call where
  key : Word
  rowId : Word
  tbl : JoinTable
  deriving DecidableEq, Repr

/-- `struct cheetah_join_entry`. -/
structure JoinEntry where
  tbl1Row : Word
  tbl2Row : Word
  deriving DecidableEq, Repr

/-! ### Outputs -/

/-- What a call outputs when `rows` are the rows it meets. -/
def emitted (rows : List Word) (c : Call) : List JoinEntry :=
  match c.tbl with
  | .primary => []
  | .secondary => rows.map (JoinEntry.mk · c.rowId)

/-- The outputs of a run when `rows` are the rows a key meets after some calls. -/
def outputs (rows : List Call → Word → List Word) (before : List Call) : List Call → List JoinEntry
  | [] => []
  | c :: rest => emitted (rows before c.key) c ++ outputs rows (before ++ [c]) rest

theorem outputs_concat (rows : List Call → Word → List Word) (before calls : List Call) (c : Call) :
    outputs rows before (calls ++ [c]) =
      outputs rows before calls ++ emitted (rows (before ++ calls) c.key) c := by
  induction calls generalizing before with
  | nil => simp [outputs]
  | cons d rest ih => simp [outputs, ih]

/-- What an output is: the row of a secondary call with a row it met. -/
theorem mem_outputs {rows : List Call → Word → List Word} {before calls : List Call} {p s : Word} :
    ⟨p, s⟩ ∈ outputs rows before calls ↔ ∃ pre b post, calls = pre ++ b :: post ∧
      b.tbl = .secondary ∧ b.rowId = s ∧ p ∈ rows (before ++ pre) b.key := by
  induction calls using List.reverseRecOn with
  | nil => simp [outputs]
  | append_singleton calls c ih =>
    have hemit : ⟨p, s⟩ ∈ emitted (rows (before ++ calls) c.key) c ↔
        c.tbl = .secondary ∧ c.rowId = s ∧ p ∈ rows (before ++ calls) c.key := by
      unfold emitted
      cases c.tbl <;> simp [and_comm]
    rw [outputs_concat, List.mem_append, ih, hemit, Lib.exists_split_concat]

theorem emitted_append (a b : List Word) (c : Call) : emitted (a ++ b) c = emitted a c ++ emitted b c := by
  unfold emitted
  cases c.tbl
  · rfl
  · exact List.map_append

theorem emitted_eq_nil_iff (rows : List Word) (c : Call) :
    emitted rows c = [] ↔ (c.tbl = .secondary → rows = []) := by
  unfold emitted
  cases c.tbl <;> simp

section Extra
variable {rows rows' extra : List Call → Word → List Word}
  (h : ∀ pre k, rows pre k = extra pre k ++ rows' pre k)
include h

theorem length_outputs_le (before calls : List Call) :
    (outputs rows' before calls).length ≤ (outputs rows before calls).length := by
  induction calls generalizing before with
  | nil => exact Nat.le_refl _
  | cons c rest ih =>
    have hrest := ih (before ++ [c])
    simp only [outputs, h, emitted_append, List.length_append]
    omega

/-- When the rows met are longer by a prefix, the output is longer unless no secondary
call meets a prefix that is not empty. -/
theorem extra_eq_nil_of_length {before calls : List Call}
    (hlen : (outputs rows before calls).length ≤ (outputs rows' before calls).length) :
    ∀ pre b post, calls = pre ++ b :: post → b.tbl = .secondary → extra (before ++ pre) b.key = [] := by
  induction calls generalizing before with
  | nil => simp
  | cons c rest ih =>
    have hrest := length_outputs_le h (before ++ [c]) rest
    simp only [outputs, h, emitted_append, List.length_append] at hlen
    have hle : (outputs rows (before ++ [c]) rest).length ≤ (outputs rows' (before ++ [c]) rest).length := by
      omega
    intro pre b post he hb
    cases pre with
    | nil =>
      obtain ⟨rfl, rfl⟩ := List.cons.inj he
      have hnil : emitted (extra before c.key) c = [] := List.eq_nil_of_length_eq_zero (by omega)
      rw [List.append_nil]
      exact (emitted_eq_nil_iff _ c).mp hnil hb
    | cons d pre =>
      obtain ⟨rfl, rfl⟩ := List.cons.inj he
      have htail := ih hle pre b post rfl hb
      rwa [List.append_assoc, List.singleton_append] at htail

theorem outputs_congr {before calls : List Call}
    (hnil : ∀ pre b post, calls = pre ++ b :: post → b.tbl = .secondary →
      extra (before ++ pre) b.key = []) :
    outputs rows before calls = outputs rows' before calls := by
  induction calls generalizing before with
  | nil => rfl
  | cons c rest ih =>
    have hc : emitted (extra before c.key) c = [] :=
      (emitted_eq_nil_iff _ c).mpr fun hb => by simpa using hnil [] c rest rfl hb
    rw [outputs, outputs, h, emitted_append, hc, List.nil_append]
    refine congrArg _ (ih fun pre b post he hb => ?_)
    have htail := hnil (c :: pre) b post (by rw [he]; rfl) hb
    rwa [List.append_assoc, List.singleton_append]

end Extra

/-- The rows of the primary calls with a key. -/
def primaryRows (calls : List Call) (k : Word) : List Word :=
  (calls.filter fun c => c.tbl = .primary ∧ c.key = k).map Call.rowId

/-- **The join**: for each secondary call, its row with the row of every primary call
with its key that came before it. -/
def joinOutput (calls : List Call) : List JoinEntry := outputs primaryRows [] calls

/-! ### What the hash join holds -/

section Held
variable {κ : Type} [DecidableEq κ] (format : Word → κ)

/-- The rows held for a key. -/
def rowsOf (held : List (Word × Word)) (k : Word) : List Word :=
  (held.filter fun e => e.1 = k).map Prod.snd

/-- A call's row is held when it is primary, or when it opens a table entry: its string
is not in the table. -/
def hold (held : List (Word × Word)) (c : Call) : List (Word × Word) :=
  if c.tbl = .primary ∨ held.all (fun e => format e.1 ≠ format c.key) then held ++ [(c.key, c.rowId)]
  else held

/-- The keys and rows held after some calls, in the order they came. -/
def held (calls : List Call) : List (Word × Word) := calls.foldl (hold format) []

/-- What the hash join outputs. -/
def produced (calls : List Call) : List JoinEntry :=
  outputs (fun before k => rowsOf (held format before) k) [] calls

/-- The row of the call that opened the entry of a key, if that call was a secondary one
with the same key. -/
def strayRows (calls : List Call) (k : Word) : List Word :=
  match calls.find? fun c => format c.key = format k with
  | some c => if c.tbl = .secondary ∧ c.key = k then [c.rowId] else []
  | none => []

/-- No secondary call that opens a table entry is followed by a secondary call with its
key. -/
def NoStray (calls : List Call) : Prop :=
  ∀ pre a mid b post, calls = pre ++ a :: (mid ++ b :: post) → a.tbl = .secondary →
    b.tbl = .secondary → a.key = b.key → ∃ c ∈ pre, format c.key = format a.key

variable {format}

theorem held_concat (calls : List Call) (c : Call) :
    held format (calls ++ [c]) = hold format (held format calls) c := by
  rw [held, List.foldl_append]
  rfl

theorem hold_primary (l : List (Word × Word)) {c : Call} (hc : c.tbl = .primary) :
    hold format l c = l ++ [(c.key, c.rowId)] := if_pos (.inl hc)

theorem hold_opens {l : List (Word × Word)} {c : Call} (hnone : ∀ e ∈ l, format e.1 ≠ format c.key) :
    hold format l c = l ++ [(c.key, c.rowId)] := if_pos (.inr (by simpa using hnone))

theorem hold_secondary {l : List (Word × Word)} {c : Call} (hc : c.tbl = .secondary)
    {e : Word × Word} (he : e ∈ l) (hb : format e.1 = format c.key) : hold format l c = l := by
  refine if_neg ?_
  intro hor
  rcases hor with hp | hnone
  · exact absurd (hc.symm.trans hp) (by decide)
  · exact of_decide_eq_true (List.all_eq_true.mp hnone e he) hb

theorem produced_concat (calls : List Call) (c : Call) :
    produced format (calls ++ [c]) =
      produced format calls ++ emitted (rowsOf (held format calls) c.key) c := by
  rw [produced, outputs_concat]
  rfl

theorem rowsOf_concat (l : List (Word × Word)) (k r k' : Word) :
    rowsOf (l ++ [(k, r)]) k' = rowsOf l k' ++ if k = k' then [r] else [] := by
  by_cases hk : k = k' <;> simp [rowsOf, List.filter_append, hk]

theorem rowsOf_eq_nil {l : List (Word × Word)} {k : Word} (h : ∀ e ∈ l, e.1 ≠ k) : rowsOf l k = [] := by
  rw [rowsOf, List.filter_eq_nil_iff.mpr (by simpa using h), List.map_nil]

theorem primaryRows_concat (calls : List Call) (c : Call) (k : Word) :
    primaryRows (calls ++ [c]) k =
      primaryRows calls k ++ if c.tbl = .primary ∧ c.key = k then [c.rowId] else [] := by
  by_cases hc : c.tbl = .primary ∧ c.key = k <;> simp [primaryRows, List.filter_append, hc]

/-- An entry is in use when some call came for it. -/
theorem held_bin (calls : List Call) (b : κ) :
    (∃ e ∈ held format calls, format e.1 = b) ↔ ∃ c ∈ calls, format c.key = b := by
  induction calls using List.reverseRecOn with
  | nil => simp [held]
  | append_singleton calls c ih =>
    rw [held_concat, hold]
    split
    · simp only [List.mem_append, List.mem_singleton, or_and_right, exists_or, exists_eq_left, ih]
    · rename_i hc
      obtain ⟨e, he, hb⟩ : ∃ e ∈ held format calls, format e.1 = format c.key := by
        simpa using (not_or.mp hc).2
      rw [ih]
      constructor
      · intro hsome
        obtain ⟨d, hd, hdb⟩ := hsome
        exact ⟨d, List.mem_append_left _ hd, hdb⟩
      · intro hsome
        obtain ⟨d, hd, hdb⟩ := hsome
        rcases List.mem_append.mp hd with hd | hd
        · exact ⟨d, hd, hdb⟩
        · rw [List.mem_singleton.mp hd] at hdb
          exact ih.mp ⟨e, he, hb.trans hdb⟩

theorem strayRows_concat_seen {calls : List Call} {k : Word}
    (hseen : ∃ d ∈ calls, format d.key = format k) (c : Call) :
    strayRows format (calls ++ [c]) k = strayRows format calls k := by
  unfold strayRows
  rw [List.find?_append]
  cases hfind : calls.find? fun d => format d.key = format k with
  | some d => rfl
  | none =>
    obtain ⟨d, hd, hb⟩ := hseen
    exact absurd (List.find?_eq_none.mp hfind d hd) (by simp [hb])

theorem strayRows_concat_new {calls : List Call} {k : Word}
    (hnew : ¬ ∃ d ∈ calls, format d.key = format k) (c : Call) :
    strayRows format (calls ++ [c]) k = if c.tbl = .secondary ∧ c.key = k then [c.rowId] else [] := by
  have hfind : (calls.find? fun d => format d.key = format k) = none :=
    List.find?_eq_none.mpr fun d hd hb => hnew ⟨d, hd, of_decide_eq_true hb⟩
  unfold strayRows
  rw [List.find?_append, hfind]
  by_cases hk : c.key = k
  · simp [hk]
  · by_cases hb : format c.key = format k <;> simp [hk, hb]

/-- **What is held for a key**: the row of the secondary call that opened its entry, if
one did, and then the rows of its primary calls. -/
theorem rowsOf_held (calls : List Call) (k : Word) :
    rowsOf (held format calls) k = strayRows format calls k ++ primaryRows calls k := by
  induction calls using List.reverseRecOn with
  | nil => rfl
  | append_singleton calls c ih =>
    rw [primaryRows_concat, held_concat]
    have hopen : (∃ e ∈ held format calls, format e.1 = format k) ↔
        ∃ d ∈ calls, format d.key = format k := held_bin calls (format k)
    by_cases hk : c.key = k
    · subst hk
      by_cases hseen : ∃ d ∈ calls, format d.key = format c.key
      · rw [strayRows_concat_seen hseen]
        cases htbl : c.tbl with
        | primary =>
          rw [hold_primary _ htbl, rowsOf_concat, ih, List.append_assoc]
          simp
        | secondary =>
          obtain ⟨e, he, hb⟩ := hopen.mpr hseen
          rw [hold_secondary htbl he hb, ih]
          simp
      · -- the call opens the entry, and nothing was held for its key
        rw [strayRows_concat_new hseen]
        have hnone : ∀ e ∈ held format calls, format e.1 ≠ format c.key :=
          fun e he hb => hseen (hopen.mp ⟨e, he, hb⟩)
        have hempty : rowsOf (held format calls) c.key = [] :=
          rowsOf_eq_nil fun e he hb => hnone e he (congrArg format hb)
        rw [hempty] at ih
        rw [hold_opens hnone, rowsOf_concat, hempty, (List.append_eq_nil_iff.mp ih.symm).2]
        cases htbl : c.tbl <;> simp
    · have hkeep : rowsOf (hold format (held format calls) c) k = rowsOf (held format calls) k := by
        unfold hold
        split
        · rw [rowsOf_concat, if_neg hk, List.append_nil]
        · rfl
      rw [hkeep, ih]
      by_cases hseen : ∃ d ∈ calls, format d.key = format k
      · simp [strayRows_concat_seen hseen, hk]
      · have hempty : rowsOf (held format calls) k = [] :=
          rowsOf_eq_nil fun e he hb => hseen (hopen.mp ⟨e, he, congrArg format hb⟩)
        rw [hempty] at ih
        simp [strayRows_concat_new hseen, hk, (List.append_eq_nil_iff.mp ih.symm).1,
          (List.append_eq_nil_iff.mp ih.symm).2]

/-- The stray row of a key is that of the first call for its entry, if that call is a
secondary one with the key. -/
theorem mem_strayRows {calls : List Call} {k p : Word} :
    p ∈ strayRows format calls k ↔ ∃ front a back, calls = front ++ a :: back ∧
      (∀ c ∈ front, format c.key ≠ format k) ∧ a.tbl = .secondary ∧ a.key = k ∧ a.rowId = p := by
  unfold strayRows
  constructor
  · intro hp
    cases hfind : calls.find? fun c => format c.key = format k with
    | none =>
      rw [hfind] at hp
      cases hp
    | some a =>
      simp only [hfind] at hp
      split at hp
      · rename_i ha
        obtain ⟨_, front, back, he, hfirst⟩ := List.find?_eq_some_iff_append.mp hfind
        exact ⟨front, a, back, he, by simpa using hfirst, ha.1, ha.2, (List.mem_singleton.mp hp).symm⟩
      · cases hp
  · intro hsome
    obtain ⟨front, a, back, rfl, hfirst, ha, rfl, rfl⟩ := hsome
    have hfind : (front ++ a :: back).find? (fun c => format c.key = format a.key) = some a := by
      rw [List.find?_append, List.find?_eq_none.mpr (by simpa using hfirst), Option.none_or,
        List.find?_cons_of_pos (by simp)]
    simp [hfind, ha]

theorem strayRows_length_le (calls : List Call) (k : Word) : (strayRows format calls k).length ≤ 1 := by
  unfold strayRows
  split
  · split <;> simp
  · simp

/-- Stray rows meet no secondary call exactly when there is no stray. -/
theorem noStray_iff (calls : List Call) : NoStray format calls ↔
    ∀ pre b post, calls = pre ++ b :: post → b.tbl = .secondary → strayRows format pre b.key = [] := by
  constructor
  · intro h pre b post he hb
    refine List.eq_nil_iff_forall_not_mem.mpr fun p hp => ?_
    obtain ⟨front, a, back, rfl, hfirst, ha, hk, _⟩ := mem_strayRows.mp hp
    obtain ⟨c, hc, hbin⟩ := h front a back b post (by simp [he]) ha hb hk
    exact hfirst c hc (hbin.trans (congrArg format hk))
  · intro h pre a mid b post he ha hb hk
    by_contra hnone
    push Not at hnone
    have hp : a.rowId ∈ strayRows format (pre ++ a :: mid) b.key :=
      mem_strayRows.mpr ⟨pre, a, mid, rfl, fun c hc => hk ▸ hnone c hc, ha, hk, rfl⟩
    rw [h (pre ++ a :: mid) b post (by simp [he]) hb] at hp
    cases hp

/-- **When the hash join outputs the join**: exactly when there is no stray. -/
theorem produced_eq_iff (calls : List Call) :
    produced format calls = joinOutput calls ↔ NoStray format calls := by
  have hrows : ∀ pre k, rowsOf (held format pre) k = strayRows format pre k ++ primaryRows pre k :=
    rowsOf_held
  rw [noStray_iff]
  constructor
  · intro heq
    exact extra_eq_nil_of_length hrows (Nat.le_of_eq (congrArg List.length heq))
  · intro hnil
    have heq : outputs (fun before k => rowsOf (held format before) k) [] calls =
        outputs primaryRows [] calls := outputs_congr hrows hnil
    exact heq

end Held
end Cheetah.Host.Join
