import Cheetah.Host.ControlLinks
import Cheetah.Host.StreamReceiver
import Cheetah.Host.GroupbyStore
import Cheetah.Host.DistinctStore
import Cheetah.Host.Join

/-! `cheetah_control_flow_master`: bursts of frames, one update a row.

A turn of the loop receives a burst, updates the store of the query with every row of it
and looks at two flags: the query is offloaded at the end of the first turn, and the first
turn after that which has seen a packet starts `receive_ack_end.py`. `run_iff`: the loop
is a fold over the rows of all bursts, however they are cut. -/
namespace Cheetah.Host.Master
open Lib Lib.CString ControlMessage StreamReceiver AggregateProcessing Join

/-! ### Code -/

/-- The `CHEETAH_CONTROL_MESSAGE_QUERY`s a master can be built with. -/
inductive QueryType where
  | filter | topn | distinct | groupby | join
  deriving DecidableEq, Repr

/-- `CHEETAH_CONTROL_MESSAGE_QUERY_GROUPBY`, "GRBY". -/
def queryGroupby : List Byte := [0x47, 0x52, 0x42, 0x59]

/-- `CHEETAH_CONTROL_MESSAGE_QUERY_JOIN`, "JOIN". -/
def queryJoin : List Byte := [0x4a, 0x4f, 0x49, 0x4e]

/-- The text of a query. -/
def QueryType.text : QueryType → List Byte
  | .filter => queryFilter
  | .topn => queryTopn
  | .distinct => queryDistinct
  | .groupby => queryGroupby
  | .join => queryJoin

/-- `RECEIVER_BATCH_SIZE`. -/
def receiverBatchSize : Nat := 32

/-- The strings `hsearch_r` is given for a key and for a value. -/
structure Formats (κ : Type) where
  key : Word → κ
  value : Value → κ

/-- The query states; `none` is a null pointer. -/
structure Queries (κ : Type) where
  distinctState : Option (DistinctState (Htab κ))
  groupbyState : Option (GroupbyState (Htab κ))
  joinState : Option (JoinState (Htab κ))

/-- The variables of the loop, with the control messages sent so far and how often
`receive_ack_end.py` was started. -/
structure MasterState (c : Config) (κ : Type) where
  receiver : Receiver c
  packetsReceived : BitVec 64
  updateCount : BitVec 64
  queries : Queries κ
  offloaded : Bool
  started : Bool
  sent : List Datagram
  scripts : Nat

section Code
variable {κ : Type} [DecidableEq κ] {c : Config} (format : Formats κ) (nodes : Nodes) (query : QueryType)

/-- `strncmp(current_query_type, other, CHEETAH_CONTROL_MESSAGE_MAX_SIZE) == 0`. -/
def isQuery (currentQueryType other : List Byte) : Option Bool := do
  return (← strncmp (cString currentQueryType) (cString other) maxSize) == 0

/-- The table a row is of. -/
def tableOf (row : Row c) : JoinTable := if row.flowId.setWidth 16 = 1 then .primary else .secondary

/-- One turn of the inner loop: three questions, each with its update. The master is built
with flow ids and keys, so `setWidth` changes a value only: `groupby_update` takes 32 bits
of it and `distinct_update` 64. -/
def updateRow (acc : Queries κ × BitVec 64) (row : Row c) : Option (Queries κ × BitVec 64) := do
  let (queries, updateCount) := acc
  let key := row.key.setWidth 32
  let queries ←
    if ← isQuery query.text queryGroupby then do
      let state ← groupbyUpdate Htab.hsearch (format.key key) (← queries.groupbyState) key
        (row.value.setWidth 32)
      some {queries with groupbyState := some state}
    else some queries
  let queries ←
    if ← isQuery query.text queryDistinct then do
      let value := row.value.setWidth 64
      let state ← distinctUpdate Htab.hsearch (format.value value) (← queries.distinctState) value
      some {queries with distinctState := some state}
    else some queries
  if ← isQuery query.text queryJoin then do
    let state ← joinUpdate Htab.hsearch (format.key key) (← queries.joinState) ⟨key, row.rowId, tableOf row⟩
    some ({queries with joinState := some state}, updateCount + 1)
  else some (queries, updateCount)

/-- The inner loop reads row `i` from the receiver's arrays. -/
def updateAt (receiver : Receiver c) (i : Nat) (acc : Queries κ × BitVec 64) :
    Option (Queries κ × BitVec 64) := do
  updateRow format query acc (← receiver.row i)

/-- One turn of the loop, given the burst of `rte_eth_rx_burst`. -/
def turn (s : MasterState c κ) (burst : List RxMbuf) : Option (MasterState c κ) := do
  let (receiver, packetsReceivedCurrentBatch) ← receive s.receiver burst
  let packetsReceived := s.packetsReceived + BitVec.ofNat 64 packetsReceivedCurrentBatch
  let (queries, updateCount) ← forLoop (updateAt format query receiver) packetsReceivedCurrentBatch
    (s.queries, s.updateCount)
  let starts := s.offloaded && !s.started && packetsReceived != 0
  some
    { receiver := receiver
      packetsReceived := packetsReceived
      updateCount := updateCount
      queries := queries
      offloaded := true
      started := s.started || starts
      sent := if s.offloaded then s.sent else s.sent ++ offloadQuery nodes query.text
      scripts := if starts then s.scripts + 1 else s.scripts }

/-- The variables before the loop. -/
def start (c : Config) (queries : Queries κ) : MasterState c κ :=
  ⟨receiverCreate c receiverBatchSize, 0, 0, queries, false, false, [], 0⟩

/-- The loop, until it is told to quit. -/
def run (s : MasterState c κ) (bursts : List (List RxMbuf)) : Option (MasterState c κ) :=
  bursts.foldlM (turn format nodes query) s

/-- The states `cheetah_control_flow_master` makes, for its 100000 entries and a table for
40000 keys. -/
def shippedQueries (hc : Hcreate) : Option (Queries κ) := do
  let joinState ← joinInit (hc.create 40000) 100000
  some ⟨none, none, some joinState⟩

end Code

/-! ### Rows -/

/-- The text of a query is the only one it is taken for. -/
theorem isQuery_text (query other : QueryType) :
    isQuery query.text other.text = some (decide (query = other)) := by
  cases query <;> cases other <;> decide

section Rows
variable {κ : Type} [DecidableEq κ] {c : Config} (format : Formats κ) (query : QueryType)

/-- What the inner loop does with a list of rows. -/
def updateRows (acc : Queries κ × BitVec 64) (rows : List (Row c)) : Option (Queries κ × BitVec 64) :=
  rows.foldlM (updateRow format query) acc

/-- The update of a row, by the query. -/
theorem updateRow_eq (queries : Queries κ) (updateCount : BitVec 64) (row : Row c) :
    updateRow format query (queries, updateCount) row =
      match query with
      | .groupby => do
        let state ← groupbyUpdate Htab.hsearch (format.key (row.key.setWidth 32)) (← queries.groupbyState)
          (row.key.setWidth 32) (row.value.setWidth 32)
        some ({queries with groupbyState := some state}, updateCount)
      | .distinct => do
        let state ← distinctUpdate Htab.hsearch (format.value (row.value.setWidth 64))
          (← queries.distinctState) (row.value.setWidth 64)
        some ({queries with distinctState := some state}, updateCount)
      | .join => do
        let state ← joinUpdate Htab.hsearch (format.key (row.key.setWidth 32)) (← queries.joinState)
          ⟨row.key.setWidth 32, row.rowId, tableOf row⟩
        some ({queries with joinState := some state}, updateCount + 1)
      | _ => some (queries, updateCount) := by
  have hgroupby := isQuery_text query .groupby
  have hdistinct := isQuery_text query .distinct
  have hjoin := isQuery_text query .join
  simp only [QueryType.text] at hgroupby hdistinct hjoin
  unfold updateRow
  cases query <;>
    simp only [QueryType.text, hgroupby, hdistinct, hjoin, Option.bind_eq_bind, Option.bind_some,
      reduceCtorEq, decide_false, decide_true, Bool.false_eq_true, if_false, if_true]

/-- The rows of some frames. -/
def rowsIn (c : Config) (frames : List RxMbuf) : List (Row c) :=
  frames.filterMap fun mbuf => unpackPayload c (mbuf.buf.drop mbuf.dataOff)

theorem map_rowsIn (frames : List RxMbuf) :
    frames.map (fun mbuf => unpackPayload c (mbuf.buf.drop mbuf.dataOff)) = (rowsIn c frames).map some := by
  induction frames with
  | nil => rfl
  | cons mbuf rest ih =>
    obtain ⟨row, hrow⟩ := mbuf.unpackPayload_isSome (c := c)
    rw [List.map_cons, hrow, ih, rowsIn, rowsIn, List.filterMap_cons, hrow, List.map_cons]

@[simp] theorem length_rowsIn (frames : List RxMbuf) : (rowsIn c frames).length = frames.length := by
  have hlen := congrArg List.length (map_rowsIn (c := c) frames)
  rw [List.length_map, List.length_map] at hlen
  exact hlen.symm

theorem rowsIn_append (a b : List RxMbuf) : rowsIn c (a ++ b) = rowsIn c a ++ rowsIn c b :=
  List.filterMap_append

theorem updateRows_append (acc : Queries κ × BitVec 64) (a b : List (Row c)) :
    updateRows format query acc (a ++ b) =
      (updateRows format query acc a).bind fun acc' => updateRows format query acc' b :=
  List.foldlM_append

/-- The queries the loop has no store for. -/
def QueryType.counted : QueryType → Bool
  | .filter | .topn => true
  | .distinct | .groupby | .join => false

variable {query}

/-- Their rows are only counted. -/
theorem updateRows_counted (h : query.counted = true) (acc : Queries κ × BitVec 64) (rows : List (Row c)) :
    updateRows format query acc rows = some acc := by
  induction rows with
  | nil => rfl
  | cons row rest ih =>
    obtain ⟨queries, updateCount⟩ := acc
    have hrow : updateRow format query (queries, updateCount) row = some (queries, updateCount) := by
      rw [updateRow_eq]
      cases query with
      | filter | topn => rfl
      | distinct | groupby | join => cases h
    rw [updateRows, List.foldlM_cons, hrow]
    exact ih

end Rows
/-! ### Turns -/

section Receiving
variable {c : Config} {r r' : Receiver c}

theorem receiveFrom_packetBatchSize {i : Nat} {burst : List RxMbuf} (h : receiveFrom r i burst = some r') :
    r'.packetBatchSize = r.packetBatchSize := by
  induction burst generalizing r i with
  | nil =>
    obtain rfl := Option.some.inj h
    rfl
  | cons mbuf rest ih =>
    obtain ⟨r₁, hone, hrest⟩ := Option.bind_eq_some_iff.mp h
    rw [ih hrest]
    simp only [receiveOne, Option.bind_eq_bind, Option.bind_eq_some_iff, Option.some.injEq] at hone
    obtain ⟨_, _, _, _, _, _, _, _, _, _, rfl⟩ := hone
    rfl

/-- A burst that has room leaves its rows in the arrays. -/
theorem receive_rows {rows : List (Row c)} (h : Received rows r) {burst : List RxMbuf}
    (hburst : burst.length ≤ r.packetBatchSize) :
    ∃ r', receive r burst = some (r', burst.length) ∧ Received (rowsIn c burst) r' ∧
      r'.packetBatchSize = r.packetBatchSize := by
  obtain ⟨r', more, hfrom, hreceived, hmap⟩ :=
    receiveFrom_spec h.restart burst (by rw [List.length_nil, Nat.zero_add]; exact hburst)
  rw [List.nil_append] at hreceived
  have hmore : more = rowsIn c burst := by
    rw [map_rowsIn] at hmap
    exact ((List.map_injective_iff.mpr (Option.some_injective _)) hmap).symm
  rw [List.length_nil] at hfrom
  refine ⟨r', ?_, hmore ▸ hreceived, receiveFrom_packetBatchSize hfrom⟩
  rw [StreamReceiver.receive, hfrom]
  rfl

end Receiving

section Turns
variable {κ : Type} [DecidableEq κ] {c : Config} {format : Formats κ} {nodes : Nodes} {query : QueryType}

/-- The inner loop goes through the rows of the burst. -/
theorem updateAt_eq {receiver : Receiver c} {rows : List (Row c)} (h : Received rows receiver)
    (acc : Queries κ × BitVec 64) :
    forLoop (updateAt format query receiver) rows.length acc = updateRows format query acc rows := by
  refine forLoop_eq_foldlM (fun i row hi acc => ?_) acc
  obtain ⟨hlt, rfl⟩ := List.getElem?_eq_some_iff.mp hi
  rw [updateAt, h.row_eq hlt]
  rfl

/-- The loop has seen a packet at the end of a turn that is not the first. -/
def Seen (bursts : List (List RxMbuf)) : Prop :=
  ∃ k, 2 ≤ k ∧ k ≤ bursts.length ∧ BitVec.ofNat 64 (bursts.take k).flatten.length ≠ 0

theorem seen_concat (bursts : List (List RxMbuf)) (burst : List RxMbuf) :
    Seen (bursts ++ [burst]) ↔
      Seen bursts ∨ (bursts ≠ [] ∧ BitVec.ofNat 64 (bursts ++ [burst]).flatten.length ≠ 0) := by
  constructor
  · intro hseen
    obtain ⟨k, hk, hle, hne⟩ := hseen
    rw [List.length_append, List.length_singleton] at hle
    by_cases hlast : k ≤ bursts.length
    · rw [List.take_append_of_le_length hlast] at hne
      exact .inl ⟨k, hk, hlast, hne⟩
    · rw [List.take_of_length_le (by rw [List.length_append, List.length_singleton]; omega)] at hne
      refine .inr ⟨fun hnil => ?_, hne⟩
      rw [hnil, List.length_nil] at hle
      omega
  · intro hor
    rcases hor with ⟨k, hk, hle, hne⟩ | ⟨hsome, hne⟩
    · refine ⟨k, hk, ?_, by rwa [List.take_append_of_le_length hle]⟩
      rw [List.length_append]
      exact Nat.le_add_right_of_le hle
    · have hpos := List.length_pos_iff.mpr hsome
      refine ⟨(bursts ++ [burst]).length, ?_, Nat.le_refl _, by rwa [List.take_length]⟩
      rw [List.length_append, List.length_singleton]
      omega

/-- When nothing came in the first turn, any packet is seen. -/
theorem seen_of_first_empty (bursts : List (List RxMbuf))
    (hroom : ∀ burst ∈ bursts, burst.length ≤ receiverBatchSize) (hsome : bursts.flatten ≠ []) :
    Seen ([] :: bursts) := by
  induction bursts using List.reverseRecOn with
  | nil => exact absurd rfl hsome
  | append_singleton bursts burst ih =>
    rw [← List.cons_append, seen_concat]
    by_cases hnone : bursts.flatten = []
    · rw [List.flatten_append, hnone, List.nil_append, List.flatten_singleton] at hsome
      have hlen := hroom burst (by simp)
      have hpos := List.length_pos_iff.mpr hsome
      refine .inr ⟨List.cons_ne_nil _ _, fun hzero => ?_⟩
      rw [List.cons_append, List.flatten_cons, List.nil_append, List.flatten_append, hnone, List.nil_append,
        List.flatten_singleton] at hzero
      have hsmall : receiverBatchSize < 2 ^ 64 := by decide
      have hnat := congrArg BitVec.toNat hzero
      rw [BitVec.toNat_ofNat, Nat.mod_eq_of_lt (by omega)] at hnat
      have hnil : burst.length = 0 := hnat
      omega
    · exact .inl (ih (fun b hb => hroom b (List.mem_append_left _ hb)) hnone)

/-- What is so after the bursts of any run from `queries`. -/
structure Ran (format : Formats κ) (nodes : Nodes) (query : QueryType) (queries : Queries κ)
    (bursts : List (List RxMbuf)) (s : MasterState c κ) : Prop where
  receiver : ∃ rows, Received rows s.receiver
  room : s.receiver.packetBatchSize = receiverBatchSize
  packetsReceived : s.packetsReceived = BitVec.ofNat 64 bursts.flatten.length
  updates : updateRows format query (queries, 0) (rowsIn c bursts.flatten) = some (s.queries, s.updateCount)
  offloaded : s.offloaded = true ↔ bursts ≠ []
  sent : s.sent = if bursts = [] then [] else offloadQuery nodes query.text
  started : s.started = true ↔ Seen bursts
  scripts : s.scripts = if s.started then 1 else 0

theorem ran_start (queries : Queries κ) : Ran format nodes query queries [] (start c queries) where
  receiver := ⟨[], received_create c receiverBatchSize⟩
  room := rfl
  packetsReceived := rfl
  updates := rfl
  offloaded := by simp [start]
  sent := rfl
  started := by
    refine iff_of_false Bool.false_ne_true fun hseen => ?_
    obtain ⟨k, hk, hle, _⟩ := hseen
    rw [List.length_nil] at hle
    omega
  scripts := rfl

/-- **One turn** keeps it when the updates have a result, and has none otherwise. -/
theorem ran_turn {queries : Queries κ} {bursts : List (List RxMbuf)} {s : MasterState c κ}
    (h : Ran format nodes query queries bursts s) {burst : List RxMbuf}
    (hburst : burst.length ≤ receiverBatchSize) :
    match updateRows format query (s.queries, s.updateCount) (rowsIn c burst) with
    | some _ => ∃ s', turn format nodes query s burst = some s' ∧
        Ran format nodes query queries (bursts ++ [burst]) s'
    | none => turn format nodes query s burst = none := by
  obtain ⟨rows, hrows⟩ := h.receiver
  obtain ⟨receiver, hreceive, hreceived, hroom⟩ := receive_rows hrows (h.room ▸ hburst)
  have hloop := @updateAt_eq κ _ c format query _ _ hreceived (s.queries, s.updateCount)
  rw [length_rowsIn] at hloop
  split
  · rename_i acc hacc
    obtain ⟨queries', updateCount⟩ := acc
    have hcount : s.packetsReceived + BitVec.ofNat 64 burst.length =
        BitVec.ofNat 64 (bursts ++ [burst]).flatten.length := by
      rw [h.packetsReceived, List.flatten_append, List.flatten_singleton, List.length_append, BitVec.ofNat_add]
    have hstarts : (s.started || (s.offloaded && !s.started &&
        s.packetsReceived + BitVec.ofNat 64 burst.length != 0)) = true ↔ Seen (bursts ++ [burst]) := by
      rw [seen_concat, ← h.started, ← h.offloaded, hcount]
      cases s.started <;> simp
    refine ⟨_, by simp only [turn, hreceive, hloop, hacc, Option.bind_eq_bind, Option.bind_some]; rfl, ?_⟩
    exact {
      receiver := ⟨_, hreceived⟩
      room := hroom.trans h.room
      packetsReceived := hcount
      updates := by
        rw [List.flatten_append, List.flatten_singleton, rowsIn_append, updateRows_append, h.updates]
        exact hacc
      offloaded := iff_of_true rfl (by simp)
      sent := by
        have hne : bursts ++ [burst] ≠ [] := List.concat_ne_nil _ _
        rw [if_neg hne]
        by_cases hnil : bursts = []
        · rw [if_neg (fun hoff => h.offloaded.mp hoff hnil), h.sent, if_pos hnil, List.nil_append]
        · rw [if_pos (h.offloaded.mpr hnil), h.sent, if_neg hnil]
      started := hstarts
      scripts := by
        rw [h.scripts]
        cases s.started <;> cases s.offloaded <;> simp }
  · rename_i hnone
    simp only [turn, hreceive, hloop, hnone, Option.bind_eq_bind, Option.bind_some, Option.bind_none]

/-- **Any run** is the updates of its rows, however they came in bursts: it has a result
exactly when they do. -/
theorem run_iff (queries : Queries κ) {bursts : List (List RxMbuf)}
    (hbursts : ∀ burst ∈ bursts, burst.length ≤ receiverBatchSize) :
    match updateRows format query (queries, 0) (rowsIn c bursts.flatten) with
    | some _ => ∃ s, run format nodes query (start c queries) bursts = some s ∧
        Ran format nodes query queries bursts s
    | none => run format nodes query (start c queries) bursts = none := by
  induction bursts using List.reverseRecOn with
  | nil => exact ⟨_, rfl, ran_start queries⟩
  | append_singleton bursts burst ih =>
    have hrest := ih fun b hb => hbursts b (List.mem_append_left _ hb)
    have hrun : run format nodes query (start c queries) (bursts ++ [burst]) =
        (run format nodes query (start c queries) bursts).bind fun s => turn format nodes query s burst := by
      rw [run, List.foldlM_append, run]
      exact Option.bind_congr fun s _ => by rw [List.foldlM_cons]; exact Option.bind_fun_some _
    rw [hrun, List.flatten_append, List.flatten_singleton, rowsIn_append, updateRows_append]
    split at hrest
    · obtain ⟨s, hs, hran⟩ := hrest
      have hturn := ran_turn hran (hbursts burst (by simp))
      rw [hran.updates, hs]
      exact hturn
    · rename_i hnone
      rw [hnone, hrest]
      rfl

end Turns

/-! ### The queries -/

section Folds
variable {τ κ : Type}

theorem groupbyRun_eq_foldlM (H : Hsearch τ κ) (format : Word → κ) (state : GroupbyState τ)
    (calls : List (Word × Word)) :
    groupbyRun H format state calls =
      calls.foldlM (fun state call => groupbyUpdate H (format call.1) state call.1 call.2) state := by
  induction calls generalizing state with
  | nil => rfl
  | cons call rest ih =>
    rw [groupbyRun, List.foldlM_cons]
    exact Option.bind_congr fun state' _ => ih state'

theorem distinctRun_eq_foldlM (H : Hsearch τ κ) (format : Value → κ) (state : DistinctState τ)
    (values : List Value) :
    distinctRun H format state values =
      values.foldlM (fun state value => distinctUpdate H (format value) state value) state := by
  induction values generalizing state with
  | nil => rfl
  | cons value rest ih =>
    rw [distinctRun, List.foldlM_cons]
    exact Option.bind_congr fun state' _ => ih state'

theorem joinRun_eq_foldlM (H : Hsearch τ κ) (format : Word → κ) (state : JoinState τ)
    (calls : List Call) :
    joinRun H format state calls =
      calls.foldlM (fun state call => joinUpdate H (format call.key) state call) state := by
  induction calls generalizing state with
  | nil => rfl
  | cons call rest ih =>
    rw [joinRun, List.foldlM_cons]
    exact Option.bind_congr fun state' _ => ih state'

end Folds

section Stores
variable {κ : Type} [DecidableEq κ] {c : Config} (format : Formats κ) (queries : Queries κ)

/-- The update `cheetah_join_update` is called with. -/
def joinCall (row : Row c) : Call := ⟨row.key.setWidth 32, row.rowId, tableOf row⟩

/-- The update `cheetah_aggregate_processing_groupby_update` is called with. -/
def groupbyCall (row : Row c) : Word × Word := (row.key.setWidth 32, row.value.setWidth 32)

/-- A master built for GROUP BY runs its store on the rows. -/
theorem updateRows_groupby (state : GroupbyState (Htab κ)) (updateCount : BitVec 64) (rows : List (Row c)) :
    updateRows format .groupby ({queries with groupbyState := some state}, updateCount) rows =
      (groupbyRun Htab.hsearch format.key state (rows.map groupbyCall)).map fun state' =>
        ({queries with groupbyState := some state'}, updateCount) := by
  have hrow : ∀ (u : Unit) (state : GroupbyState (Htab κ)) (row : Row c),
      updateRow format .groupby ({queries with groupbyState := some state}, updateCount) row =
        (groupbyUpdate Htab.hsearch (format.key (groupbyCall row).1) state (groupbyCall row).1
          (groupbyCall row).2).map fun state' => ({queries with groupbyState := some state'}, updateCount) := by
    intro _ state row
    rw [updateRow_eq, Option.map_eq_bind]
    rfl
  rw [groupbyRun_eq_foldlM, List.foldlM_map]
  exact @foldlM_eq_map _ _ _ _ _ _ _ id hrow () state rows

/-- The update `cheetah_aggregate_processing_distinct_update` is called with. -/
def distinctCall (row : Row c) : Value := row.value.setWidth 64

/-- A master built for DISTINCT runs its store on the rows. -/
theorem updateRows_distinct (state : DistinctState (Htab κ)) (updateCount : BitVec 64) (rows : List (Row c)) :
    updateRows format .distinct ({queries with distinctState := some state}, updateCount) rows =
      (distinctRun Htab.hsearch format.value state (rows.map distinctCall)).map fun state' =>
        ({queries with distinctState := some state'}, updateCount) := by
  have hrow : ∀ (u : Unit) (state : DistinctState (Htab κ)) (row : Row c),
      updateRow format .distinct ({queries with distinctState := some state}, updateCount) row =
        (distinctUpdate Htab.hsearch (format.value (distinctCall row)) state (distinctCall row)).map
          fun state' => ({queries with distinctState := some state'}, updateCount) := by
    intro _ state row
    rw [updateRow_eq, Option.map_eq_bind]
    rfl
  rw [distinctRun_eq_foldlM, List.foldlM_map]
  exact @foldlM_eq_map _ _ _ _ _ _ _ id hrow () state rows

/-- A master built for JOIN runs its store on the rows and counts them. -/
theorem updateRows_join (state : JoinState (Htab κ)) (updateCount : BitVec 64) (rows : List (Row c)) :
    updateRows format .join ({queries with joinState := some state}, updateCount) rows =
      (joinRun Htab.hsearch format.key state (rows.map joinCall)).map fun state' =>
        ({queries with joinState := some state'}, updateCount + BitVec.ofNat 64 rows.length) := by
  have hrow : ∀ (updateCount : BitVec 64) (state : JoinState (Htab κ)) (row : Row c),
      updateRow format .join ({queries with joinState := some state}, updateCount) row =
        (joinUpdate Htab.hsearch (format.key (joinCall row).key) state (joinCall row)).map fun state' =>
          ({queries with joinState := some state'}, updateCount + 1) := by
    intro updateCount state row
    rw [updateRow_eq, Option.map_eq_bind]
    rfl
  have hcount : ∀ n, (· + (1 : BitVec 64))^[n] updateCount = updateCount + BitVec.ofNat 64 n := by
    intro n
    induction n with
    | zero => exact (BitVec.add_zero updateCount).symm
    | succ n ih =>
      rw [Function.iterate_succ_apply', ih, BitVec.ofNat_add, BitVec.add_assoc]
      rfl
  have hfold := @foldlM_eq_map _ _ _ _ _ _ _ (· + 1) hrow updateCount state rows
  rw [hcount] at hfold
  rw [joinRun_eq_foldlM, List.foldlM_map]
  exact hfold

/-- The updates of the shipped master: its join store takes what the hash join outputs, as
long as there is room for it in the store and for the keys in the table. -/
theorem shipped_updates (hc : Hcreate) (format : Formats κ) :
    ∃ queries : Queries κ, shippedQueries hc = some queries ∧ ∀ rows : List (Row c),
      if Fits format.key (hc.capacity 40000) 100000 (rows.map joinCall) then
        ∃ joinState, updateRows format .join (queries, 0) rows =
            some (⟨none, none, some joinState⟩, BitVec.ofNat 64 rows.length) ∧
          joinView joinState = (produced format.key (rows.map joinCall)).map some
      else updateRows format .join (queries, 0) rows = none := by
  obtain ⟨joinState, hinit, hstored, hsize, hcapacity⟩ :=
    @joinStored_init κ _ format.key 100000 (by decide) hc 40000
  refine ⟨⟨none, none, some joinState⟩, ?_, fun rows => ?_⟩
  · rw [shippedQueries, hinit]
    rfl
  have hrun := joinStored_run hstored (rows.map joinCall)
  rw [List.nil_append, hsize, hcapacity] at hrun
  have hupdates := @updateRows_join κ _ c format ⟨none, none, none⟩ joinState 0 rows
  split at hrun
  · rename_i hfits
    obtain ⟨joinState', hrun, hstored', _⟩ := hrun
    rw [if_pos hfits]
    refine ⟨joinState', ?_, hstored'.view⟩
    rw [hupdates, hrun, Option.map_some, show (0 : BitVec 64) + _ = _ from BitVec.zero_add _]
  · rename_i hfull
    rw [if_neg hfull, hupdates, hrun]
    rfl

end Stores

end Cheetah.Host.Master
