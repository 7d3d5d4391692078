import Mathlib.Data.Int.ConditionallyCompleteOrder
import Transmogr.ReadQueries

/-! One poll of a table: `pollTable` lists what lies after the table's cursor page by page, and moves
the cursor with each page that `onBatch` takes. -/
namespace Transmogr.PollPaging

open Sql

structure PollCursor where
  version : Int
  primaryKey : PrimaryKey
  deriving DecidableEq

/-- The cursors of the adapter by table. -/
abbrev Cursors := Std.ExtTreeMap String PollCursor

/-- A table the adapter has no cursor for is read from version zero on. -/
def Cursors.cursor (cursors : Cursors) (table : String) : PollCursor := cursors.getD table ⟨0, []⟩

def Cursors.setCursor (cursors : Cursors) (table : String) (cursor : PollCursor) : Cursors :=
  cursors.insert table cursor

@[simp] theorem Cursors.cursor_setCursor_self (cursors : Cursors) (table : String)
    (cursor : PollCursor) : (cursors.setCursor table cursor).cursor table = cursor :=
  Std.ExtTreeMap.getD_insert_self

theorem Cursors.cursor_setCursor_of_ne (cursors : Cursors) {table other : String}
    (cursor : PollCursor) (ne : other ≠ table) :
    (cursors.setCursor table cursor).cursor other = cursors.cursor other := by
  simp [Cursors.cursor, Cursors.setCursor, Std.ExtTreeMap.getD_insert, ne.symm]

variable {V : Type} [LinearOrder V] (server : ReadServer V) (types : String → PrimaryKeyType)
  (tables : String → List (Row V)) (localRegion : String)

/-- One row of `ChangefeedPollingListTableChanges`; NULL is no version to scan. -/
def scanPollingRow (spec : TableSpec) (tableRef : String) (row : Row V) :
    Except String ChangefeedChange :=
  match versionOf server (some spec.updatedAtField) row with
  | none => .error ("scan polling row for " ++ spec.name)
  | some version => do
    let payload := server.toJsonb tableRef row
    let primaryKey ← wrapError ("extract polling primary key for " ++ spec.name)
      (primaryKeyPartsFromMap payload spec.primaryKey types)
    return ⟨spec.name, primaryKey, .upsert, version, some payload⟩

def changefeedPollingListTableChanges (spec : TableSpec) (afterVersion : Int)
    (afterPrimaryKey : PrimaryKey) : Except String (List ChangefeedChange) := do
  let tableRef ← quoteTableName spec.name
  let (query, args) := pollingQuery spec tableRef localRegion afterVersion afterPrimaryKey
  let rows ← wrapError ("poll table " ++ spec.name) (query.run server args (tables tableRef))
  rows.mapM (scanPollingRow server types spec tableRef)

/-- What a call of `pollTable` came to: the batches passed to `onBatch`, the cursors it left and the
error returned. -/
structure Polled where
  batches : List ChangefeedBatch
  cursors : Cursors
  err : Option String

/-- The cursor after a page. -/
def pageCursor (cursor : PollCursor) (changes : List ChangefeedChange) : PollCursor :=
  changes.foldl (fun _ change => ⟨change.version, change.primaryKey⟩) cursor

/-- The loop of `pollTable`. `onBatch` answers from the batches it has seen; no fuel is left where
the result is `none`. -/
def pollPages (spec : TableSpec) (onBatch : List ChangefeedBatch → ChangefeedBatch → Option String) :
    Nat → PollCursor → Cursors → List ChangefeedBatch → Option Polled
  | 0, _, _, _ => none
  | fuel + 1, cursor, cursors, batches =>
    match changefeedPollingListTableChanges server types tables localRegion spec cursor.version
      cursor.primaryKey with
    | .error err => some ⟨batches, cursors, some err⟩
    | .ok changes =>
      let next := pageCursor cursor changes
      let handed := if changes.isEmpty then batches else batches ++ [⟨"", changes⟩]
      match (if changes.isEmpty then none else onBatch batches ⟨"", changes⟩) with
      | some err => some ⟨handed, cursors, some err⟩
      | none =>
        let cursors := cursors.setCursor spec.name next
        -- the literal of the source, not the page size of the query
        if changes.length < 1000 then some ⟨handed, cursors, none⟩
        else pollPages spec onBatch fuel next cursors handed

def pollTable (spec : TableSpec) (onBatch : List ChangefeedBatch → ChangefeedBatch → Option String)
    (cursors : Cursors) (fuel : Nat) : Option Polled :=
  pollPages server types tables localRegion spec onBatch fuel (cursors.cursor spec.name) cursors []

/-- The rows polled for a region: all of them where the table has no region column. -/
def isLocal (spec : TableSpec) (row : Row V) : Bool :=
  spec.regionField = "" || row spec.regionField == some (server.ofText localRegion)

/-- A place in the order of versions and keys; without a key it lies after the rows of its version. -/
structure Position (V : Type) where
  version : Int
  key : Option (List (WithTop V))

/-- The row has a later version, or the same one and a later key. -/
def Position.before (spec : TableSpec) (position : Position V) (row : Row V) : Bool :=
  match versionOf server (some spec.updatedAtField) row with
  | none => false
  | some version => decide (position.version < version) ||
    (decide (version = position.version) && position.key.any fun key => decide (key < spec.keyOf row))

/-- The rows of a table are read in the order of this. -/
def pollKey (spec : TableSpec) (row : Row V) : Lex (WithTop Int × List (WithTop V)) :=
  toLex (nullsLast (versionOf server (some spec.updatedAtField) row), spec.keyOf row)

def rowsAfter (spec : TableSpec) (position : Position V) (rows : List (Row V)) : List (Row V) :=
  Paging.ordered (pollKey server spec) (rows.filter fun row =>
    isLocal server localRegion spec row && position.before server spec row)

/-- A row as a batch carries it. -/
def pollingChangeOf (spec : TableSpec) (tableRef : String) (row : Row V) : ChangefeedChange :=
  ⟨spec.name, spec.partsOf types (server.toJsonb tableRef row), .upsert,
    (versionOf server (some spec.updatedAtField) row).getD 0, some (server.toJsonb tableRef row)⟩

/-- The place of a row that has a version. -/
def positionOf (spec : TableSpec) (row : Row V) : Position V :=
  ⟨(versionOf server (some spec.updatedAtField) row).getD 0, some (spec.keyOf row)⟩

section Page

variable {server types tables localRegion} {spec : TableSpec} {tableRef : String}
  (table : StoredTable server spec tableRef)

omit table in
theorem pollingQuery_limit (version : Int) (after : PrimaryKey) :
    (pollingQuery spec tableRef localRegion version after).2[(pollingQuery spec tableRef localRegion
      version after).1.limit - 1]? = some (.number 1000) := by
  by_cases region : spec.regionField = "" <;>
    by_cases resumes : (primaryKeyPayload after).isSome = true <;>
      simp [pollingQuery, region, resumes, defaultPollBatchSize]

omit table [LinearOrder V] in
theorem pollingQuery_sortKey (version : Int) (after : PrimaryKey) :
    (pollingQuery spec tableRef localRegion version after).1.sortKey server = pollKey server spec := by
  by_cases region : spec.regionField = "" <;>
    by_cases resumes : (primaryKeyPayload after).isSome = true <;>
      simp [pollingQuery, region, resumes, Query.sortKey, pollKey, TableSpec.keyOf, funext_iff]

omit table in
theorem pollingQuery_holds (version : Int) (after : PrimaryKey) (cursor row : Row V) :
    (pollingQuery spec tableRef localRegion version after).1.conditions.all (Condition.holds server
      (pollingQuery spec tableRef localRegion version after).2
        (pollingQuery spec tableRef localRegion version after).1.version cursor row) =
      (isLocal server localRegion spec row &&
        match versionOf server (some spec.updatedAtField) row with
        | none => false
        | some found => decide (version < found) || (decide (found = version) && !after.isEmpty &&
          rowAfter (spec.primaryKey.map row) (spec.primaryKey.map cursor))) := by
  cases after <;> by_cases region : spec.regionField = "" <;>
    cases versioned : versionOf server (some spec.updatedAtField) row <;>
      simp [pollingQuery, primaryKeyPayload, region, versioned, Condition.holds, isLocal]

/-- The query of a cursor returns the first rows after its position. -/
theorem run_pollingQuery {position : Position V} {after : PrimaryKey}
    (denotes : Denotes server spec tableRef after position.key) :
    (pollingQuery spec tableRef localRegion position.version after).1.run server
      (pollingQuery spec tableRef localRegion position.version after).2 table.rows =
        .ok ((rowsAfter server localRegion spec position table.rows).take 1000) := by
  obtain ⟨version, key⟩ := position
  have limited := @pollingQuery_limit localRegion spec tableRef version after
  cases key with
  | none =>
    obtain rfl : after = [] := denotes
    have bound : (pollingQuery spec tableRef localRegion version []).1.cursorRow server
        (pollingQuery spec tableRef localRegion version []).2 = .ok fun _ => none := by
      by_cases region : spec.regionField = "" <;>
        simp [pollingQuery, primaryKeyPayload, region, Query.cursorRow]
    rw [Query.run_eq bound limited, pollingQuery_sortKey, rowsAfter]
    congr 3
    apply List.filter_congr
    intro row _
    simp [pollingQuery_holds, Position.before]
  | some key =>
    obtain ⟨resumes, cursor, read, rfl, filled⟩ := denotes
    have bound : (pollingQuery spec tableRef localRegion version after).1.cursorRow server
        (pollingQuery spec tableRef localRegion version after).2 = .ok cursor := by
      have given : (primaryKeyPayload after).isSome = true := by simp [primaryKeyPayload, resumes]
      by_cases region : spec.regionField = "" <;>
        simp [pollingQuery, given, region, Query.cursorRow, read]
    rw [Query.run_eq bound limited, pollingQuery_sortKey, rowsAfter]
    congr 3
    apply List.filter_congr
    intro row mem
    have later := rowAfter_iff (table.notNull row mem) filled
    simp [pollingQuery_holds, Position.before, List.isEmpty_eq_false_iff.mpr resumes,
      TableSpec.keyOf, ← later]

theorem mem_of_mem_rowsAfter {position : Position V} {row : Row V}
    (mem : row ∈ rowsAfter server localRegion spec position table.rows) :
    row ∈ table.rows ∧ position.before server spec row = true := by
  have found := List.mem_filter.mp ((Paging.ordered_perm _ _).mem_iff.mp mem)
  exact ⟨found.1, (Bool.and_eq_true_iff.mp found.2).2⟩

theorem listTableChanges_eq (named : quoteTableName spec.name = .ok tableRef)
    (stored : tables tableRef = table.rows) {position : Position V} {after : PrimaryKey}
    (denotes : Denotes server spec tableRef after position.key) :
    changefeedPollingListTableChanges server types tables localRegion spec position.version after =
      .ok (((rowsAfter server localRegion spec position table.rows).take 1000).map
        (pollingChangeOf server types spec tableRef)) := by
  have run := @run_pollingQuery _ _ _ localRegion _ _ table _ _ denotes
  have carried : ∀ row ∈ (rowsAfter server localRegion spec position table.rows).take 1000,
      row ∈ table.rows ∧ position.before server spec row = true :=
    fun row mem => mem_of_mem_rowsAfter table (List.mem_of_mem_take mem)
  generalize (rowsAfter server localRegion spec position table.rows).take 1000 = page at run carried ⊢
  have scanned : page.mapM (scanPollingRow server types spec tableRef) =
      .ok (page.map (pollingChangeOf server types spec tableRef)) := by
    apply Fallible.mapM_eq_map
    intro row mem
    obtain ⟨inTable, before⟩ := carried row mem
    cases versioned : versionOf server (some spec.updatedAtField) row with
    | none => simp [Position.before, versioned] at before
    | some version =>
      rw [scanPollingRow, versioned]
      simp only [primaryKeyPartsFromMap_stored table types inTable]
      simp [pollingChangeOf, versioned, wrapError, Except.mapError, bind, Except.bind, pure,
        Except.pure]
  rw [changefeedPollingListTableChanges, named]
  simp only [bind, Except.bind, stored, run, wrapError, Except.mapError, scanned]

omit [LinearOrder V] in
theorem distinct_pollKey : table.rows.Pairwise (pollKey server spec · ≠ pollKey server spec ·) :=
  table.distinct.imp fun apart same => apart (Prod.ext_iff.mp same).2

omit table in
/-- What lies after a row lies after every position before it. -/
theorem before_positionOf {position : Position V} {last : Row V}
    (beyond : position.before server spec last = true) (row : Row V) :
    (positionOf server spec last).before server spec row =
      (position.before server spec row && decide (pollKey server spec last < pollKey server spec row)) := by
  cases lastVersion : versionOf server (some spec.updatedAtField) last with
  | none => simp [Position.before, lastVersion] at beyond
  | some v =>
    cases rowVersion : versionOf server (some spec.updatedAtField) row with
    | none => simp [Position.before, rowVersion]
    | some w =>
      rw [Bool.eq_iff_iff]
      simp only [Position.before, lastVersion, rowVersion, positionOf, pollKey, Option.getD_some,
        Bool.or_eq_true, Bool.and_eq_true, decide_eq_true_eq, Option.any_eq_true, Prod.Lex.toLex_lt_toLex,
        nullsLast_some, WithTop.coe_lt_coe, WithTop.coe_inj, Option.some.injEq, exists_eq_left'] at beyond ⊢
      constructor
      · rintro (later | ⟨rfl, later⟩)
        · have passed : position.version < w := by
            rcases beyond with before | ⟨same, -⟩ <;> omega
          exact ⟨.inl passed, .inl later⟩
        · rcases beyond with before | ⟨rfl, key, given, before⟩
          · exact ⟨.inl before, .inr ⟨rfl, later⟩⟩
          · exact ⟨.inr ⟨rfl, key, given, before.trans later⟩, .inr ⟨rfl, later⟩⟩
      · rintro ⟨-, later | ⟨rfl, later⟩⟩
        · exact .inl later
        · exact .inr ⟨rfl, later⟩

/-- After a page come the rows it left out. -/
theorem rowsAfter_page {position : Position V} {size : Nat} {last : Row V}
    (ends : ((rowsAfter server localRegion spec position table.rows).take size).getLast? =
      some last) :
    rowsAfter server localRegion spec (positionOf server spec last) table.rows =
      (rowsAfter server localRegion spec position table.rows).drop size := by
  have inPage := List.mem_of_mem_take (List.mem_of_getLast? ends)
  have beyond := (mem_of_mem_rowsAfter table inPage).2
  rw [rowsAfter, rowsAfter, ← Paging.ordered_after_page (distinct_pollKey table) ends]
  congr 1
  apply List.filter_congr
  intro row _
  rw [before_positionOf beyond, Bool.and_assoc]

end Page

/-! ## The loop -/

/-- A page as a batch. -/
def batchOf (spec : TableSpec) (tableRef : String) (page : List (Row V)) : ChangefeedBatch :=
  ⟨"", page.map (pollingChangeOf server types spec tableRef)⟩

/-- The cursor moves to the last change of a batch. -/
def batchCursor (cursor : PollCursor) (batch : ChangefeedBatch) : PollCursor :=
  pageCursor cursor batch.changes

/-- The cursor at a row. -/
def cursorAt (spec : TableSpec) (tableRef : String) (row : Row V) : PollCursor :=
  ⟨(positionOf server spec row).version, spec.partsOf types (server.toJsonb tableRef row)⟩

/-- The cursor after the rows a poll has got through. -/
def cursorAfter (spec : TableSpec) (tableRef : String) (cursor : PollCursor) (rows : List (Row V)) :
    PollCursor :=
  rows.getLast?.elim cursor (cursorAt server types spec tableRef)

section Loop

variable {server types tables localRegion} {spec : TableSpec} {tableRef : String}
  (table : StoredTable server spec tableRef)
  {onBatch : List ChangefeedBatch → ChangefeedBatch → Option String}

omit table [LinearOrder V] in
theorem pageCursor_of_getLast? {cursor : PollCursor} {page : List (Row V)} {last : Row V}
    (ends : page.getLast? = some last) :
    pageCursor cursor (page.map (pollingChangeOf server types spec tableRef)) =
      cursorAt server types spec tableRef last := by
  obtain ⟨earlier, rfl⟩ := List.getLast?_eq_some_iff.mp ends
  simp [pageCursor, cursorAt, pollingChangeOf, positionOf]

theorem pollPages_eq (named : quoteTableName spec.name = .ok tableRef)
    (stored : tables tableRef = table.rows) {fuel : Nat} {position : Position V} {cursor : PollCursor}
    {cursors : Cursors} {batches : List ChangefeedBatch} (same : cursor.version = position.version)
    (denotes : Denotes server spec tableRef cursor.primaryKey position.key)
    (current : cursors.cursor spec.name = cursor)
    (enough : (rowsAfter server localRegion spec position table.rows).length < fuel) :
    let result := Paging.handOver onBatch batchCursor cursor batches
      ((Chunks.chunks 1000 (rowsAfter server localRegion spec position table.rows)).map
        (batchOf server types spec tableRef))
    ∃ after : Cursors, pollPages server types tables localRegion spec onBatch fuel cursor cursors batches =
        some ⟨result.handed, after, result.refusal⟩ ∧
      after.cursor spec.name = result.position ∧
      ∀ other, other ≠ spec.name → after.cursor other = cursors.cursor other := by
  induction fuel generalizing position cursor cursors batches with
  | zero => omega
  | succ fuel ih =>
    have read := @listTableChanges_eq _ _ _ types _ localRegion _ _ table named stored _ _ denotes
    rw [pollPages, same, read]
    generalize rest : rowsAfter server localRegion spec position table.rows = rows at *
    cases rows with
    | nil =>
      exact ⟨cursors.setCursor spec.name cursor, rfl, cursors.cursor_setCursor_self _ _,
        fun _ => cursors.cursor_setCursor_of_ne cursor⟩
    | cons row more =>
      rw [Chunks.chunks_cons (by decide)]
      have filled : ((row :: more).take 1000).map (pollingChangeOf server types spec tableRef) ≠ [] := by
        simp
      generalize row :: more = rows at *
      simp only [List.map_cons, Paging.handOver, List.isEmpty_eq_false_iff.mpr filled, batchOf,
        Bool.false_eq_true, if_false, List.length_map, List.length_take]
      cases answer : onBatch batches
          ⟨"", (rows.take 1000).map (pollingChangeOf server types spec tableRef)⟩ with
      | some err => exact ⟨cursors, rfl, current, fun _ _ => rfl⟩
      | none =>
        by_cases short : rows.length < 1000
        · simp only [if_pos (show min 1000 rows.length < 1000 by omega),
            List.drop_eq_nil_of_le short.le]
          exact ⟨_, rfl, cursors.cursor_setCursor_self _ _,
            fun _ => cursors.cursor_setCursor_of_ne _⟩
        · -- a full page: the next one is read at its last row
          simp only [if_neg (show ¬min 1000 rows.length < 1000 by omega)]
          obtain ⟨last, ends⟩ := Paging.exists_getLast?_take (by decide) (Nat.le_of_not_lt short)
          have inPage := List.mem_of_mem_take (List.mem_of_getLast? ends)
          rw [← rest] at inPage
          have advanced := @rowsAfter_page _ _ _ localRegion _ _ table position 1000 last (rest ▸ ends)
          rw [rest] at advanced
          have onward := denotes_stored table types (mem_of_mem_rowsAfter table inPage).1
          have fewer : (rows.drop 1000).length < fuel := by
            rw [List.length_drop]
            omega
          rw [← advanced] at fewer ⊢
          simp only [batchCursor, pageCursor_of_getLast? ends]
          obtain ⟨after, ran, moved, kept⟩ := @ih (positionOf server spec last)
            (cursorAt server types spec tableRef last) (cursors.setCursor spec.name _)
              (batches ++ [⟨"", (rows.take 1000).map (pollingChangeOf server types spec tableRef)⟩])
                rfl onward (cursors.cursor_setCursor_self _ _) fewer
          exact ⟨after, ran, moved, fun other ne =>
            (kept other ne).trans (cursors.cursor_setCursor_of_ne _ ne)⟩

omit table [LinearOrder V] in
theorem foldl_batchCursor (cursor : PollCursor) (pages : List (List (Row V))) :
    (pages.map (batchOf server types spec tableRef)).foldl batchCursor cursor =
      cursorAfter server types spec tableRef cursor pages.flatten := by
  have folded : (pages.map (batchOf server types spec tableRef)).foldl batchCursor cursor =
      pageCursor cursor (pages.flatten.map (pollingChangeOf server types spec tableRef)) := by
    induction pages generalizing cursor with
    | nil => rfl
    | cons page pages ih =>
      rw [List.map_cons, List.foldl_cons, ih, List.flatten_cons, List.map_append, pageCursor,
        pageCursor, List.foldl_append]
      rfl
  rw [folded, cursorAfter]
  cases ends : pages.flatten.getLast? with
  | none => simp [pageCursor, List.getLast?_eq_none_iff.mp ends]
  | some last => exact pageCursor_of_getLast? ends

omit table [LinearOrder V] in
theorem flatMap_changes (pages : List (List (Row V))) :
    (pages.map (batchOf server types spec tableRef)).flatMap (·.changes) =
      pages.flatten.map (pollingChangeOf server types spec tableRef) := by
  rw [List.flatMap_map, List.map_flatten]
  rfl

/-- The cursor after some of the rows stands where the others are still to come. -/
theorem rowsAfter_append {position : Position V} {cursor : PollCursor} {taken left : List (Row V)}
    (same : cursor.version = position.version)
    (denotes : Denotes server spec tableRef cursor.primaryKey position.key)
    (split : rowsAfter server localRegion spec position table.rows = taken ++ left) :
    ∃ next : Position V,
      (cursorAfter server types spec tableRef cursor taken).version = next.version ∧
      Denotes server spec tableRef (cursorAfter server types spec tableRef cursor taken).primaryKey
        next.key ∧
      rowsAfter server localRegion spec next table.rows = left := by
  cases ends : taken.getLast? with
  | none =>
    obtain rfl := List.getLast?_eq_none_iff.mp ends
    exact ⟨position, same, denotes, split⟩
  | some last =>
    have page : (rowsAfter server localRegion spec position table.rows).take taken.length = taken := by
      simp [split]
    have inPage : last ∈ rowsAfter server localRegion spec position table.rows :=
      split ▸ List.mem_append_left left (List.mem_of_getLast? ends)
    rw [cursorAfter, ends]
    refine ⟨positionOf server spec last, rfl,
      denotes_stored table types (mem_of_mem_rowsAfter table inPage).1, ?_⟩
    rw [rowsAfter_page table (page.symm ▸ ends), split, List.drop_left]

omit table in
/-- More fuel changes no result. -/
theorem pollPages_mono {fuel more : Nat} {cursor : PollCursor} {cursors : Cursors}
    {batches : List ChangefeedBatch} {polled : Polled}
    (ran : pollPages server types tables localRegion spec onBatch fuel cursor cursors batches =
      some polled) (le : fuel ≤ more) :
    pollPages server types tables localRegion spec onBatch more cursor cursors batches = some polled := by
  induction fuel generalizing more cursor cursors batches with
  | zero => cases ran
  | succ fuel ih =>
    obtain ⟨more, rfl⟩ : ∃ k, more = k + 1 := ⟨more - 1, by omega⟩
    rw [pollPages] at ran ⊢
    split at ran
    · exact ran
    · simp only at ran ⊢
      split at ran
      · exact ran
      · split at ran
        · rwa [if_pos ‹_›]
        · rw [if_neg ‹_›]
          exact ih ran (by omega)

/-- A poll hands over the pages of the rows after the cursor. -/
theorem pollTable_hands (named : quoteTableName spec.name = .ok tableRef)
    (stored : tables tableRef = table.rows) {position : Position V} {cursors : Cursors}
    (same : (cursors.cursor spec.name).version = position.version)
    (denotes : Denotes server spec tableRef (cursors.cursor spec.name).primaryKey position.key) :
    ∃ (result : Paging.HandOver ChangefeedBatch PollCursor String) (after : Cursors),
      Paging.Handed onBatch batchCursor (cursors.cursor spec.name) []
        ((Chunks.chunks 1000 (rowsAfter server localRegion spec position table.rows)).map
          (batchOf server types spec tableRef)) result ∧
      (∀ fuel, (rowsAfter server localRegion spec position table.rows).length < fuel →
        pollTable server types tables localRegion spec onBatch cursors fuel =
          some ⟨result.handed, after, result.refusal⟩) ∧
      after.cursor spec.name = result.position ∧
      ∀ other, other ≠ spec.name → after.cursor other = cursors.cursor other := by
  obtain ⟨after, ran, moved, kept⟩ := @pollPages_eq _ _ server types tables localRegion spec tableRef
    table onBatch named stored _ position _ cursors [] same denotes rfl (Nat.lt_succ_self _)
  refine ⟨_, after, Paging.handOver_handed _ _ _ _ _, ?_, moved, kept⟩
  intro fuel enough
  exact pollPages_mono ran enough

/-- A poll whose batches are all taken emits the rows after the cursor. -/
theorem pollTable_of_accepting (named : quoteTableName spec.name = .ok tableRef)
    (stored : tables tableRef = table.rows) {position : Position V} {cursors : Cursors}
    (same : (cursors.cursor spec.name).version = position.version)
    (denotes : Denotes server spec tableRef (cursors.cursor spec.name).primaryKey position.key)
    (accepts : ∀ before batch, onBatch before batch = none) :
    ∃ polled : Polled, (∀ fuel, (rowsAfter server localRegion spec position table.rows).length < fuel →
        pollTable server types tables localRegion spec onBatch cursors fuel = some polled) ∧
      polled.err = none ∧ polled.batches.flatMap (·.changes) =
        (rowsAfter server localRegion spec position table.rows).map
          (pollingChangeOf server types spec tableRef) := by
  obtain ⟨result, after, handed, ran, -, -⟩ := @pollTable_hands _ _ server types tables localRegion spec
    tableRef table onBatch named stored position cursors same denotes
  refine ⟨_, ran, ?_⟩
  cases handed with
  | all =>
    rw [List.nil_append, flatMap_changes, Chunks.flatten_chunks (by decide)]
    exact ⟨rfl, rfl⟩
  | refused _ _ _ _ _ _ refusal =>
    rw [accepts] at refusal
    cases refusal

/-- A poll of a table that does not change ends. If every batch is taken, the batches hold the local
rows after the cursor, each once and in the order of versions and keys, and the cursor ends at the
last of them. If a batch is refused, the cursor is left at the last row taken, where the next poll
finds exactly the rows that were not. -/
theorem pollTable_emits (named : quoteTableName spec.name = .ok tableRef)
    (stored : tables tableRef = table.rows) {position : Position V} {cursors : Cursors}
    (same : (cursors.cursor spec.name).version = position.version)
    (denotes : Denotes server spec tableRef (cursors.cursor spec.name).primaryKey position.key)
    (onBatch : List ChangefeedBatch → ChangefeedBatch → Option String) :
    ∃ (rows : List (Row V)) (polled : Polled),
      rows.Perm (table.rows.filter fun row =>
        isLocal server localRegion spec row && position.before server spec row) ∧
      rows.Pairwise (pollKey server spec · < pollKey server spec ·) ∧
      (∀ fuel, rows.length < fuel →
        pollTable server types tables localRegion spec onBatch cursors fuel = some polled) ∧
      (∀ other, other ≠ spec.name → polled.cursors.cursor other = cursors.cursor other) ∧
      (polled.err = none →
        polled.batches.flatMap (·.changes) = rows.map (pollingChangeOf server types spec tableRef) ∧
        polled.cursors.cursor spec.name =
          cursorAfter server types spec tableRef (cursors.cursor spec.name) rows) ∧
      ∀ err, polled.err = some err → ∃ (taken : List (List (Row V))) (page left : List (Row V)),
        rows = taken.flatten ++ (page ++ left) ∧
        polled.batches = (taken ++ [page]).map (batchOf server types spec tableRef) ∧
        onBatch (taken.map (batchOf server types spec tableRef))
          (batchOf server types spec tableRef page) = some err ∧
        polled.cursors.cursor spec.name =
          cursorAfter server types spec tableRef (cursors.cursor spec.name) taken.flatten ∧
        ∀ accepting : List ChangefeedBatch → ChangefeedBatch → Option String,
          (∀ before batch, accepting before batch = none) →
          ∃ second : Polled, (∀ fuel, rows.length < fuel →
              pollTable server types tables localRegion spec accepting polled.cursors fuel =
                some second) ∧
            second.err = none ∧ second.batches.flatMap (·.changes) =
              (page ++ left).map (pollingChangeOf server types spec tableRef) := by
  obtain ⟨result, after, handed, ran, moved, kept⟩ := @pollTable_hands _ _ server types tables
    localRegion spec tableRef table onBatch named stored position cursors same denotes
  have whole := Chunks.flatten_chunks (show 0 < 1000 by decide)
    (rowsAfter server localRegion spec position table.rows)
  refine ⟨rowsAfter server localRegion spec position table.rows, _, Paging.ordered_perm _ _,
    Paging.ordered_strict ((distinct_pollKey table).filter _), ran, kept, ?_, ?_⟩
  · intro clean
    cases handed with
    | all =>
      rw [List.nil_append, flatMap_changes, whole, moved, foldl_batchCursor, whole]
      exact ⟨rfl, rfl⟩
    | refused => cases clean
  · intro err failed
    cases handed with
    | all => cases failed
    | refused earlier piece later err split _ refusal =>
      cases failed
      obtain ⟨taken, onward, cut, rfl, tail⟩ := List.map_eq_append_iff.mp split
      obtain ⟨page, later, rfl, rfl, rfl⟩ := List.map_eq_cons_iff.mp tail
      rw [cut, List.flatten_append, List.flatten_cons] at whole
      have stopped : after.cursor spec.name = cursorAfter server types spec tableRef
          (cursors.cursor spec.name) taken.flatten := by
        rw [moved, foldl_batchCursor]
      obtain ⟨next, version, key, left⟩ := @rowsAfter_append _ _ server types localRegion spec tableRef
        table position _ _ _ same denotes whole.symm
      refine ⟨taken, page, later.flatten, whole.symm, by simp, refusal, stopped, ?_⟩
      intro accepting accepts
      rw [← stopped] at version key
      obtain ⟨second, reran, clean, emitted⟩ := @pollTable_of_accepting _ _ server types tables localRegion
        spec tableRef table accepting named stored next after version key accepts
      rw [left] at reran emitted
      refine ⟨second, ?_, clean, emitted⟩
      intro fuel enough
      apply reran
      rw [← whole, List.length_append] at enough
      omega

end Loop

/-- A poll from the older of two users on. -/
theorem pollTable_emits_users : ∃ polled : Polled,
    (∀ fuel, 1 < fuel → pollTable usersReadServer (fun _ => .string) (fun _ => usersTable.rows) "eu"
      usersSpec (fun _ _ => none) (Cursors.setCursor ∅ "users" ⟨1, userKey "b"⟩) fuel = some polled) ∧
    polled.batches.flatMap (·.changes) =
      [pollingChangeOf usersReadServer (fun _ => .string) usersSpec "\"users\"" (storedUser "a" "||")] ∧
    polled.cursors.cursor "users" = ⟨2, userKey "a"⟩ := by
  have after : Denotes usersReadServer usersSpec "\"users\"" (userKey "b") (some [("b" : String)]) :=
    ⟨by decide, _, rfl, rfl, by decide⟩
  obtain ⟨rows, polled, perm, -, ran, -, taken, refused⟩ := @pollTable_emits _ _ usersReadServer
    (fun _ => .string) (fun _ => usersTable.rows) "eu" usersSpec "\"users\"" usersTable rfl rfl
      ⟨1, some [("b" : String)]⟩ (Cursors.setCursor ∅ "users" ⟨1, userKey "b"⟩) rfl after fun _ _ => none
  obtain rfl : rows = [storedUser "a" "||"] := List.perm_singleton.mp perm
  have clean : polled.err = none := by
    by_contra failed
    obtain ⟨err, failed⟩ := Option.ne_none_iff_exists'.mp failed
    obtain ⟨_, _, _, -, -, refusal, -⟩ := refused err failed
    cases refusal
  exact ⟨polled, ran, taken clean⟩

end Transmogr.PollPaging
