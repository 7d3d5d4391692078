import Transmogr.ReadQueries

/-! A snapshot is sent in chunks: `SendToPeer` reads on after the last key it sent, until a chunk is
short. -/
namespace Transmogr.SnapshotPaging

open Sql

structure SnapshotChunk where
  rows : List SnapshotRow
  last : Bool

structure LeaseConfig where
  localRegion : String
  instanceID : String
  ttl : Int
  renewInterval : Int

def normalizedLeaseConfig : Option LeaseConfig → Option LeaseConfig
  | none => none
  | some cfg =>
    if cfg.localRegion = "" ∨ cfg.instanceID = "" ∨ cfg.ttl ≤ 0 ∨ cfg.renewInterval ≤ 0 then none
    else some cfg

/-- A service as `NewServiceWithPipelineAndLeases` builds it. -/
structure StateService where
  chunkSize : Nat
  lease : Option LeaseConfig
  positive : 0 < chunkSize

def defaultChunkSize : Nat := 1000

def newServiceWithPipelineAndLeases (chunkSize : Int) (leaseCfg : Option LeaseConfig) :
    StateService where
  chunkSize := if chunkSize ≤ 0 then defaultChunkSize else chunkSize.toNat
  lease := normalizedLeaseConfig leaseCfg
  positive := by
    split
    · decide
    · omega

variable {V : Type} [LinearOrder V] (repo : Repository) (server : ReadServer V)
  (types : String → PrimaryKeyType) (tables : String → List (Row V))

/-- One row of `ReadSnapshotChunk`. -/
def scanSnapshotRow (table : String) (spec : TableSpec) (tableRef : String) (row : Row V) :
    Except String SnapshotRow := do
  let payload := server.toJsonb tableRef row
  let primaryKey ← wrapError ("extract snapshot primary key for " ++ table)
    (primaryKeyPartsFromMap payload spec.primaryKey types)
  return ⟨primaryKey, some payload, 0⟩

def readSnapshotChunk (req : SnapshotReadRequest) : Except String SnapshotChunk := do
  let (spec, tableRef) ← tableSpec repo req.table
  let (query, args) := readSnapshotQuery spec tableRef req
  let rows ← wrapError ("read snapshot chunk for " ++ req.table)
    (query.run server args (tables tableRef))
  let chunkRows ← rows.mapM (scanSnapshotRow server types req.table spec tableRef)
  return ⟨chunkRows, (chunkRows.length : Int) < req.limit⟩

/-- The region asked for; a service without leases asks for none. -/
def StateService.localRegion (service : StateService) : String :=
  service.lease.elim "" (·.localRegion)

def readLocalChunk (service : StateService) (table : String) (afterPrimaryKey : PrimaryKey) :
    Except String SnapshotChunk :=
  readSnapshotChunk repo server types tables
    ⟨service.localRegion, table, afterPrimaryKey, service.chunkSize⟩

/-- What a call of `SendToPeer` came to: the chunks passed to `send`, and the error returned. -/
structure Sent where
  chunks : List SnapshotChunk
  err : Option String

/-- The loop of `SendToPeer`. `send` answers from the chunks it has seen; no fuel is left where the
result is `none`. -/
def sendChunks (service : StateService) (table : String)
    (send : List SnapshotChunk → SnapshotChunk → Option String) :
    Nat → PrimaryKey → List SnapshotChunk → Option Sent
  | 0, _, _ => none
  | fuel + 1, afterPrimaryKey, sent =>
    match readLocalChunk repo server types tables service table afterPrimaryKey with
    | .error err => some ⟨sent, some err⟩
    | .ok chunk =>
      match send sent chunk with
      | some err => some ⟨sent ++ [chunk], some err⟩
      | none =>
        match chunk.last, chunk.rows.getLast? with
        | false, some row => sendChunks service table send fuel row.primaryKey (sent ++ [chunk])
        | _, _ => some ⟨sent ++ [chunk], none⟩

/-- `SendToPeer`; `acquired` is what `TryStateAcquireLease` answers where leases are on. -/
def sendToPeer (service : StateService) (acquired : Except String Bool) (table : String)
    (afterPrimaryKey : PrimaryKey) (send : List SnapshotChunk → SnapshotChunk → Option String)
    (fuel : Nat) : Option Sent :=
  let stream := sendChunks repo server types tables service table send fuel afterPrimaryKey []
  match service.lease, acquired with
  | none, _ => stream
  | some _, .error err => some ⟨[], some err⟩
  | some _, .ok false => some ⟨[], some "lease not acquired"⟩
  | some _, .ok true => stream

/-- The rows a request for a region asks for: all of them where the table has no region column or no
region is given. -/
def ofRegion (spec : TableSpec) (localRegion : String) (row : Row V) : Bool :=
  spec.regionField = "" || localRegion = "" ||
    row spec.regionField == some (server.ofText localRegion)

/-- The rows after a position, in the order of their keys. -/
def rowsAfter (spec : TableSpec) (localRegion : String) (position : Option (List (WithTop V)))
    (rows : List (Row V)) : List (Row V) :=
  Paging.ordered spec.keyOf (rows.filter fun row =>
    ofRegion server spec localRegion row && position.all fun key => decide (key < spec.keyOf row))

/-- A row as a chunk carries it. -/
def snapshotRow (spec : TableSpec) (tableRef : String) (row : Row V) : SnapshotRow :=
  ⟨spec.partsOf types (server.toJsonb tableRef row), some (server.toJsonb tableRef row), 0⟩

def chunkOf (spec : TableSpec) (tableRef : String) (size : Nat) (page : List (Row V)) :
    SnapshotChunk :=
  ⟨page.map (snapshotRow server types spec tableRef), page.length < size⟩

section Chunk

variable {repo server types tables} {spec : TableSpec} {tableRef : String}
  (table : StoredTable server spec tableRef)

omit table in
theorem readSnapshotQuery_holds (req : SnapshotReadRequest) (cursor row : Row V) :
    (readSnapshotQuery spec tableRef req).1.conditions.all (Condition.holds server
      (readSnapshotQuery spec tableRef req).2 (readSnapshotQuery spec tableRef req).1.version cursor row) =
        (ofRegion server spec req.localRegion row && (req.afterPrimaryKey.isEmpty ||
          rowAfter (spec.primaryKey.map row) (spec.primaryKey.map cursor))) := by
  cases resumes : req.afterPrimaryKey <;> by_cases column : spec.regionField = "" <;>
    by_cases region : req.localRegion = "" <;>
      simp [readSnapshotQuery, resumes, column, region, Condition.holds, ofRegion]

/-- The query of a request returns the first rows after its position. -/
theorem run_readSnapshotQuery {req : SnapshotReadRequest} {position : Option (List (WithTop V))}
    (denotes : Denotes server spec tableRef req.afterPrimaryKey position) :
    (readSnapshotQuery spec tableRef req).1.run server (readSnapshotQuery spec tableRef req).2
      table.rows = .ok ((rowsAfter server spec req.localRegion position table.rows).take
        req.limit.toNat) := by
  have limited : (readSnapshotQuery spec tableRef req).2[(readSnapshotQuery spec tableRef req).1.limit
      - 1]? = some (.number req.limit) := by
    simp [readSnapshotQuery]
  have order : ∀ rows : List (Row V), Paging.ordered
      ((readSnapshotQuery spec tableRef req).1.sortKey server) rows =
        Paging.ordered spec.keyOf rows := by
    apply Paging.ordered_congr
    intro a b
    simp [Query.sortKey, readSnapshotQuery, TableSpec.keyOf, versionOf, Prod.Lex.le_iff]
  cases position with
  | none =>
    have start : req.afterPrimaryKey = [] := denotes
    have bound : (readSnapshotQuery spec tableRef req).1.cursorRow server
        (readSnapshotQuery spec tableRef req).2 = .ok fun _ => none := by
      simp [readSnapshotQuery, start, Query.cursorRow]
    rw [Query.run_eq bound limited, order, rowsAfter]
    simp [readSnapshotQuery_holds, start]
  | some key =>
    obtain ⟨resumes, cursor, read, rfl, filled⟩ := denotes
    have bound : (readSnapshotQuery spec tableRef req).1.cursorRow server
        (readSnapshotQuery spec tableRef req).2 = .ok cursor := by
      by_cases filters : spec.regionField ≠ "" ∧ req.localRegion ≠ "" <;>
        simp [readSnapshotQuery, resumes, Query.cursorRow, filters, read]
    rw [Query.run_eq bound limited, order, rowsAfter]
    congr 3
    apply List.filter_congr
    intro row mem
    have later := rowAfter_iff (table.notNull row mem) filled
    simp [readSnapshotQuery_holds, List.isEmpty_eq_false_iff.mpr resumes, TableSpec.keyOf, ← later]

theorem mem_of_mem_rowsAfter {localRegion : String} {position : Option (List (WithTop V))}
    {row : Row V} (mem : row ∈ rowsAfter server spec localRegion position table.rows) :
    row ∈ table.rows ∧ position.all (fun key => decide (key < spec.keyOf row)) = true := by
  have found := List.mem_filter.mp ((Paging.ordered_perm _ _).mem_iff.mp mem)
  exact ⟨found.1, (Bool.and_eq_true_iff.mp found.2).2⟩

theorem readSnapshotChunk_eq {req : SnapshotReadRequest} {position : Option (List (WithTop V))}
    (found : tableSpec repo req.table = .ok (spec, tableRef))
    (stored : tables tableRef = table.rows)
    (denotes : Denotes server spec tableRef req.afterPrimaryKey position) {size : Nat}
    (limit : req.limit = size) :
    readSnapshotChunk repo server types tables req =
      .ok (chunkOf server types spec tableRef size
        ((rowsAfter server spec req.localRegion position table.rows).take size)) := by
  have run := run_readSnapshotQuery table denotes
  rw [limit, Int.toNat_natCast] at run
  have carried : ∀ row ∈ (rowsAfter server spec req.localRegion position table.rows).take size,
      row ∈ table.rows := by
    intro row mem
    exact (mem_of_mem_rowsAfter table (List.mem_of_mem_take mem)).1
  generalize (rowsAfter server spec req.localRegion position table.rows).take size = page at run carried ⊢
  have rows : page.mapM (scanSnapshotRow server types req.table spec tableRef) =
      .ok (page.map (snapshotRow server types spec tableRef)) := by
    apply Fallible.mapM_eq_map
    intro row mem
    rw [scanSnapshotRow, primaryKeyPartsFromMap_stored table types (carried row mem)]
    rfl
  rw [readSnapshotChunk, found]
  simp only [bind, Except.bind, stored, run, wrapError, Except.mapError, rows, limit]
  simp [chunkOf, pure, Except.pure]

/-- After a page come the rows it left out. -/
theorem rowsAfter_page {localRegion : String} {position : Option (List (WithTop V))} {size : Nat}
    {last : Row V}
    (ends : ((rowsAfter server spec localRegion position table.rows).take size).getLast? = some last) :
    rowsAfter server spec localRegion (some (spec.keyOf last)) table.rows =
      (rowsAfter server spec localRegion position table.rows).drop size := by
  have inPage := List.mem_of_mem_take (List.mem_of_getLast? ends)
  have beyond := (mem_of_mem_rowsAfter table inPage).2
  rw [rowsAfter, rowsAfter, ← Paging.ordered_after_page table.distinct ends]
  congr 1
  apply List.filter_congr
  intro row _
  by_cases later : spec.keyOf last < spec.keyOf row
  · cases position with
    | none => simp [later]
    | some key =>
      have passed : key < spec.keyOf last := by simpa using beyond
      simp [later, passed.trans later]
  · simp [later]

end Chunk

/-! ## The loop -/

section Loop

/-- The chunks of an undisturbed call. -/
def chunksAfter (service : StateService) (spec : TableSpec) (tableRef : String) (rows : List (Row V))
    (position : Option (List (WithTop V))) : List SnapshotChunk :=
  (Paging.pages service.chunkSize (rowsAfter server spec service.localRegion position rows)).map
    (chunkOf server types spec tableRef service.chunkSize)

variable {repo server types tables} {spec : TableSpec} {name tableRef : String}
  (table : StoredTable server spec tableRef) {service : StateService}
  {send : List SnapshotChunk → SnapshotChunk → Option String}

/-- The key a chunk leaves to resume at. -/
def resumeKey (after : PrimaryKey) (chunk : SnapshotChunk) : PrimaryKey :=
  chunk.rows.getLast?.elim after (·.primaryKey)

theorem sendChunks_eq (found : tableSpec repo name = .ok (spec, tableRef))
    (stored : tables tableRef = table.rows) {fuel : Nat} {position : Option (List (WithTop V))}
    {after : PrimaryKey} {sent : List SnapshotChunk}
    (denotes : Denotes server spec tableRef after position)
    (enough : (rowsAfter server spec service.localRegion position table.rows).length < fuel) :
    sendChunks repo server types tables service name send fuel after sent =
      let result := Paging.handOver send resumeKey after sent
        (chunksAfter server types service spec tableRef table.rows position)
      some ⟨result.handed, result.refusal⟩ := by
  induction fuel generalizing position after sent with
  | zero => omega
  | succ fuel ih =>
    have read : readLocalChunk repo server types tables service name after = .ok _ :=
      readSnapshotChunk_eq table found stored denotes rfl
    rw [sendChunks, read, chunksAfter]
    generalize rest : rowsAfter server spec service.localRegion position table.rows = rows at *
    by_cases short : rows.length < service.chunkSize
    · rw [Paging.pages_of_lt short, List.take_of_length_le short.le]
      simp only [List.map_cons, List.map_nil, Paging.handOver]
      cases send sent (chunkOf server types spec tableRef service.chunkSize rows) with
      | some err => rfl
      | none => simp [chunkOf, short]
    · rw [Paging.pages_of_le service.positive (by omega)]
      simp only [List.map_cons, Paging.handOver]
      cases send sent (chunkOf server types spec tableRef service.chunkSize
        (rows.take service.chunkSize)) with
      | some err => rfl
      | none =>
        -- a full page is not the last, and reading resumes at its last row
        have size := service.positive
        obtain ⟨last, ends⟩ := Paging.exists_getLast?_take size (Nat.le_of_not_lt short)
        have full : (chunkOf server types spec tableRef service.chunkSize
            (rows.take service.chunkSize)).last = false := by
          simp [chunkOf]
          omega
        have lastRow : (chunkOf server types spec tableRef service.chunkSize
            (rows.take service.chunkSize)).rows.getLast? =
              some (snapshotRow server types spec tableRef last) := by
          rw [chunkOf, List.getLast?_map, ends]
          rfl
        have inPage := List.mem_of_mem_take (List.mem_of_getLast? ends)
        rw [← rest] at inPage ends
        have advanced := rowsAfter_page table ends
        have onward := denotes_stored table types (mem_of_mem_rowsAfter table inPage).1
        rw [rest] at advanced
        have fewer : (rowsAfter server spec service.localRegion (some (spec.keyOf last))
            table.rows).length < fuel := by
          rw [advanced, List.length_drop]
          omega
        simp only [full, lastRow, resumeKey, Option.elim]
        rw [← advanced]
        exact ih onward fewer

omit table in
/-- The loop runs where no lease is asked for, or it is acquired. -/
theorem sendToPeer_of_held {acquired : Except String Bool}
    (held : service.lease = none ∨ acquired = .ok true) {after : PrimaryKey} {fuel : Nat} :
    sendToPeer repo server types tables service acquired name after send fuel =
      sendChunks repo server types tables service name send fuel after [] := by
  cases lease : service.lease with
  | none => simp [sendToPeer, lease]
  | some cfg =>
    have acquires := held.resolve_left (by simp [lease])
    simp [sendToPeer, lease, acquires]

/-- A snapshot of a table that does not change ends after finitely many chunks. They hold the rows of
the region after the resume key, each once and in the order of the keys; all but the final chunk are
full, and only that one is marked as last. A chunk that `send` refuses is the last one sent. -/
theorem sendToPeer_delivers (found : tableSpec repo name = .ok (spec, tableRef))
    (stored : tables tableRef = table.rows) {position : Option (List (WithTop V))} {after : PrimaryKey}
    (denotes : Denotes server spec tableRef after position) {acquired : Except String Bool}
    (held : service.lease = none ∨ acquired = .ok true)
    (send : List SnapshotChunk → SnapshotChunk → Option String) :
    ∃ (rows : List (Row V)) (full : List SnapshotChunk) (final : SnapshotChunk)
        (result : Paging.HandOver SnapshotChunk PrimaryKey String),
      rows.Perm (table.rows.filter fun row => ofRegion server spec service.localRegion row &&
        position.all fun key => decide (key < spec.keyOf row)) ∧
      rows.Pairwise (spec.keyOf · < spec.keyOf ·) ∧
      (full ++ [final]).flatMap (·.rows) = rows.map (snapshotRow server types spec tableRef) ∧
      (∀ chunk ∈ full, chunk.rows.length = service.chunkSize ∧ chunk.last = false) ∧
      final.last = true ∧
      Paging.Handed send resumeKey after [] (full ++ [final]) result ∧
      ∀ fuel, rows.length < fuel →
        sendToPeer repo server types tables service acquired name after send fuel =
          some ⟨result.handed, result.refusal⟩ := by
  have handed := Paging.handOver_handed send resumeKey after []
    (chunksAfter server types service spec tableRef table.rows position)
  obtain ⟨full, final, split, sizes, short⟩ := Paging.pages_eq_append service.positive
    (rowsAfter server spec service.localRegion position table.rows)
  have chunks : chunksAfter server types service spec tableRef table.rows position =
      full.map (chunkOf server types spec tableRef service.chunkSize) ++
        [chunkOf server types spec tableRef service.chunkSize final] := by
    rw [chunksAfter, split, List.map_append, List.map_singleton]
  have whole := Paging.flatten_pages service.chunkSize
    (rowsAfter server spec service.localRegion position table.rows)
  rw [split] at whole
  refine ⟨rowsAfter server spec service.localRegion position table.rows, _, _, _,
    Paging.ordered_perm _ _, Paging.ordered_strict (table.distinct.filter _), ?_, ?_, ?_,
    chunks ▸ handed, ?_⟩
  · rw [← whole, List.map_flatten, List.flatMap_append, List.flatMap_map, List.map_append,
      List.flatten_append]
    simp [chunkOf, List.flatMap_def]
  · intro chunk mem
    obtain ⟨page, inFull, rfl⟩ := List.mem_map.mp mem
    simp [chunkOf, sizes page inFull]
  · simpa [chunkOf] using short
  · intro fuel enough
    have loop := @sendChunks_eq _ _ repo server types tables spec name tableRef table service send found
      stored fuel position after [] denotes enough
    rw [sendToPeer_of_held held, loop, chunks]

end Loop

/-- A snapshot that resumes after the first of two users. -/
theorem sendToPeer_delivers_users : ∃ chunks : List SnapshotChunk,
    chunks.flatMap (·.rows) =
      [snapshotRow usersReadServer (fun _ => .string) usersSpec "\"users\"" (storedUser "b" "|")] ∧
    ∀ fuel, 1 < fuel →
      sendToPeer usersRepository usersReadServer (fun _ => .string) (fun _ => usersTable.rows)
        (newServiceWithPipelineAndLeases 1 (some ⟨"eu", "node", 30, 10⟩)) (.ok true) "users"
          (userKey "a") (fun _ _ => none) fuel = some ⟨chunks, none⟩ := by
  have after : Denotes usersReadServer usersSpec "\"users\"" (userKey "a") (some [("a" : String)]) :=
    ⟨by decide, _, rfl, rfl, by decide⟩
  obtain ⟨rows, full, final, result, perm, -, sent, -, -, handed, ran⟩ :=
    @sendToPeer_delivers _ _ usersRepository usersReadServer (fun _ => .string)
      (fun _ => usersTable.rows) usersSpec "users" "\"users\"" usersTable
        (newServiceWithPipelineAndLeases 1 (some ⟨"eu", "node", 30, 10⟩)) rfl rfl _ _ after (.ok true)
          (.inr rfl) fun _ _ => none
  obtain rfl : rows = [storedUser "b" "|"] := List.perm_singleton.mp perm
  cases handed with
  | all => exact ⟨_, sent, ran⟩
  | refused _ _ _ _ _ _ refusal => cases refusal

end Transmogr.SnapshotPaging
