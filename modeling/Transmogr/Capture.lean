import Transmogr.Apply
import Transmogr.Changefeed
import Transmogr.Strconv

/-! Change data capture as `service/changefeed/adapter/capture.go` runs it over
a logical replication stream. -/
namespace Transmogr

open Sql

inductive TupleDataType where
  | null
  | toast
  | text
  | binary
  deriving DecidableEq, Repr

def TupleDataType.letter : TupleDataType → String
  | .null => "n"
  | .toast => "u"
  | .text => "t"
  | .binary => "b"

structure TupleColumn where
  dataType : TupleDataType
  data : String
  deriving DecidableEq, Repr

/-- The columns of a tuple in relation order. -/
abbrev TupleData := List TupleColumn

structure PostgresRelation where
  tableName : String
  primaryKey : List String
  primaryKeyTypes : Std.ExtTreeMap String PrimaryKeyType
  columnByName : Std.ExtTreeMap String Nat
  regionField : String

inductive LogicalMessage where
  | relation (relationID : Nat) (schema relationName : String) (columns : List String)
  | insert (relationID : Nat) (tuple : Option TupleData)
  | update (relationID : Nat) (oldTuple newTuple : Option TupleData)
  | delete (relationID : Nat) (oldTuple : Option TupleData)
  | begin (finalLSN : Nat)
  | commit
  | other

/-- One XLogData message: where its data starts in the WAL, how many bytes the
logical message has, and what it says. -/
structure XLogData where
  walStart : Nat
  length : Nat
  message : LogicalMessage

/-- `xld.WALStart + pglogrepl.LSN(len(xld.WALData))` on 64 bits. -/
def XLogData.nextLSN (xld : XLogData) : Nat := (xld.walStart + xld.length) % 2 ^ 64

structure CaptureConfig where
  localRegion : String
  tableByName : Std.ExtTreeMap String TableSpec
  updateDiff : Bool
  /-- `ChangefeedCapturePrimaryKeyTypes` -/
  primaryKeyTypes : String → Except String (Std.ExtTreeMap String PrimaryKeyType)
  /-- `LSN.String` of the replication library -/
  lsnString : Nat → String

/-- Integers and booleans keep their text, everything else becomes a string. -/
def primaryKeyValueFromString (typ : PrimaryKeyType) (value : String) : Except String Bytes :=
  match typ with
  | .integer =>
    match parseInt value with
    | some _ => .ok (Json.utf8 value)
    | none => .error ("parse integer primary key value " ++ quoted value)
  | .boolean =>
    if parsesBool value then .ok (Json.utf8 value)
    else .error ("parse bool primary key value " ++ quoted value)
  | _ => .ok (Json.quote value)

/-- The column of a tuple by name; `none` if the relation or the tuple lacks it. -/
def PostgresRelation.column (relation : PostgresRelation) (tuple : TupleData) (name : String) :
    Option TupleColumn :=
  relation.columnByName[name]?.bind fun index => tuple[index]?

/-- The key part of one key column. -/
def PostgresRelation.primaryKeyPart (relation : PostgresRelation) (tuple : TupleData)
    (pkColumn : String) : Except String PrimaryKeyPart :=
  match relation.column tuple pkColumn with
  | none => .error ("cdc tuple for " ++ relation.tableName ++ " missing primary key column " ++
      quoted pkColumn)
  | some column =>
    if column.data = "" then
      .error ("cdc tuple for " ++ relation.tableName ++ " missing primary key value for " ++
        quoted pkColumn)
    else do
      let pkType := relation.primaryKeyTypes[pkColumn]?.getD .unspecified
      let value ← wrapError ("marshal cdc primary key for " ++ relation.tableName ++ " column " ++
        quoted pkColumn) (primaryKeyValueFromString pkType column.data)
      return ⟨pkColumn, pkType, value⟩

def PostgresRelation.extractPrimaryKey (relation : PostgresRelation) (tuple : Option TupleData) :
    Except String PrimaryKey :=
  match tuple with
  | none => .error "cdc tuple is required"
  | some tuple => relation.primaryKey.mapM (relation.primaryKeyPart tuple)

theorem PostgresRelation.primaryKeyPart_eq_ok {relation : PostgresRelation} {tuple : TupleData}
    {pkColumn : String} {part : PrimaryKeyPart}
    (made : relation.primaryKeyPart tuple pkColumn = .ok part) :
    part.column = pkColumn ∧ part.type = relation.primaryKeyTypes[pkColumn]?.getD .unspecified ∧
      ∃ column, relation.column tuple pkColumn = some column ∧ column.data ≠ "" ∧
        primaryKeyValueFromString part.type column.data = .ok part.value := by
  unfold primaryKeyPart at made
  split at made
  · cases made
  · next column found =>
    split at made
    · cases made
    · next filled =>
      obtain ⟨value, accepted, same⟩ := Fallible.bind_eq_ok.mp made
      cases same
      exact ⟨rfl, rfl, column, found, filled, wrapError_eq_ok.mp accepted⟩

def lsnToVersion (cfg : CaptureConfig) (lsn : Nat) : Except String Int :=
  if (lsn : Int) > Json.maxInt64 then .error ("lsn exceeds int64 version range: " ++ cfg.lsnString lsn)
  else .ok lsn

def tupleColumnToJSON (column : TupleColumn) : Bytes :=
  if column.dataType = .null then Json.nullText else Json.quote column.data

def buildTuplePayload (relation : PostgresRelation) (tuple : Option TupleData) :
    Except String Object :=
  match tuple with
  | none => .error "cdc tuple is required"
  | some tuple =>
    relation.columnByName.toList.foldlM (fun payload entry =>
      match tuple[entry.2]? with
      | none => .ok payload
      | some column =>
        if column.dataType = .toast then
          .error ("cdc tuple for " ++ relation.tableName ++
            " contains unchanged TOAST value for column " ++ quoted entry.1 ++
            "; enable replication.source.cdc.update_diff to publish WAL-native updates")
        else .ok (payload.insert entry.1 (tupleColumnToJSON column))) ∅

/-- Key columns, and the other columns whose new value differs from the old one. -/
def buildUpdateDiffPayload (relation : PostgresRelation) (oldTuple newTuple : TupleData) : Object :=
  relation.columnByName.toList.foldl (fun payload entry =>
    match newTuple[entry.2]? with
    | none => payload
    | some newColumn =>
      if entry.1 ∈ relation.primaryKey then payload.insert entry.1 (tupleColumnToJSON newColumn)
      else if newColumn.dataType = .toast then payload
      else if oldTuple[entry.2]? = some newColumn then payload
      else payload.insert entry.1 (tupleColumnToJSON newColumn)) ∅

def tupleRegionIsLocal (relation : PostgresRelation) (tuple : Option TupleData)
    (localRegion : String) : Bool :=
  if relation.regionField = "" ∨ localRegion = "" then false
  else match tuple with
    | none => false
    | some tuple =>
      match relation.column tuple relation.regionField with
      | none => false
      | some column => column.dataType == .text && column.data == localRegion

def deleteRegionIsLocal (relation : PostgresRelation) (tuple : Option TupleData)
    (localRegion : String) : Except String Bool :=
  let context := "delete event for " ++ relation.tableName ++ ": "
  if relation.regionField = "" ∨ localRegion = "" then
    .error (context ++ "region field or local region is not configured")
  else match tuple with
    | none => .error (context ++ "old tuple is nil; REPLICA IDENTITY FULL is required")
    | some tuple =>
      match relation.column tuple relation.regionField with
      | none => .error (context ++ "region column " ++ quoted relation.regionField ++
          " not found in tuple; REPLICA IDENTITY FULL is required")
      | some column =>
        if column.dataType ≠ .text then
          .error (context ++ "region column " ++ quoted relation.regionField ++ " has data type " ++
            quoted column.dataType.letter ++ " instead of text; " ++
            "REPLICA IDENTITY FULL is required for region-filtered tables")
        else .ok (column.data == localRegion)

abbrev Relations := Std.ExtTreeMap Nat PostgresRelation

/-- An insert or a full update; `none` if the row is not captured. -/
def buildWriteChange (cfg : CaptureConfig) (relations : Relations) (relationID : Nat)
    (tuple : Option TupleData) (lsn : Nat) (operation : ReplicationOperation) :
    Except String (Option ChangefeedChange) :=
  match relations[relationID]? with
  | none => .ok none
  | some relation =>
    if !tupleRegionIsLocal relation tuple cfg.localRegion then .ok none
    else do
      let primaryKey ← relation.extractPrimaryKey tuple
      let version ← lsnToVersion cfg lsn
      let payload ← buildTuplePayload relation tuple
      return some ⟨relation.tableName, primaryKey, operation, version, some payload⟩

def buildInsertChange (cfg : CaptureConfig) (relations : Relations) (relationID : Nat)
    (tuple : Option TupleData) (lsn : Nat) : Except String (Option ChangefeedChange) :=
  buildWriteChange cfg relations relationID tuple lsn .insert

def buildUpdateDiffChange (cfg : CaptureConfig) (relations : Relations) (relationID : Nat)
    (oldTuple newTuple : Option TupleData) (lsn : Nat) : Except String (Option ChangefeedChange) :=
  match relations[relationID]? with
  | none => .ok none
  | some relation =>
    if !tupleRegionIsLocal relation newTuple cfg.localRegion then .ok none
    else match oldTuple with
      | none => .error ("cdc update diff for " ++ relation.tableName ++
          ": old tuple is nil; REPLICA IDENTITY FULL is required")
      | some oldTuple => do
        let primaryKey ← relation.extractPrimaryKey newTuple
        let version ← lsnToVersion cfg lsn
        let payload := buildUpdateDiffPayload relation oldTuple (newTuple.getD [])
        return some ⟨relation.tableName, primaryKey, .update, version, some payload⟩

def buildUpdateChange (cfg : CaptureConfig) (relations : Relations) (relationID : Nat)
    (oldTuple newTuple : Option TupleData) (lsn : Nat) : Except String (Option ChangefeedChange) :=
  if cfg.updateDiff then buildUpdateDiffChange cfg relations relationID oldTuple newTuple lsn
  else buildWriteChange cfg relations relationID newTuple lsn .update

def buildDeleteChange (cfg : CaptureConfig) (relations : Relations) (relationID : Nat)
    (tuple : Option TupleData) (lsn : Nat) : Except String (Option ChangefeedChange) :=
  match relations[relationID]? with
  | none => .ok none
  | some relation => do
    if !(← deleteRegionIsLocal relation tuple cfg.localRegion) then return none
    let primaryKey ← relation.extractPrimaryKey tuple
    let version ← lsnToVersion cfg lsn
    return some ⟨relation.tableName, primaryKey, .delete, version, none⟩

section Built

variable {cfg : CaptureConfig} {relations : Relations} {relationID lsn : Nat}
  {tuple oldTuple newTuple : Option TupleData} {operation : ReplicationOperation}
  {change : ChangefeedChange}

theorem lsnToVersion_eq_ok {version : Int} (ok : lsnToVersion cfg lsn = .ok version) : version = lsn := by
  rw [lsnToVersion] at ok
  split at ok <;> cases ok
  rfl

theorem buildWriteChange_eq_some
    (ok : buildWriteChange cfg relations relationID tuple lsn operation = .ok (some change)) :
    ∃ relation key payload, relations[relationID]? = some relation ∧
      tupleRegionIsLocal relation tuple cfg.localRegion = true ∧
      relation.extractPrimaryKey tuple = .ok key ∧ buildTuplePayload relation tuple = .ok payload ∧
      change = ⟨relation.tableName, key, operation, lsn, some payload⟩ := by
  rw [buildWriteChange] at ok
  split at ok
  · cases ok
  · next relation known =>
    by_cases here : tupleRegionIsLocal relation tuple cfg.localRegion = true
    · rw [here] at ok
      obtain ⟨key, extracted, ok⟩ := Fallible.bind_eq_ok.mp ok
      obtain ⟨version, converted, ok⟩ := Fallible.bind_eq_ok.mp ok
      obtain ⟨payload, built, ok⟩ := Fallible.bind_eq_ok.mp ok
      cases lsnToVersion_eq_ok converted
      cases ok
      exact ⟨relation, key, payload, known, here, extracted, built, rfl⟩
    · simp [here] at ok

theorem buildUpdateDiffChange_eq_some
    (ok : buildUpdateDiffChange cfg relations relationID oldTuple newTuple lsn = .ok (some change)) :
    ∃ relation old key, relations[relationID]? = some relation ∧
      tupleRegionIsLocal relation newTuple cfg.localRegion = true ∧ oldTuple = some old ∧
      relation.extractPrimaryKey newTuple = .ok key ∧
      change = ⟨relation.tableName, key, .update, lsn,
        some (buildUpdateDiffPayload relation old (newTuple.getD []))⟩ := by
  rw [buildUpdateDiffChange] at ok
  split at ok
  · cases ok
  · next relation known =>
    by_cases here : tupleRegionIsLocal relation newTuple cfg.localRegion = true
    · rw [here] at ok
      cases oldTuple with
      | none => cases ok
      | some old =>
        obtain ⟨key, extracted, ok⟩ := Fallible.bind_eq_ok.mp ok
        obtain ⟨version, converted, ok⟩ := Fallible.bind_eq_ok.mp ok
        cases lsnToVersion_eq_ok converted
        cases ok
        exact ⟨relation, old, key, known, here, rfl, extracted, rfl⟩
    · simp [here] at ok

theorem buildDeleteChange_eq_some
    (ok : buildDeleteChange cfg relations relationID tuple lsn = .ok (some change)) :
    ∃ relation key, relations[relationID]? = some relation ∧
      deleteRegionIsLocal relation tuple cfg.localRegion = .ok true ∧
      relation.extractPrimaryKey tuple = .ok key ∧
      change = ⟨relation.tableName, key, .delete, lsn, none⟩ := by
  rw [buildDeleteChange] at ok
  split at ok
  · cases ok
  · next relation known =>
    obtain ⟨owned, asked, ok⟩ := Fallible.bind_eq_ok.mp ok
    cases owned with
    | false => cases ok
    | true =>
      obtain ⟨key, extracted, ok⟩ := Fallible.bind_eq_ok.mp ok
      obtain ⟨version, converted, ok⟩ := Fallible.bind_eq_ok.mp ok
      cases lsnToVersion_eq_ok converted
      cases ok
      exact ⟨relation, key, known, asked, extracted, rfl⟩

end Built

/-- The configured table a relation message is about, if any. -/
def resolveRelation (cfg : CaptureConfig) (schema relationName : String)
    (columns : List String) : Except String (Option PostgresRelation) :=
  let columnByName := columns.zipIdx.foldl (fun map entry => map.insert entry.1 entry.2)
    (∅ : Std.ExtTreeMap String Nat)
  let tableName :=
    if schema ≠ "" ∧ schema ≠ "public" then schema ++ "." ++ relationName else relationName
  match cfg.tableByName[tableName]? with
  | none => .ok none
  | some spec => do
    let pkTypes ← wrapError ("resolve relation primary key types for " ++ tableName)
      (cfg.primaryKeyTypes tableName)
    return some ⟨tableName, spec.primaryKey, pkTypes, columnByName, spec.regionField⟩

/-! ## The loop -/

structure CaptureState where
  relations : Relations
  relationIDByTable : Std.ExtTreeMap String Nat
  durableLSN : Nat
  txChanges : List ChangefeedChange
  txID : String

def CaptureState.initial (startLSN : Nat) : CaptureState := ⟨∅, ∅, startLSN, [], ""⟩

def CaptureState.addRelation (s : CaptureState) (relationID : Nat) (relation : PostgresRelation) :
    CaptureState :=
  let relations := match s.relationIDByTable[relation.tableName]? with
    | some previousID => if previousID ≠ relationID then s.relations.erase previousID else s.relations
    | none => s.relations
  { s with
    relations := relations.insert relationID relation
    relationIDByTable := s.relationIDByTable.insert relation.tableName relationID }

def CaptureState.append (s : CaptureState) (change : Option ChangefeedChange) : CaptureState :=
  { s with txChanges := s.txChanges ++ change.toList }

/-- The batch a commit hands to `onBatch`, if the transaction has changes. -/
def CaptureState.pendingBatch (s : CaptureState) : Option ChangefeedBatch :=
  if s.txChanges.isEmpty then none else some ⟨s.txID, s.txChanges⟩

/-- One received message; `onBatch` is called at a commit with changes. -/
def captureStep (cfg : CaptureConfig) (onBatch : ChangefeedBatch → Except String Unit)
    (s : CaptureState) (xld : XLogData) : Except String CaptureState :=
  match xld.message with
  | .relation relationID schema relationName columns => do
    match ← resolveRelation cfg schema relationName columns with
    | some relation => return s.addRelation relationID relation
    | none => return s
  | .insert relationID tuple => do
    return s.append (← buildInsertChange cfg s.relations relationID tuple xld.nextLSN)
  | .update relationID oldTuple newTuple => do
    return s.append (← buildUpdateChange cfg s.relations relationID oldTuple newTuple xld.nextLSN)
  | .delete relationID oldTuple => do
    return s.append (← buildDeleteChange cfg s.relations relationID oldTuple xld.nextLSN)
  | .begin finalLSN => .ok { s with txChanges := [], txID := cfg.lsnString finalLSN }
  | .commit => do
    match s.pendingBatch with
    | some batch => onBatch batch
    | none => .ok ()
    return { s with txChanges := [], txID := "", durableLSN := xld.nextLSN }
  | .other => .ok s

theorem captureStep_commit {cfg : CaptureConfig} {onBatch : ChangefeedBatch → Except String Unit}
    {s next : CaptureState} {xld : XLogData} (commit : xld.message = .commit) :
    captureStep cfg onBatch s xld = .ok next ↔
      (∀ batch, s.pendingBatch = some batch → onBatch batch = .ok ()) ∧
        next = { s with txChanges := [], txID := "", durableLSN := xld.nextLSN } := by
  rw [captureStep, commit]
  cases pending : s.pendingBatch with
  | none => exact ⟨fun ok => ⟨nofun, by cases ok; rfl⟩, fun ⟨_, eq⟩ => by rw [eq]; rfl⟩
  | some batch =>
    simp only [Fallible.bind_eq_ok]
    constructor
    · rintro ⟨_, accepted, ok⟩
      cases ok
      exact ⟨fun _ eq => by cases eq; exact accepted, rfl⟩
    · rintro ⟨accepted, eq⟩
      exact ⟨(), accepted batch rfl, by rw [eq]; rfl⟩

/-- What the change builders make of a message. -/
def changeOf (cfg : CaptureConfig) (relations : Relations) (xld : XLogData) :
    Except String (Option ChangefeedChange) :=
  match xld.message with
  | .insert relationID tuple => buildInsertChange cfg relations relationID tuple xld.nextLSN
  | .update relationID oldTuple newTuple =>
    buildUpdateChange cfg relations relationID oldTuple newTuple xld.nextLSN
  | .delete relationID oldTuple => buildDeleteChange cfg relations relationID oldTuple xld.nextLSN
  | _ => .ok none

def LogicalMessage.isCommit : LogicalMessage → Bool
  | commit => true
  | _ => false

/-- Only a handled commit moves the position reported as flushed. -/
theorem captureStep_durableLSN {cfg : CaptureConfig}
    {onBatch : ChangefeedBatch → Except String Unit} {s next : CaptureState} {xld : XLogData}
    (ok : captureStep cfg onBatch s xld = .ok next) :
    next.durableLSN = if xld.message.isCommit then xld.nextLSN else s.durableLSN := by
  cases message : xld.message with
  | commit =>
    obtain ⟨_, rfl⟩ := (captureStep_commit message).mp ok
    rfl
  | relation id schema name columns =>
    simp only [captureStep, message] at ok
    obtain ⟨resolved, _, ok⟩ := Fallible.bind_eq_ok.mp ok
    cases resolved <;> cases ok <;> rfl
  | insert | update | delete =>
    simp only [captureStep, message] at ok
    obtain ⟨_, _, ok⟩ := Fallible.bind_eq_ok.mp ok
    cases ok
    rfl
  | begin | other =>
    simp only [captureStep, message] at ok
    cases ok
    rfl

def upperHex (n : Nat) : String :=
  String.ofList ((Nat.toDigits 16 n).map Char.toUpper)

/-- The users of `eu` as the capture is configured for them. -/
def usersCapture (updateDiff : Bool) : CaptureConfig where
  localRegion := "eu"
  tableByName := .ofList [("users", usersSpec)]
  updateDiff
  primaryKeyTypes _ := .ok (.ofList [("id", PrimaryKeyType.string)])
  lsnString lsn := upperHex (lsn / 2 ^ 32) ++ "/" ++ upperHex (lsn % 2 ^ 32)

def usersFeed : ChangefeedConfig := ⟨"eu", "cdc", .fullSync, 1000, ["us"]⟩

end Transmogr
