import Transmogr.CaptureRun

/-! By which relation message a captured change is read. The loop keeps one relation for each ID, and
a message that names a table that is not configured leaves the one it has. -/
namespace Transmogr.CaptureRelations

open CaptureRun Sql

/-- The relation a row message is about. -/
def rowRelation : LogicalMessage → Option Nat
  | .insert relationID _ | .update relationID _ _ | .delete relationID _ => some relationID
  | _ => none

/-- The tuple a row message takes its key from. -/
def keyTuple : LogicalMessage → Option TupleData
  | .insert _ tuple | .update _ _ tuple | .delete _ tuple => tuple
  | _ => none

/-- What the last relation message with the ID says: schema, name and columns. -/
def latestRelation (relationID : Nat) (seen : List XLogData) :
    Option (String × String × List String) :=
  seen.foldl (fun latest xld =>
    match xld.message with
    | .relation id schema relationName columns =>
      if id = relationID then some (schema, relationName, columns) else latest
    | _ => latest) none

/-- The last relation message with the ID names a configured table, as this relation. -/
def Current (cfg : CaptureConfig) (seen : List XLogData) (relationID : Nat)
    (relation : PostgresRelation) : Prop :=
  ∃ schema relationName columns,
    latestRelation relationID seen = some (schema, relationName, columns) ∧
      resolveRelation cfg schema relationName columns = .ok (some relation)

/-- A message of the stream is read by the last relation message before it, and the change is made of
that relation's table, key columns and column positions. -/
def ReadByLatest (cfg : CaptureConfig) (stream : List XLogData) (change : ChangefeedChange) : Prop :=
  ∃ before xld after relationID relation, stream = before ++ xld :: after ∧
    rowRelation xld.message = some relationID ∧ Current cfg before relationID relation ∧
    change.table = relation.tableName ∧
    relation.extractPrimaryKey (keyTuple xld.message) = .ok change.primaryKey ∧
    change.primaryKey.map (·.column) = relation.primaryKey ∧
    changeOf cfg ((∅ : Relations).insert relationID relation) xld = .ok (some change)

/-- No ID that stands for a configured table is announced again under a name that is not. -/
def StaysConfigured (cfg : CaptureConfig) (stream : List XLogData) : Prop :=
  ∀ before xld after relationID schema relationName columns, stream = before ++ xld :: after →
    xld.message = .relation relationID schema relationName columns →
    resolveRelation cfg schema relationName columns = .ok none →
      ∀ relation, ¬Current cfg before relationID relation

section Changes

variable {cfg : CaptureConfig} {relations : Relations} {xld : XLogData} {change : ChangefeedChange}

/-- The builders look at the relation of the message and no other. -/
theorem changeOf_congr {other : Relations} {relationID : Nat}
    (row : rowRelation xld.message = some relationID)
    (same : relations[relationID]? = other[relationID]?) :
    changeOf cfg relations xld = changeOf cfg other xld := by
  unfold changeOf
  cases message : xld.message with
  | insert | update | delete =>
    rw [message] at row
    cases row
    simp only [buildInsertChange, buildUpdateChange, buildUpdateDiffChange, buildWriteChange,
      buildDeleteChange, same]
  | _ => rfl

theorem extractPrimaryKey_columns {relation : PostgresRelation} {tuple : Option TupleData}
    {key : PrimaryKey} (extracted : relation.extractPrimaryKey tuple = .ok key) :
    key.map (·.column) = relation.primaryKey := by
  cases tuple with
  | none => cases extracted
  | some tuple =>
    have kept := Fallible.map_of_mapM (p := id) (q := (·.column)) ?_ extracted
    · rwa [List.map_id] at kept
    · intro column part made
      exact (PostgresRelation.primaryKeyPart_eq_ok made).1

/-- A change is made of the relation that the cache has for its message. -/
theorem changeOf_eq_some (built : changeOf cfg relations xld = .ok (some change)) :
    ∃ relationID relation, rowRelation xld.message = some relationID ∧
      relations[relationID]? = some relation ∧ change.table = relation.tableName ∧
      relation.extractPrimaryKey (keyTuple xld.message) = .ok change.primaryKey := by
  unfold changeOf at built
  cases message : xld.message with
  | insert id tuple =>
    rw [message] at built
    obtain ⟨relation, key, _, known, _, extracted, _, rfl⟩ := buildWriteChange_eq_some built
    exact ⟨id, relation, rfl, known, rfl, extracted⟩
  | update id old new =>
    simp only [message, buildUpdateChange] at built
    split at built
    · obtain ⟨relation, _, key, known, _, _, extracted, rfl⟩ := buildUpdateDiffChange_eq_some built
      exact ⟨id, relation, rfl, known, rfl, extracted⟩
    · obtain ⟨relation, key, _, known, _, extracted, _, rfl⟩ := buildWriteChange_eq_some built
      exact ⟨id, relation, rfl, known, rfl, extracted⟩
  | delete id tuple =>
    rw [message] at built
    obtain ⟨relation, key, known, _, extracted, rfl⟩ := buildDeleteChange_eq_some built
    exact ⟨id, relation, rfl, known, rfl, extracted⟩
  | _ =>
    rw [message] at built
    cases built

theorem changeOf_of_rowOf {row : CaptureOrder.WalRow}
    (found : CaptureOrder.rowOf cfg relations xld = some row) :
    changeOf cfg relations xld = .ok (some row.change) := by
  rw [CaptureOrder.rowOf] at found
  split at found
  · next built =>
    cases found
    exact built
  · cases found

end Changes

/-- What holds after the messages seen: the cache has what the last messages said, and every change
in hand or handed over was read by the last message before it. -/
structure Traced (cfg : CaptureConfig) (seen : List XLogData) (s : CaptureState)
    (calls : List ChangefeedBatch) : Prop where
  fresh : ∀ relationID relation, s.relations[relationID]? = some relation →
    Current cfg seen relationID relation
  pending : ∀ change ∈ s.txChanges, ReadByLatest cfg seen change
  handed : ∀ batch ∈ calls, ∀ change ∈ batch.changes, ReadByLatest cfg seen change

section Runs

variable {cfg : CaptureConfig} {seen : List XLogData} {xld : XLogData} {s next : CaptureState}
  {calls : List ChangefeedBatch} {change : ChangefeedChange}

theorem ReadByLatest.append (read : ReadByLatest cfg seen change) (more : List XLogData) :
    ReadByLatest cfg (seen ++ more) change := by
  obtain ⟨before, xld, after, id, relation, rfl, rest⟩ := read
  exact ⟨before, xld, after ++ more, id, relation, by simp, rest⟩

theorem latestRelation_append (relationID : Nat) :
    latestRelation relationID (seen ++ [xld]) = match xld.message with
      | .relation id schema relationName columns =>
        if id = relationID then some (schema, relationName, columns)
        else latestRelation relationID seen
      | _ => latestRelation relationID seen := by
  rw [latestRelation, List.foldl_append]
  rfl

/-- Of the other relations an announcement can only drop one. -/
theorem addRelation_of_ne {relationID other : Nat} {announced relation : PostgresRelation}
    (ne : relationID ≠ other)
    (cached : (s.addRelation relationID announced).relations[other]? = some relation) :
    s.relations[other]? = some relation := by
  simp only [CaptureState.addRelation, Std.ExtTreeMap.getElem?_insert, Nat.compare_eq_eq, ne,
    if_false] at cached
  split at cached
  · split at cached
    · rw [Std.ExtTreeMap.getElem?_erase] at cached
      split at cached
      · cases cached
      · exact cached
    · exact cached
  · exact cached

/-- A cache that has what the last messages said still does after the next one, unless that one takes
a configured name away. -/
theorem fresh_announce (fresh : ∀ relationID relation, s.relations[relationID]? = some relation →
      Current cfg seen relationID relation)
    (stays : ∀ relationID schema relationName columns,
      xld.message = .relation relationID schema relationName columns →
      resolveRelation cfg schema relationName columns = .ok none →
        ∀ relation, ¬Current cfg seen relationID relation)
    (resolves : ∀ relationID schema relationName columns,
      xld.message = .relation relationID schema relationName columns →
        ∃ relation, resolveRelation cfg schema relationName columns = .ok relation)
    {relationID : Nat} {relation : PostgresRelation}
    (cached : (announce cfg s xld).relations[relationID]? = some relation) :
    Current cfg (seen ++ [xld]) relationID relation := by
  unfold Current
  rw [latestRelation_append]
  cases message : xld.message with
  | relation id schema name columns =>
    obtain ⟨resolved, found⟩ := resolves _ _ _ _ message
    simp only [announce, message, found] at cached
    by_cases same : id = relationID
    · subst same
      simp only [if_true]
      cases resolved with
      | none => exact absurd (fresh _ _ cached) (stays _ _ _ _ message found relation)
      | some announced =>
        obtain rfl : announced = relation := by
          simpa [CaptureState.addRelation] using cached
        exact ⟨schema, name, columns, rfl, found⟩
    · simp only [if_neg same]
      apply fresh
      cases resolved with
      | none => exact cached
      | some announced => exact addRelation_of_ne same cached
  | _ =>
    simp only [announce, message] at cached
    exact fresh _ _ cached

theorem changes_of_mem_callOf {batch : ChangefeedBatch} (mem : batch ∈ callOf s xld) :
    batch.changes = s.txChanges := by
  unfold callOf CaptureState.pendingBatch at mem
  split at mem
  · split at mem
    · cases mem
    · rw [List.mem_singleton.mp mem]
  · cases mem

/-- A call hands over changes that were in hand. -/
theorem Traced.call (traced : Traced cfg seen s calls) :
    ∀ batch ∈ calls ++ callOf s xld, ∀ change ∈ batch.changes, ReadByLatest cfg seen change := by
  intro batch mem change inBatch
  rcases List.mem_append.mp mem with old | made
  · exact traced.handed batch old change inBatch
  · rw [changes_of_mem_callOf made] at inBatch
    exact traced.pending change inBatch

theorem captureStep_traced {onBatch : ChangefeedBatch → Except String Unit}
    (traced : Traced cfg seen s calls)
    (stays : ∀ relationID schema relationName columns,
      xld.message = .relation relationID schema relationName columns →
      resolveRelation cfg schema relationName columns = .ok none →
        ∀ relation, ¬Current cfg seen relationID relation)
    (ok : captureStep cfg onBatch s xld = .ok next) :
    Traced cfg (seen ++ [xld]) next (calls ++ callOf s xld) := by
  have resolves : ∀ relationID schema relationName columns,
      xld.message = .relation relationID schema relationName columns →
        ∃ relation, resolveRelation cfg schema relationName columns = .ok relation := by
    intro id schema name columns message
    simp only [captureStep, message] at ok
    obtain ⟨resolved, found, -⟩ := Fallible.bind_eq_ok.mp ok
    exact ⟨resolved, found⟩
  constructor
  · intro id relation cached
    rw [(captureStep_cache ok).1] at cached
    exact fresh_announce traced.fresh stays resolves cached
  · intro change mem
    rw [CaptureOrder.captureStep_txChanges ok] at mem
    split at mem
    · cases mem
    · cases mem
    · rcases List.mem_append.mp mem with old | added
      · exact (traced.pending change old).append [xld]
      · obtain ⟨row, found, rfl⟩ := List.mem_map.mp added
        have built := changeOf_of_rowOf (Option.mem_toList.mp found)
        obtain ⟨id, relation, about, cached, table, key⟩ := changeOf_eq_some built
        refine ⟨seen, xld, [], id, relation, rfl, about, traced.fresh id relation cached, table, key,
          extractPrimaryKey_columns key, ?_⟩
        rw [← built]
        apply changeOf_congr about
        rw [cached, Std.ExtTreeMap.getElem?_insert_self]
  · intro batch mem change inBatch
    exact (traced.call batch mem change inBatch).append [xld]

theorem run_traced {onBatch : List ChangefeedBatch → ChangefeedBatch → Except String Unit}
    {stream : List XLogData} (traced : Traced cfg seen s calls)
    (stays : StaysConfigured cfg (seen ++ stream)) :
    ∀ batch ∈ (run cfg onBatch s calls (stream.map .xlog)).calls, ∀ change ∈ batch.changes,
      ReadByLatest cfg (seen ++ stream) change := by
  induction stream generalizing seen s calls with
  | nil => simpa [run] using traced.handed
  | cons xld stream ih =>
    rw [List.map_cons, run]
    split
    · intro batch mem change inBatch
      exact (traced.call batch mem change inBatch).append (xld :: stream)
    · next next ok =>
      have stepped := captureStep_traced traced (fun _ _ _ _ => stays seen xld stream _ _ _ _ rfl) ok
      have onward := ih stepped (by simpa using stays)
      simpa using onward

/-- While no ID is taken from a configured table to a name that is not configured, every change that
`onBatch` receives carries the table, the key columns and the column positions of the last relation
message with its ID, and that message names a configured table. -/
theorem changes_read_by_latest {onBatch : List ChangefeedBatch → ChangefeedBatch → Except String Unit}
    {startLSN : Nat} {stream : List Received} (stays : StaysConfigured cfg (xlogs stream)) :
    ∀ batch ∈ (run cfg onBatch (.initial startLSN) [] stream).calls, ∀ change ∈ batch.changes,
      ReadByLatest cfg (xlogs stream) change := by
  have start : Traced cfg [] (.initial startLSN) [] :=
    ⟨fun _ _ cached => by simp [CaptureState.initial] at cached, nofun, nofun⟩
  rw [run_xlogs]
  exact run_traced start stays

end Runs

def renamed (relationName : String) : List Received :=
  [.xlog CaptureOrder.usersRelation,
    .xlog ⟨300, 40, .relation 1 "public" relationName ["id", "name", "region"]⟩] ++
  (CaptureOrder.insertUser 350 400 "a").map .xlog

/-- The rows of a table that lost its configured name are still sent as rows of that table. -/
theorem renamed_table_captured :
    (run (usersCapture false) (fun _ _ => .ok ()) (.initial 50) [] (renamed "users_old")).calls.map
      (fun batch => batch.changes.map (·.table)) = [["users"]] ∧
    latestRelation 1 (xlogs (renamed "users_old")) = some ("public", "users_old", ["id", "name", "region"]) ∧
    (usersCapture false).tableByName["users_old"]? = none := by
  refine ⟨?_, ?_, ?_⟩ <;> decide

theorem changes_read_by_latest_users :
    (run (usersCapture false) (fun _ _ => .ok ()) (.initial 50) [] (renamed "users")).calls.length = 1 ∧
    ∀ batch ∈ (run (usersCapture false) (fun _ _ => .ok ()) (.initial 50) [] (renamed "users")).calls,
      ∀ change ∈ batch.changes,
        ReadByLatest (usersCapture false) (xlogs (renamed "users")) change := by
  refine ⟨by decide, changes_read_by_latest ?_⟩
  intro before xld after id schema name columns split message rejected
  have mem : xld ∈ xlogs (renamed "users") := by simp [split]
  simp only [renamed, CaptureOrder.insertUser, List.map_cons, List.map_nil, List.cons_append,
    List.nil_append, xlogs, List.mem_cons, List.not_mem_nil, or_false] at mem
  rcases mem with rfl | rfl | rfl | rfl | rfl <;> cases message <;> cases rejected

end Transmogr.CaptureRelations
