import Transmogr.Capture
import Transmogr.Maps
import Transmogr.Ownership

/-! An update captured as the columns that changed, or as the whole row: what the receiver's UPDATE
makes of either. -/
namespace Transmogr.UpdateDiff

open Sql

section Payloads

variable {relation : PostgresRelation} {old new : TupleData} {name : String}

/-- What the loop over the columns puts under a column of the new tuple. -/
def diffEntry (relation : PostgresRelation) (old : TupleData) (name : String) (column : TupleColumn) :
    Option Bytes :=
  if name ∈ relation.primaryKey then some (tupleColumnToJSON column)
  else if column.dataType = .toast then none
  else if relation.column old name = some column then none
  else some (tupleColumnToJSON column)

theorem getElem?_buildUpdateDiffPayload :
    (buildUpdateDiffPayload relation old new)[name]? =
      (relation.column new name).bind (diffEntry relation old name) := by
  have filled : buildUpdateDiffPayload relation old new =
      Maps.fill Prod.fst (fun entry : String × Nat => new[entry.2]?.bind fun column =>
        if entry.1 ∈ relation.primaryKey then some (tupleColumnToJSON column)
        else if column.dataType = .toast then none
        else if old[entry.2]? = some column then none
        else some (tupleColumnToJSON column)) relation.columnByName.toList := by
    unfold buildUpdateDiffPayload Maps.fill
    apply List.foldl_ext
    intro payload entry _
    dsimp only
    cases new[entry.2]? with
    | none => rfl
    | some column =>
      simp only [Option.bind_some]
      split_ifs <;> rfl
  rw [filled, Maps.getElem?_fill_toList, PostgresRelation.column]
  cases found : relation.columnByName[name]? with
  | none => rfl
  | some index =>
    simp only [Option.bind_some]
    congr 1
    funext column
    simp [diffEntry, PostgresRelation.column, found]

/-- Without placeholders the whole row is a payload. -/
theorem buildTuplePayload_plain
    (plain : ∀ name column, relation.column new name = some column → column.dataType ≠ .toast) :
    ∃ payload, buildTuplePayload relation (some new) = .ok payload ∧
      ∀ name : String, payload[name]? = (relation.column new name).map tupleColumnToJSON := by
  refine ⟨Maps.fill Prod.fst (fun entry : String × Nat => new[entry.2]?.map tupleColumnToJSON)
    relation.columnByName.toList, ?_, fun name => ?_⟩
  · apply Fallible.foldlM_eq_ok
    rintro ⟨name, index⟩ mem payload
    dsimp only
    cases at_index : new[index]? with
    | none => rfl
    | some column =>
      apply if_neg
      apply plain name column
      simp [PostgresRelation.column, Std.ExtTreeMap.mem_toList_iff_getElem?_eq_some.mp mem, at_index]
  · rw [Maps.getElem?_fill_toList, PostgresRelation.column]
    cases relation.columnByName[name]? <;> rfl

end Payloads

section Update

variable {V : Type} [DecidableEq V] (repo : Repository) (server : Server V)

/-- The text argument of an update, if the statement has a place for it. -/
def regionTexts (spec : TableSpec) (peerRegion : String) : List String :=
  if spec.regionField ≠ "" ∧ peerRegion ≠ "" then [peerRegion] else []

/-- What the statement for a payload matches and sets; the one for a payload with nothing but the
key sets nothing. -/
def applyPayload (spec : TableSpec) (tableRef peerRegion : String) (payload : Option Object)
    (tables : Tables V) : Except String (Tables V) := do
  match ← buildBatchPartialUpdateQuery spec tableRef payload with
  | .selectNothing _ => return tables
  | query => exec server query ⟨[payload], regionTexts spec peerRegion⟩ tables

/-- One `Update` event. -/
def applyUpdate (event : ReplicationEvent) (tables : Tables V) : Except String (Tables V) := do
  let (spec, tableRef) ← tableSpec repo event.table
  wrapError ("apply partial update batch for " ++ event.table)
    (applyPayload server spec tableRef event.peerRegion (fieldsToPayload event.fields) tables)

def updateColumns (spec : TableSpec) (payload : Object) : List String :=
  payload.keys.filter fun column => column ∉ spec.primaryKey

variable {repo server} {spec : TableSpec} {tableRef peerRegion : String} {tables after : Tables V}
  {payload full diff : Object}

theorem buildBatchPartialUpdateQuery_keyOnly (keyOnly : updateColumns spec payload = []) :
    buildBatchPartialUpdateQuery spec tableRef (some payload) = .ok (.selectNothing tableRef) := by
  apply if_pos
  simpa [updateColumns] using keyOnly

theorem buildBatchPartialUpdateQuery_more (more : updateColumns spec payload ≠ []) :
    buildBatchPartialUpdateQuery spec tableRef (some payload) =
      .ok (.update tableRef (updateColumns spec payload) spec.primaryKey (ownerRegionCondition spec)) := by
  apply if_neg
  simpa [updateColumns] using more

/-- With a column beside the key it is what `applyPartialUpdateGroup` executes. -/
theorem applyPartialUpdateGroup_single {event : ReplicationEvent}
    (known : tableSpec repo event.table = .ok (spec, tableRef))
    (more : updateColumns spec event.fields ≠ []) :
    applyPartialUpdateGroup repo server [event] tables = applyUpdate repo server event tables := by
  obtain ⟨column, named⟩ := List.exists_mem_of_ne_nil _ more
  have filled := fieldsToPayload_of_mem (Std.ExtTreeMap.mem_keys.mp (List.mem_filter.mp named).1)
  simp only [applyPartialUpdateGroup, applyUpdate, applyPayload, known, filled, List.map_cons,
    List.map_nil, List.head?_cons, Option.join_some, buildBatchPartialUpdateQuery_more more, bind,
    Except.bind, regionTexts]

omit [DecidableEq V] in
theorem mapM_populateRecord_single {sources : List (Row V)} :
    [some payload].mapM (populateRecord server tableRef) = .ok sources ↔
      populates server tableRef payload = true ∧ [populateRow server tableRef payload] = sources := by
  simp only [List.mapM_cons, List.mapM_nil, populateRecord]
  by_cases reads : populates server tableRef payload = true <;>
    simp [reads, bind, Except.bind, pure, Except.pure]

theorem applyPayload_eq_ok :
    applyPayload server spec tableRef peerRegion (some payload) tables = .ok after ↔
      (updateColumns spec payload = [] ∧ tables = after) ∨
      (updateColumns spec payload ≠ [] ∧
        (regionTexts spec peerRegion).length = (ownerRegionCondition spec).toList.length ∧
        (∀ column ∈ updateColumns spec payload ++ spec.primaryKey ++ (ownerRegionCondition spec).toList,
          column ∈ server.columns tableRef) ∧
        populates server tableRef payload = true ∧
        setTable tables tableRef (updateRows spec.primaryKey (updateColumns spec payload)
          (regionIs server (ownerRegionCondition spec) (regionTexts spec peerRegion).head?)
          [populateRow server tableRef payload] (tables tableRef)) = after) := by
  unfold applyPayload
  by_cases keyOnly : updateColumns spec payload = []
  · rw [buildBatchPartialUpdateQuery_keyOnly keyOnly]
    simp [keyOnly, bind, Except.bind, pure, Except.pure]
  · rw [buildBatchPartialUpdateQuery_more keyOnly]
    refine exec_update_eq_ok.trans ?_
    simp only [mapM_populateRecord_single, Args.count, Nat.add_left_cancel_iff]
    simp [keyOnly]

/-- An update of one row by its key. -/
theorem updateRows_single {key assignments : List String} {allowed : Row V → Bool}
    {source row : Row V} {rows : TableRows V} {values : List V} (stored : rows values = some row)
    (keyed : keyValues key source = some values) :
    updateRows key assignments allowed [source] rows =
      setRow rows values (some (if allowed row then assign row source assignments else row)) := by
  funext other
  by_cases here : other = values
  · subst here
    simp [updateRows, setRow, stored, keyed]
  · have missed : ¬values = other := Ne.symm here
    cases found : rows other <;> simp [updateRows, setRow, found, keyed, here, missed]

/-- The payload has the row's key. -/
def CarriesKey (server : Server V) (spec : TableSpec) (tableRef : String) (row : Row V)
    (payload : Object) : Prop :=
  ∀ name ∈ spec.primaryKey, name ∈ server.columns tableRef ∧
    ∃ raw, payload[name]? = some raw ∧ server.populate tableRef name raw = some (row name)

/-- The payload `diff` is `full` without columns that the row has as `full` gives them. -/
structure Trims (server : Server V) (spec : TableSpec) (tableRef : String) (row : Row V)
    (full diff : Object) : Prop where
  sub : ∀ (name : String) (raw : Bytes), diff[name]? = some raw → full[name]? = some raw
  rest : ∀ (name : String) (raw : Bytes), full[name]? = some raw → diff[name]? = none →
    name ∈ server.columns tableRef ∧ server.populate tableRef name raw = some (row name)
  key : CarriesKey server spec tableRef row diff

theorem mem_updateColumns {name : String} :
    name ∈ updateColumns spec payload ↔
      (∃ raw, payload[name]? = some raw) ∧ name ∉ spec.primaryKey := by
  rw [updateColumns, List.mem_filter, Std.ExtTreeMap.mem_keys, Std.ExtTreeMap.mem_iff_isSome_getElem?,
    Option.isSome_iff_exists, decide_eq_true_eq]

section Trims

variable {row : Row V} (trims : Trims server spec tableRef row full diff)

omit [DecidableEq V] in
theorem populates_iff : populates server tableRef payload = true ↔
    ∀ name ∈ server.columns tableRef, ∀ raw, payload[name]? = some raw →
      (server.populate tableRef name raw).isSome := by
  rw [populates, List.all_eq_true]
  refine forall₂_congr fun name _ => ?_
  cases payload[name]? <;> simp

omit [DecidableEq V] in
theorem populateRow_of_getElem? {name : String} {raw : Bytes} {value : Option V}
    (known : name ∈ server.columns tableRef) (has : payload[name]? = some raw)
    (reads : server.populate tableRef name raw = some value) :
    populateRow server tableRef payload name = value := by
  simp [populateRow, known, has, reads]

omit [DecidableEq V] in
theorem CarriesKey.keyed (carries : CarriesKey server spec tableRef row payload) :
    keyValues spec.primaryKey (populateRow server tableRef payload) = keyValues spec.primaryKey row := by
  apply keyValues_congr
  intro column mem
  obtain ⟨known, raw, has, reads⟩ := carries column mem
  exact populateRow_of_getElem? known has reads

include trims

omit [DecidableEq V] in
theorem Trims.key_full : CarriesKey server spec tableRef row full := by
  intro name mem
  obtain ⟨known, raw, has, reads⟩ := trims.key name mem
  exact ⟨known, raw, trims.sub name raw has, reads⟩

omit [DecidableEq V] in
theorem Trims.populates_iff : populates server tableRef full = true ↔
    populates server tableRef diff = true := by
  rw [UpdateDiff.populates_iff, UpdateDiff.populates_iff]
  constructor
  · intro reads name known raw has
    exact reads name known raw (trims.sub name raw has)
  · intro reads name known raw has
    cases left : diff[name]? with
    | some other =>
      cases (trims.sub name other left).symm.trans has
      exact reads name known raw left
    | none =>
      rw [(trims.rest name raw has left).2]
      rfl

omit [DecidableEq V] in
theorem Trims.known_iff : (∀ column ∈ updateColumns spec full, column ∈ server.columns tableRef) ↔
    ∀ column ∈ updateColumns spec diff, column ∈ server.columns tableRef := by
  simp only [mem_updateColumns]
  constructor
  · rintro known column ⟨⟨raw, has⟩, outside⟩
    exact known column ⟨⟨raw, trims.sub column raw has⟩, outside⟩
  · rintro known column ⟨⟨raw, has⟩, outside⟩
    cases left : diff[column]? with
    | some other => exact known column ⟨⟨other, left⟩, outside⟩
    | none => exact (trims.rest column raw has left).1

omit [DecidableEq V] in
theorem Trims.assign_eq : assign row (populateRow server tableRef full) (updateColumns spec full) =
    assign row (populateRow server tableRef diff) (updateColumns spec diff) := by
  funext name
  unfold assign
  by_cases inDiff : name ∈ updateColumns spec diff
  · obtain ⟨⟨raw, has⟩, outside⟩ := mem_updateColumns.mp inDiff
    have hasFull := trims.sub name raw has
    rw [if_pos inDiff, if_pos (mem_updateColumns.mpr ⟨⟨raw, hasFull⟩, outside⟩)]
    simp only [populateRow, has, hasFull]
  · rw [if_neg inDiff]
    by_cases inFull : name ∈ updateColumns spec full
    · obtain ⟨⟨raw, has⟩, outside⟩ := mem_updateColumns.mp inFull
      have left : diff[name]? = none := by
        rw [Option.eq_none_iff_forall_ne_some]
        exact fun other found => inDiff (mem_updateColumns.mpr ⟨⟨other, found⟩, outside⟩)
      obtain ⟨known, reads⟩ := trims.rest name raw has left
      rw [if_pos inFull, populateRow_of_getElem? known has reads]
    · rw [if_neg inFull]

end Trims

section Stored

variable {row : Row V} {values : List V} (stored : tables tableRef values = some row)
  (keyed : keyValues spec.primaryKey row = some values)
  (counted : (regionTexts spec peerRegion).length = (ownerRegionCondition spec).toList.length)
  (gate : ∀ column ∈ (ownerRegionCondition spec).toList, column ∈ server.columns tableRef)

include stored keyed counted gate

/-- The row with the key is the only one to change. -/
theorem applyPayload_stored (carries : CarriesKey server spec tableRef row payload) :
    applyPayload server spec tableRef peerRegion (some payload) tables = .ok after ↔
      (∀ column ∈ updateColumns spec payload, column ∈ server.columns tableRef) ∧
      populates server tableRef payload = true ∧
      setTable tables tableRef (setRow (tables tableRef) values (some
        (if regionIs server (ownerRegionCondition spec) (regionTexts spec peerRegion).head? row then
          assign row (populateRow server tableRef payload) (updateColumns spec payload) else row))) =
        after := by
  rw [applyPayload_eq_ok, updateRows_single stored (carries.keyed.trans keyed)]
  by_cases keyOnly : updateColumns spec payload = []
  · have reads : populates server tableRef payload = true := by
      rw [populates_iff]
      intro name known raw has
      have inKey : name ∈ spec.primaryKey := by
        by_contra outside
        have named := mem_updateColumns.mpr ⟨⟨raw, has⟩, outside⟩
        rw [keyOnly] at named
        cases named
      obtain ⟨-, other, found, populated⟩ := carries name inKey
      cases found.symm.trans has
      simp [populated]
    have same : setTable tables tableRef (setRow (tables tableRef) values (some row)) = tables := by
      funext table key
      by_cases here : table = tableRef
      · subst here
        by_cases atKey : key = values
        · subst atKey
          simp [setTable, setRow, stored]
        · simp [setTable, setRow, atKey]
      · simp [setTable, here]
    have unchanged (source : Row V) : assign row source [] = row := by
      funext column
      simp [assign]
    simp [keyOnly, reads, unchanged, same]
  · have known : (∀ column ∈ updateColumns spec payload ++ spec.primaryKey ++
        (ownerRegionCondition spec).toList, column ∈ server.columns tableRef) ↔
        ∀ column ∈ updateColumns spec payload, column ∈ server.columns tableRef := by
      rw [List.forall_mem_append, List.forall_mem_append]
      exact ⟨fun all => all.1.1, fun named => ⟨⟨named, fun column mem => (carries column mem).1⟩, gate⟩⟩
    rw [known]
    simp only [keyOnly, counted, false_and, false_or, ne_eq, not_false_eq_true, true_and]

theorem applyPayload_trims (trims : Trims server spec tableRef row full diff) :
    applyPayload server spec tableRef peerRegion (some full) tables = .ok after ↔
      applyPayload server spec tableRef peerRegion (some diff) tables = .ok after := by
  rw [applyPayload_stored stored keyed counted gate trims.key_full,
    applyPayload_stored stored keyed counted gate trims.key, trims.known_iff, trims.populates_iff,
    trims.assign_eq]

end Stored

end Update

/-! ## The receiver of both events -/

/-- The receiver's table is configured as the captured relation. -/
structure Replicates (spec : TableSpec) (relation : PostgresRelation) : Prop where
  keyed : spec.primaryKey ≠ []
  primaryKey : ∀ name, name ∈ spec.primaryKey ↔ name ∈ relation.primaryKey
  regionField : spec.regionField = relation.regionField

section Receiver

variable {V : Type} [DecidableEq V]

/-- The row with the key carries the tuple's values. -/
structure Carries (server : Server V) (spec : TableSpec) (tableRef : String)
    (relation : PostgresRelation) (tuple : TupleData) (tables : Tables V) (values : List V)
    (row : Row V) : Prop where
  stored : tables tableRef values = some row
  keyed : keyValues spec.primaryKey row = some values
  columns : ∀ name column, relation.column tuple name = some column →
    name ∈ server.columns tableRef ∧
      server.populate tableRef name (tupleColumnToJSON column) = some (row name)

variable {repo : Repository} {server : Server V} {spec : TableSpec} {tableRef : String}
  {relation : PostgresRelation} {old new : TupleData} {tables : Tables V} {values : List V} {row : Row V}
  {localRegion : String}

theorem column_of_extractPrimaryKey {key : PrimaryKey} {name : String}
    (extracted : relation.extractPrimaryKey (some new) = .ok key) (mem : name ∈ relation.primaryKey) :
    ∃ column, relation.column new name = some column := by
  obtain ⟨part, -, made⟩ := Fallible.exists_mem_of_mapM extracted mem
  obtain ⟨-, -, column, found, -⟩ := PostgresRelation.primaryKeyPart_eq_ok made
  exact ⟨column, found⟩

theorem column_of_tupleRegionIsLocal (owned : tupleRegionIsLocal relation (some old) localRegion = true) :
    relation.regionField ≠ "" ∧ localRegion ≠ "" ∧
      relation.column old relation.regionField = some ⟨.text, localRegion⟩ := by
  unfold tupleRegionIsLocal at owned
  split at owned
  · cases owned
  · next configured =>
    obtain ⟨field, region⟩ := not_or.mp configured
    cases found : relation.column old relation.regionField with
    | none => simp [found] at owned
    | some column =>
      simp only [found, Bool.and_eq_true, beq_iff_eq] at owned
      obtain ⟨dataType, data⟩ := column
      exact ⟨field, region, by simp [← owned.1, ← owned.2]⟩

theorem applyUpdate_event {digest : Bytes → String} {feed : ChangefeedConfig} {key : PrimaryKey}
    {version : Int} {payload : Object} {after : Tables V}
    (known : tableSpec repo relation.tableName = .ok (spec, tableRef)) (keyed : spec.primaryKey ≠ [])
    (carries : CarriesKey server spec tableRef row payload) :
    applyUpdate repo server (eventOfChange digest feed
        ⟨relation.tableName, key, .update, version, some payload⟩) tables = .ok after ↔
      applyPayload server spec tableRef feed.localRegion (some payload) tables = .ok after := by
  obtain ⟨name, mem⟩ := List.exists_mem_of_ne_nil _ keyed
  obtain ⟨-, raw, has, -⟩ := carries name mem
  have named : name ∈ payload := Std.ExtTreeMap.mem_iff_isSome_getElem?.mpr (by rw [has]; rfl)
  have filled := fieldsToPayload_of_mem named
  unfold applyUpdate
  simp only [eventOfChange, payloadToFields, Option.getD_some, known, filled]
  exact wrapError_eq_ok

section Diff

omit [DecidableEq V]

variable (replicates : Replicates spec relation)
  (carried : Carries server spec tableRef relation old tables values row)
  (sameKey : ∀ name ∈ relation.primaryKey, relation.column old name = relation.column new name)
  (present : ∀ name ∈ relation.primaryKey, ∃ column, relation.column new name = some column)
  (readable : ∀ name column, relation.column new name = some column → column.dataType ≠ .toast →
    name ∈ server.columns tableRef ∧
      (server.populate tableRef name (tupleColumnToJSON column)).isSome)

include replicates

theorem mem_updateColumns_diff {name : String} :
    name ∈ updateColumns spec (buildUpdateDiffPayload relation old new) ↔
      name ∉ relation.primaryKey ∧ ∃ column, relation.column new name = some column ∧
        column.dataType ≠ .toast ∧ relation.column old name ≠ some column := by
  rw [mem_updateColumns, replicates.primaryKey, getElem?_buildUpdateDiffPayload]
  cases relation.column new name with
  | none => simp
  | some column =>
    by_cases inKey : name ∈ relation.primaryKey
    · simp [inKey]
    · by_cases toast : column.dataType = .toast <;> simp [diffEntry, inKey, toast]

include readable in
theorem populates_diff
    (carries : CarriesKey server spec tableRef row (buildUpdateDiffPayload relation old new)) :
    populates server tableRef (buildUpdateDiffPayload relation old new) = true := by
  rw [populates_iff]
  intro name _ raw has
  by_cases inKey : name ∈ spec.primaryKey
  · obtain ⟨-, other, found, reads⟩ := carries name inKey
    cases found.symm.trans has
    simp [reads]
  · have named := mem_updateColumns.mpr ⟨⟨raw, has⟩, inKey⟩
    obtain ⟨outside, column, found, plain, changed⟩ := (mem_updateColumns_diff replicates).mp named
    rw [getElem?_buildUpdateDiffPayload, found, Option.bind_some, diffEntry, if_neg outside,
      if_neg plain, if_neg changed] at has
    cases has
    exact (readable name column found plain).2

include carried sameKey

include readable in
/-- The columns of a row after the diff: placeholders keep the old value. -/
theorem assign_diff :
    let diff := buildUpdateDiffPayload relation old new
    let row' := assign row (populateRow server tableRef diff) (updateColumns spec diff)
    (∀ name column, relation.column new name = some column →
      if column.dataType = .toast then row' name = row name
      else server.populate tableRef name (tupleColumnToJSON column) = some (row' name)) ∧
    ∀ name, relation.column new name = none → row' name = row name := by
  intro diff row'
  have kept {name : String} (out : name ∉ updateColumns spec diff) : row' name = row name := if_neg out
  constructor
  · intro name column found
    by_cases named : name ∈ updateColumns spec diff
    · obtain ⟨outside, new', found', plain, changed⟩ := (mem_updateColumns_diff replicates).mp named
      cases found'.symm.trans found
      have entry : diff[name]? = some (tupleColumnToJSON column) := by
        rw [getElem?_buildUpdateDiffPayload, found, Option.bind_some, diffEntry, if_neg outside,
          if_neg plain, if_neg changed]
      obtain ⟨known, reads⟩ := readable name column found plain
      obtain ⟨value, populated⟩ := Option.isSome_iff_exists.mp reads
      have written : row' name = value :=
        (if_pos named).trans (populateRow_of_getElem? known entry populated)
      rw [if_neg plain, written, populated]
    · rw [kept named]
      split
      · rfl
      · next plain =>
        -- not in the diff and no placeholder: the old tuple has it too
        have same : relation.column old name = some column := by
          by_cases inKey : name ∈ relation.primaryKey
          · exact (sameKey name inKey).trans found
          · by_contra changed
            exact named ((mem_updateColumns_diff replicates).mpr
              ⟨inKey, column, found, plain, changed⟩)
        exact (carried.columns name column same).2
  · intro name missing
    apply kept
    intro named
    obtain ⟨-, column, found, -⟩ := (mem_updateColumns_diff replicates).mp named
    rw [missing] at found
    cases found

include present

theorem carriesKey_diff :
    CarriesKey server spec tableRef row (buildUpdateDiffPayload relation old new) := by
  intro name mem
  have inKey := (replicates.primaryKey name).mp mem
  obtain ⟨column, found⟩ := present name inKey
  obtain ⟨known, reads⟩ := carried.columns name column ((sameKey name inKey).trans found)
  refine ⟨known, _, ?_, reads⟩
  rw [getElem?_buildUpdateDiffPayload, found, Option.bind_some, diffEntry, if_pos inKey]

/-- Without placeholders the diff leaves out what the row has. -/
theorem trims_diff {full : Object}
    (plain : ∀ name column, relation.column new name = some column → column.dataType ≠ .toast)
    (whole : ∀ name : String, full[name]? = (relation.column new name).map tupleColumnToJSON) :
    Trims server spec tableRef row full (buildUpdateDiffPayload relation old new) := by
  refine ⟨?_, ?_, carriesKey_diff replicates carried sameKey present⟩
  · intro name raw has
    rw [getElem?_buildUpdateDiffPayload] at has
    obtain ⟨column, found, entry⟩ := Option.bind_eq_some_iff.mp has
    rw [whole, found, Option.map_some]
    unfold diffEntry at entry
    split_ifs at entry <;> exact entry
  · intro name raw has left
    rw [whole] at has
    obtain ⟨column, found, rfl⟩ := Option.map_eq_some_iff.mp has
    rw [getElem?_buildUpdateDiffPayload, found, Option.bind_some, diffEntry] at left
    split_ifs at left with inKey toast same
    · exact absurd toast (plain name column found)
    · exact carried.columns name column same

end Diff

section Events

variable {digest : Bytes → String} {feed : ChangefeedConfig} {cfg : CaptureConfig}
  {relations : Relations} {relationID lsn : Nat} {diff : ChangefeedChange}

/-- Where a diff is captured, so is the row if it is a payload. -/
theorem buildWriteChange_of_diff {full : Object} (resolved : relations[relationID]? = some relation)
    (built : buildUpdateDiffChange cfg relations relationID (some old) (some new) lsn =
      .ok (some diff))
    (whole : buildTuplePayload relation (some new) = .ok full) :
    buildWriteChange cfg relations relationID (some new) lsn .update =
      .ok (some ⟨diff.table, diff.primaryKey, .update, diff.version, some full⟩) := by
  rw [buildUpdateDiffChange, resolved] at built
  rw [buildWriteChange, resolved]
  by_cases here : tupleRegionIsLocal relation (some new) cfg.localRegion = true
  · simp only [here] at built ⊢
    obtain ⟨key, extracted, built⟩ := Fallible.bind_eq_ok.mp built
    obtain ⟨version, converted, built⟩ := Fallible.bind_eq_ok.mp built
    cases built
    exact Fallible.bind_eq_ok.mpr ⟨key, extracted, Fallible.bind_eq_ok.mpr ⟨version, converted,
      Fallible.bind_eq_ok.mpr ⟨full, whole, rfl⟩⟩⟩
  · simp [here] at built

/-- The update has a text for its condition, and the row it is sent for meets it. -/
theorem region_gate {region : String} (replicates : Replicates spec relation)
    (carried : Carries server spec tableRef relation old tables values row)
    (owned : tupleRegionIsLocal relation (some old) region = true) :
    (regionTexts spec region).length = (ownerRegionCondition spec).toList.length ∧
    (∀ column ∈ (ownerRegionCondition spec).toList, column ∈ server.columns tableRef) ∧
    (ReadsRegion repo server region →
      tableSpec repo relation.tableName = .ok (spec, tableRef) →
      regionIs server (ownerRegionCondition spec) (regionTexts spec region).head? row = true) := by
  obtain ⟨field, known, regionColumn⟩ := column_of_tupleRegionIsLocal owned
  obtain ⟨inColumns, value⟩ := carried.columns _ _ regionColumn
  have texts : regionTexts spec region = [region] := if_pos ⟨replicates.regionField ▸ field, known⟩
  have condition : ownerRegionCondition spec = some relation.regionField := by
    rw [ownerRegionCondition_of_ne (replicates.regionField ▸ field), replicates.regionField]
  rw [texts, condition]
  refine ⟨rfl, ?_, fun reads found => ?_⟩
  · intro column mem
    cases List.mem_singleton.mp mem
    exact inColumns
  · have stored := reads _ spec tableRef found _ (replicates.regionField ▸ value)
    simpa [regionIs, replicates.regionField] using stored

/-- An update captured as a diff does to the row what the whole row does. Where the tuple has
placeholders the whole row is no payload; the diff keeps the columns they stand for and sets the
others. -/
theorem updateDiff_agrees (resolved : relations[relationID]? = some relation)
    (known : tableSpec repo relation.tableName = .ok (spec, tableRef))
    (replicates : Replicates spec relation) (attributed : feed.localRegion = cfg.localRegion)
    (carried : Carries server spec tableRef relation old tables values row)
    (sameKey : ∀ name ∈ relation.primaryKey, relation.column old name = relation.column new name)
    (owned : tupleRegionIsLocal relation (some old) cfg.localRegion = true)
    (built : buildUpdateDiffChange cfg relations relationID (some old) (some new) lsn =
      .ok (some diff)) :
    ((∀ name column, relation.column new name = some column → column.dataType ≠ .toast) →
      ∃ full, buildWriteChange cfg relations relationID (some new) lsn .update = .ok (some full) ∧
        ∀ after, applyUpdate repo server (eventOfChange digest feed diff) tables = .ok after ↔
          applyUpdate repo server (eventOfChange digest feed full) tables = .ok after) ∧
    (ReadsRegion repo server cfg.localRegion →
      (∀ name column, relation.column new name = some column → column.dataType ≠ .toast →
        name ∈ server.columns tableRef ∧
          (server.populate tableRef name (tupleColumnToJSON column)).isSome) →
      ∃ row', applyUpdate repo server (eventOfChange digest feed diff) tables =
          .ok (setTable tables tableRef (setRow (tables tableRef) values (some row'))) ∧
        (∀ name column, relation.column new name = some column →
          if column.dataType = .toast then row' name = row name
          else server.populate tableRef name (tupleColumnToJSON column) = some (row' name)) ∧
        ∀ name, relation.column new name = none → row' name = row name) := by
  have written {full : Object} := @buildWriteChange_of_diff _ _ _ _ _ _ _ _ full resolved built
  obtain ⟨_, _, key, found, -, same, extracted, rfl⟩ := buildUpdateDiffChange_eq_some built
  cases resolved.symm.trans found
  cases same
  have present : ∀ name ∈ relation.primaryKey, ∃ column, relation.column new name = some column :=
    fun name mem => column_of_extractPrimaryKey extracted mem
  have carriesKey := carriesKey_diff replicates carried sameKey present
  obtain ⟨counted, gate, allowed⟩ := region_gate replicates carried owned
  rw [Option.getD_some]
  constructor
  · intro plain
    obtain ⟨full, whole, columns⟩ := buildTuplePayload_plain plain
    have trims := trims_diff replicates carried sameKey present plain columns
    refine ⟨_, written whole, fun after => ?_⟩
    rw [applyUpdate_event known replicates.keyed carriesKey,
      applyUpdate_event known replicates.keyed trims.key_full, attributed]
    exact (applyPayload_trims carried.stored carried.keyed counted gate trims).symm
  · intro reads readable
    obtain ⟨columns, others⟩ := assign_diff replicates carried sameKey readable
    refine ⟨_, ?_, columns, others⟩
    rw [applyUpdate_event known replicates.keyed carriesKey, attributed,
      applyPayload_stored carried.stored carried.keyed counted gate carriesKey]
    rw [if_pos (allowed reads known)]
    refine ⟨?_, ?_, rfl⟩
    · intro name named
      obtain ⟨-, column, at_new, plain, -⟩ := (mem_updateColumns_diff replicates).mp named
      exact (readable name column at_new plain).1
    · exact populates_diff replicates readable carriesKey

end Events

end Receiver

/-! Users with a note, a column the old tuple is too short to have. -/

def notesServer : Server String := textServer fun _ => ["id", "name", "region", "note", "photo"]

def notesRelation : PostgresRelation where
  tableName := "users"
  primaryKey := ["id"]
  primaryKeyTypes := .ofList [("id", PrimaryKeyType.string)]
  columnByName := .ofList [("id", 0), ("name", 1), ("region", 2), ("photo", 3), ("note", 4)]
  regionField := "region"

def annTuple : TupleData := [⟨.text, "7"⟩, ⟨.text, "ann"⟩, ⟨.text, "eu"⟩, ⟨.text, "face"⟩]

/-- Ann after an update that sets a note and gives the photo as `photo`. -/
def notedTuple (photo : TupleColumn) : TupleData :=
  [⟨.text, "7"⟩, ⟨.text, "ann"⟩, ⟨.text, "eu"⟩, photo, ⟨.text, "late"⟩]

def annRow : Row String := fun column =>
  match column with
  | "id" => some "7"
  | "name" => some "ann"
  | "region" => some "eu"
  | "photo" => some "face"
  | _ => none

def annTables : Tables String := fun _ key => if key = ["7"] then some annRow else none

/-- What holds of every column of a tuple by the columns of its relation. -/
theorem forall_column {relation : PostgresRelation} {tuple : TupleData}
    {P : String → TupleColumn → Prop}
    (each : ∀ entry ∈ relation.columnByName.toList, ∀ column ∈ tuple[entry.2]?, P entry.1 column) :
    ∀ name column, relation.column tuple name = some column → P name column := by
  intro name column found
  obtain ⟨index, known, at_index⟩ := Option.bind_eq_some_iff.mp found
  exact each (name, index) (Std.ExtTreeMap.mem_toList_iff_getElem?_eq_some.mpr known) column at_index

theorem annTables_carries :
    Carries notesServer usersSpec "\"users\"" notesRelation annTuple annTables ["7"] annRow :=
  ⟨rfl, rfl, forall_column (by decide)⟩

theorem updateDiff_agrees_users :
    (∃ diff full, buildUpdateDiffChange (usersCapture true) (.ofList [(1, notesRelation)]) 1 (some annTuple)
        (some (notedTuple ⟨.null, ""⟩)) 20 = .ok (some diff) ∧
      buildWriteChange (usersCapture true) (.ofList [(1, notesRelation)]) 1
        (some (notedTuple ⟨.null, ""⟩)) 20 .update = .ok (some full) ∧
      ∀ after, applyUpdate usersRepository notesServer (eventOfChange (fun _ => "event") usersFeed diff)
          annTables = .ok after ↔
        applyUpdate usersRepository notesServer (eventOfChange (fun _ => "event") usersFeed full)
          annTables = .ok after) ∧
    ∃ diff row', buildUpdateDiffChange (usersCapture true) (.ofList [(1, notesRelation)]) 1 (some annTuple)
        (some (notedTuple ⟨.toast, ""⟩)) 20 = .ok (some diff) ∧
      applyUpdate usersRepository notesServer (eventOfChange (fun _ => "event") usersFeed diff)
        annTables = .ok (setTable annTables "\"users\""
          (setRow (annTables "\"users\"") ["7"] (some row'))) ∧
      row' "photo" = some "face" ∧ row' "note" = some "late" := by
  have agrees (photo : TupleColumn) {diff : ChangefeedChange}
      (built : buildUpdateDiffChange (usersCapture true) (.ofList [(1, notesRelation)]) 1 (some annTuple)
        (some (notedTuple photo)) 20 = .ok (some diff)) :=
    @updateDiff_agrees String _ usersRepository notesServer usersSpec "\"users\"" notesRelation annTuple
      (notedTuple photo) annTables ["7"] annRow (fun _ => "event") usersFeed (usersCapture true) _ 1 20 diff
      (by rfl) (by rfl) ⟨by decide, fun _ => Iff.rfl, rfl⟩ rfl annTables_carries
      (List.forall_mem_singleton.mpr rfl) (by decide) built
  constructor
  · obtain ⟨full, built, same⟩ := (agrees ⟨.null, ""⟩ (by rfl)).1 (forall_column (by decide))
    exact ⟨_, full, by rfl, built, same⟩
  · obtain ⟨row', applied, columns, -⟩ := (agrees ⟨.toast, ""⟩ (by rfl)).2
      (textServer_readsRegion _ _ "eu") (forall_column (by decide))
    refine ⟨_, row', by rfl, applied, columns "photo" ⟨.toast, ""⟩ (by decide), ?_⟩
    have note := columns "note" ⟨.text, "late"⟩ (by decide)
    exact Option.some.inj (note.symm.trans (by decide))

end Transmogr.UpdateDiff
