import Transmogr.Slots
import Transmogr.Statements

/-! A statement on rows with different keys as one write for each row, each to the slot of its key. -/
namespace Transmogr.Sql

open Slots

variable {V : Type} [DecidableEq V] (server : Server V)

/-- The row a source addresses. -/
def Statement.rowKey : Statement → Row V → Option (List V)
  | .insert table columns key _, source => keyValues key (insertedRow server table columns source)
  | .update _ _ key _, source | .delete _ key _, source => keyValues key source
  | .selectNothing _, _ => none

/-- What the statement leaves of the addressed row. -/
def Statement.rowAct (texts : List String) :
    Statement → Row V → Option (Row V) → Option (Row V)
  | .insert table columns _ _, source, none => some (insertedRow server table columns source)
  | .insert _ _ _ .doNothing, _, some target => some target
  | .insert table columns _ (.doUpdate assignments owner), source, some target =>
    let excluded := insertedRow server table columns source
    some (if ownerAllows owner target excluded then assign target excluded assignments else target)
  | .update _ assignments _ region, source, slot => slot.map fun target =>
    if regionIs server region texts.head? target then assign target source assignments else target
  | .delete _ _ region, _, slot => slot.filter fun target =>
    !regionIsOrNull server region texts.head? target
  | .selectNothing _, _, slot => slot

def Statement.rowWrite (statement : Statement) (texts : List String) (source : Row V) :
    Option (Write (List V) (Option (Row V))) :=
  (statement.rowKey server source).map fun key => ⟨key, statement.rowAct server texts source⟩

/-- An insert needs a key. -/
def Statement.Takes : Statement → Row V → Prop
  | .insert table columns key _, source =>
    (keyValues key (insertedRow server table columns source)).isSome
  | _, _ => True

/-- The columns the server looks up before it reads a row. -/
def Statement.columnNames : Statement → List String
  | .insert _ columns _ _ => columns
  | .update _ assignments key region => assignments ++ key ++ region.toList
  | .delete _ key region => key ++ region.toList
  | .selectNothing _ => []

/-- What makes an execution succeed; it does not depend on the rows of the table. -/
structure Ready (call : Call) : Prop where
  count : call.2.count = call.1.placeholders
  known : ∀ column ∈ call.1.columnNames, column ∈ server.columns call.1.table
  reads : ∀ payload ∈ call.2.payloads, ∃ source,
    populateRecord server call.1.table payload = .ok source ∧ call.1.Takes server source

def payloadWrite (statement : Statement) (texts : List String) (payload : Option Object) :
    Option (Write (List V) (Option (Row V))) :=
  (populateRecord server statement.table payload).toOption.bind (statement.rowWrite server texts)

/-- The writes of a call within its table. -/
def rowWrites (call : Call) : List (Write (List V) (Option (Row V))) :=
  call.2.payloads.filterMap (payloadWrite server call.1 call.2.texts)

variable {server}

theorem setRow_eq_apply (rows : TableRows V) (write : Write (List V) (Option (Row V))) :
    setRow rows write.slot (write.act (rows write.slot)) = write.apply rows := by
  funext key
  by_cases here : write.slot = key
  · subst here
    simp [setRow, apply_self]
  · simp [setRow, apply_of_ne here, Ne.symm here]

theorem mem_filterMap_rowWrite {statement : Statement} {texts : List String} {sources : List (Row V)}
    {write : Write (List V) (Option (Row V))} :
    write ∈ sources.filterMap (statement.rowWrite server texts) ↔
      ∃ source ∈ sources, statement.rowKey server source = some write.slot ∧
        statement.rowAct server texts source = write.act := by
  simp only [List.mem_filterMap, Statement.rowWrite, Option.map_eq_some_iff]
  constructor
  · rintro ⟨source, mem, key, keyed, rfl⟩
    exact ⟨source, mem, keyed, rfl⟩
  · rintro ⟨source, mem, keyed, acts⟩
    exact ⟨source, mem, _, keyed, by rw [acts]⟩

section Insert

variable {table : String} {columns key : List String} {action : ConflictAction} {texts : List String}

/-- A row whose key the statement has not touched yet. -/
theorem insertRow_fresh {state : InsertState V} {source : Row V} {values : List V}
    (keyed : keyValues key (insertedRow server table columns source) = some values)
    (fresh : values ∉ state.touched) :
    ∃ touched, insertRow server table columns key action state source =
        .ok ⟨Write.apply ⟨values, (Statement.insert table columns key action).rowAct server texts source⟩
          state.rows, touched⟩ ∧
      ∀ other ∈ touched, other = values ∨ other ∈ state.touched := by
  rw [← setRow_eq_apply]
  simp only [insertRow, keyed]
  cases present : state.rows values with
  | none => exact ⟨values :: state.touched, rfl, fun _ => List.mem_cons.mp⟩
  | some target =>
    have unchanged : setRow state.rows values (some target) = state.rows := by
      funext other
      by_cases here : other = values <;> simp [setRow, here, present]
    cases action with
    | doNothing =>
      refine ⟨state.touched, ?_, fun _ => .inr⟩
      simp [Statement.rowAct, unchanged]
    | doUpdate assignments owner =>
      simp only [if_neg fresh, Statement.rowAct]
      split
      · exact ⟨values :: state.touched, rfl, fun _ => List.mem_cons.mp⟩
      · exact ⟨state.touched, by rw [unchanged], fun _ => .inr⟩

theorem foldlM_insertRow_apart {sources : List (Row V)} {state : InsertState V}
    (takes : ∀ source ∈ sources, (Statement.insert table columns key action).Takes server source)
    (apart : Apart (sources.filterMap
      ((Statement.insert table columns key action).rowWrite server texts)))
    (fresh : ∀ write ∈ sources.filterMap
      ((Statement.insert table columns key action).rowWrite server texts), write.slot ∉ state.touched) :
    ∃ touched, sources.foldlM (insertRow server table columns key action) state =
      .ok ⟨run state.rows (sources.filterMap
        ((Statement.insert table columns key action).rowWrite server texts)), touched⟩ := by
  induction sources generalizing state with
  | nil => exact ⟨state.touched, rfl⟩
  | cons source rest ih =>
    obtain ⟨head, tail⟩ := List.forall_mem_cons.mp takes
    obtain ⟨values, keyed⟩ := Option.isSome_iff_exists.mp head
    have written : (Statement.insert table columns key action).rowWrite server texts source =
        some ⟨values, (Statement.insert table columns key action).rowAct server texts source⟩ := by
      rw [Statement.rowWrite, Statement.rowKey, keyed]
      rfl
    rw [List.filterMap_cons_some written] at apart fresh ⊢
    obtain ⟨others, apart⟩ := List.pairwise_cons.mp apart
    obtain ⟨here, later⟩ := List.forall_mem_cons.mp fresh
    obtain ⟨touched, inserted, within⟩ := @insertRow_fresh V _ server _ _ _ action texts state _ _ keyed here
    obtain ⟨final, ran⟩ := @ih ⟨_, touched⟩ tail apart (by
      intro write mem old
      rcases within _ old with same | earlier
      · exact others write mem same.symm
      · exact later write mem earlier)
    refine ⟨final, ?_⟩
    rw [List.foldlM_cons, inserted]
    exact ran

end Insert

section Match

variable {table : String} {assignments key : List String} {region : Option String}
  {texts : List String} {sources : List (Row V)} {rows : TableRows V}

theorem updateRows_eq_run (apart : Apart (sources.filterMap
      ((Statement.update table assignments key region).rowWrite server texts))) :
    updateRows key assignments (regionIs server region texts.head?) sources rows =
      run rows (sources.filterMap
        ((Statement.update table assignments key region).rowWrite server texts)) := by
  funext values
  cases found : sources.find? fun source => keyValues key source == some values with
  | some source =>
    have keyed : keyValues key source = some values := by simpa using List.find?_some found
    have mem : ⟨values, (Statement.update table assignments key region).rowAct server texts source⟩ ∈
        sources.filterMap ((Statement.update table assignments key region).rowWrite server texts) :=
      mem_filterMap_rowWrite.mpr ⟨source, List.mem_of_find?_eq_some found, keyed, rfl⟩
    refine Eq.trans ?_ (run_of_mem apart mem).symm
    simp [updateRows, found, Statement.rowAct]
  | none =>
    rw [run_of_absent]
    · cases present : rows values <;> simp [updateRows, found, present]
    · intro write mem here
      obtain ⟨source, inSources, keyed, -⟩ := mem_filterMap_rowWrite.mp mem
      rw [here] at keyed
      have other := List.find?_eq_none.mp found source inSources
      exact absurd keyed (by simpa [Statement.rowKey] using other)

theorem deleteRows_eq_run
    (apart : Apart (sources.filterMap ((Statement.delete table key region).rowWrite server texts))) :
    deleteRows key (regionIsOrNull server region texts.head?) sources rows =
      run rows (sources.filterMap ((Statement.delete table key region).rowWrite server texts)) := by
  funext values
  by_cases named : ∃ source ∈ sources, keyValues key source = some values
  · obtain ⟨source, inSources, keyed⟩ := named
    have mem : ⟨values, (Statement.delete table key region).rowAct server texts source⟩ ∈
        sources.filterMap ((Statement.delete table key region).rowWrite server texts) :=
      mem_filterMap_rowWrite.mpr ⟨source, inSources, keyed, rfl⟩
    refine Eq.trans ?_ (run_of_mem apart mem).symm
    have any : (sources.any fun source => keyValues key source == some values) = true :=
      List.any_eq_true.mpr ⟨source, inSources, by simp [keyed]⟩
    simp [deleteRows, any, Statement.rowAct]
  · rw [run_of_absent, deleteRows_unmatched fun found => named found.1]
    intro write mem here
    obtain ⟨source, inSources, keyed, -⟩ := mem_filterMap_rowWrite.mp mem
    rw [here] at keyed
    exact named ⟨source, inSources, keyed⟩

end Match

section Exec

variable {call : Call} {tables next : Tables V}

omit [DecidableEq V] in
theorem Ready.populated {data : Object} (ready : Ready server call)
    (sent : some data ∈ call.2.payloads) :
    populateRecord server call.1.table (some data) = .ok (populateRow server call.1.table data) := by
  obtain ⟨source, read, -⟩ := ready.reads _ sent
  simp only [populateRecord] at read ⊢
  split at read
  · next reads => rw [if_pos reads]
  · cases read

/-- The sources of a call that is ready, and the writes they make. -/
theorem Ready.sources (ready : Ready server call) :
    ∃ sources, call.2.payloads.mapM (populateRecord server call.1.table) = .ok sources ∧
      (∀ source ∈ sources, call.1.Takes server source) ∧
      rowWrites server call = sources.filterMap (call.1.rowWrite server call.2.texts) := by
  obtain ⟨sources, read, -⟩ := Fallible.mapM_forall₂ ready.reads
  refine ⟨sources, read, ?_, ?_⟩
  · intro source mem
    obtain ⟨payload, sent, populated⟩ := Fallible.mem_of_mapM read mem
    obtain ⟨_, same, takes⟩ := ready.reads payload sent
    cases populated.symm.trans same
    exact takes
  · have each := Fallible.mapM_eq_ok.mp read
    unfold rowWrites
    clear read
    generalize call.2.payloads = payloads at each
    induction each with
    | nil => rfl
    | cons populated _ ih =>
      rw [List.filterMap_cons, List.filterMap_cons, ih, payloadWrite, populated]
      rfl

theorem exec_ready (ran : exec server call.1 call.2 tables = .ok next) : Ready server call := by
  obtain ⟨statement, args⟩ := call
  cases statement with
  | selectNothing table =>
    have count : args.count ≠ 0 := by simp [Args.count]
    simp [exec, Statement.placeholders, count] at ran
  | insert table columns key action =>
    obtain ⟨count, known, sources, read, final, folded, rfl⟩ := exec_insert_eq_ok.mp ran
    refine ⟨count, known, fun payload mem => ?_⟩
    obtain ⟨source, inSources, populated⟩ := Fallible.exists_mem_of_mapM read mem
    obtain ⟨values, keyed, -⟩ := (foldlM_insertRow_present folded).2 source inSources
    exact ⟨source, populated, by simp [Statement.Takes, keyed]⟩
  | update table assignments key region =>
    obtain ⟨count, known, sources, read, rfl⟩ := exec_update_eq_ok.mp ran
    refine ⟨count, known, fun payload mem => ?_⟩
    obtain ⟨source, -, populated⟩ := Fallible.exists_mem_of_mapM read mem
    exact ⟨source, populated, trivial⟩
  | delete table key region =>
    obtain ⟨count, known, sources, read, rfl⟩ := exec_delete_eq_ok.mp ran
    refine ⟨count, known, fun payload mem => ?_⟩
    obtain ⟨source, -, populated⟩ := Fallible.exists_mem_of_mapM read mem
    exact ⟨source, populated, trivial⟩

theorem exec_of_ready (ready : Ready server call) (apart : Apart (rowWrites server call)) :
    exec server call.1 call.2 tables =
      .ok (setTable tables call.1.table (run (tables call.1.table) (rowWrites server call))) := by
  obtain ⟨sources, read, takes, writes⟩ := ready.sources
  rw [writes] at apart ⊢
  obtain ⟨statement, args⟩ := call
  cases statement with
  | selectNothing table => exact absurd ready.count (by simp [Args.count, Statement.placeholders])
  | insert table columns key action =>
    obtain ⟨touched, folded⟩ := @foldlM_insertRow_apart V _ server table columns key action args.texts
      sources ⟨tables table, []⟩ takes apart fun _ _ => List.not_mem_nil
    exact exec_insert_eq_ok.mpr ⟨ready.count, ready.known, sources, read, _, folded, rfl⟩
  | update table assignments key region =>
    refine exec_update_eq_ok.mpr ⟨ready.count, ready.known, sources, read, ?_⟩
    rw [updateRows_eq_run apart]
    rfl
  | delete table key region =>
    refine exec_delete_eq_ok.mpr ⟨ready.count, ready.known, sources, read, ?_⟩
    rw [deleteRows_eq_run apart]
    rfl

end Exec

/-! ## The whole database -/

/-- The rows of the database by table and key. -/
def slots (tables : Tables V) : String × List V → Option (Row V) := fun slot => tables slot.1 slot.2

omit [DecidableEq V] in
theorem slots_injective {tables tables' : Tables V} (same : slots tables = slots tables') :
    tables = tables' := by
  funext table key
  exact congrFun same (table, key)

variable (server) in
/-- The writes of a call in the database. -/
def callWrites (call : Call) : List (Write (String × List V) (Option (Row V))) :=
  (rowWrites server call).map fun write => ⟨(call.1.table, write.slot), write.act⟩

theorem slots_apply (tables : Tables V) (table : String) (write : Write (List V) (Option (Row V))) :
    slots (setTable tables table (write.apply (tables table))) =
      Write.apply ⟨(table, write.slot), write.act⟩ (slots tables) := by
  funext slot
  by_cases here : (table, write.slot) = slot
  · subst here
    refine Eq.trans ?_ apply_self.symm
    simp [slots, setTable, apply_self]
  · refine Eq.trans ?_ (apply_of_ne here).symm
    obtain ⟨other, key⟩ := slot
    by_cases inTable : other = table
    · subst inTable
      have elsewhere : write.slot ≠ key := fun same => here (by rw [same])
      simp [slots, setTable, apply_of_ne elsewhere]
    · simp [slots, setTable, inTable]

theorem slots_setTable (tables : Tables V) (table : String)
    (writes : List (Write (List V) (Option (Row V)))) :
    slots (setTable tables table (run (tables table) writes)) =
      run (slots tables) (writes.map fun write => ⟨(table, write.slot), write.act⟩) := by
  induction writes generalizing tables with
  | nil =>
    funext slot
    by_cases here : slot.1 = table <;> simp [slots, setTable, run, here]
  | cons write rest ih =>
    have step := ih (setTable tables table (write.apply (tables table)))
    rw [slots_apply] at step
    refine Eq.trans ?_ step
    congr 1
    funext other
    by_cases here : other = table <;> simp [setTable, run, here]

section Sequences

variable {call : Call} {calls : List Call} {tables next : Tables V}

omit [DecidableEq V] in
theorem apart_rowWrites {writes : List (Write (List V) (Option (Row V)))} {table : String}
    (apart : Apart (writes.map fun write => (⟨(table, write.slot), write.act⟩ :
      Write (String × List V) (Option (Row V))))) : Apart writes := by
  rw [Apart, List.pairwise_map] at apart
  exact apart.imp fun differ same => differ (by rw [same])

/-- Calls that are ready, none of which writes a row twice. -/
theorem execAll_of_ready (ready : ∀ call ∈ calls, Ready server call)
    (apart : ∀ call ∈ calls, Apart (callWrites server call)) :
    ∃ next, execAll server calls tables = .ok next ∧
      slots next = run (slots tables) (calls.flatMap (callWrites server)) := by
  induction calls generalizing tables with
  | nil => exact ⟨tables, rfl, rfl⟩
  | cons call rest ih =>
    obtain ⟨readyCall, readyRest⟩ := List.forall_mem_cons.mp ready
    obtain ⟨apartCall, apartRest⟩ := List.forall_mem_cons.mp apart
    have first := @exec_of_ready V _ server call tables readyCall (apart_rowWrites apartCall)
    obtain ⟨next, ran, rows⟩ := @ih _ readyRest apartRest
    refine ⟨next, Fallible.bind_eq_ok.mpr ⟨_, first, ran⟩, ?_⟩
    rw [rows, slots_setTable, List.flatMap_cons, run_append]
    rfl

theorem execAll_ready (ran : execAll server calls tables = .ok next) :
    ∀ call ∈ calls, Ready server call := by
  induction calls generalizing tables with
  | nil => exact nofun
  | cons call rest ih =>
    obtain ⟨middle, first, later⟩ := Fallible.bind_eq_ok.mp ran
    exact List.forall_mem_cons.mpr ⟨exec_ready first, ih later⟩

theorem execAll_eq_ok (apart : ∀ call ∈ calls, Apart (callWrites server call)) :
    execAll server calls tables = .ok next ↔
      (∀ call ∈ calls, Ready server call) ∧
        slots next = run (slots tables) (calls.flatMap (callWrites server)) := by
  constructor
  · intro ran
    have ready := execAll_ready ran
    obtain ⟨_, same, rows⟩ := @execAll_of_ready V _ server calls tables ready apart
    cases same.symm.trans ran
    exact ⟨ready, rows⟩
  · rintro ⟨ready, rows⟩
    obtain ⟨final, ran, same⟩ := @execAll_of_ready V _ server calls tables ready apart
    rw [ran, slots_injective (same.trans rows.symm)]

end Sequences

end Transmogr.Sql
