import Transmogr.MigrationFiles
import Transmogr.Stateful

/-! Schema migrations (`pkg/migrations`). The version is kept in a table of the very schema that the
scripts create and drop, and is written twice in the transaction of each script. -/
namespace Transmogr.Migrations

open Stateful (attempt transact)

/-- The rows of `schema_migrations`, `none` if there is no such table, and everything else. -/
structure Database (R : Type) where
  migrations : Option (List (Int × Bool))
  rest : R

/-- What pgx and the server make of names and of the statements that are not about the versions. A
script runs inside a transaction and sees the table of versions too. -/
structure Server (R : Type) where
  /-- `pgx.Identifier.Sanitize` -/
  sanitize : String → String
  /-- The error of a statement that finds no table of versions in the schema. -/
  missingTable : String → String
  createSchema : String → R → Except String R
  createTable : String → R → Except String Unit
  script : String → Database R → Except String (Database R)

/-- The database as committed, and the paths of the scripts that were sent to it. -/
structure World (R : Type) where
  database : Database R
  ran : List String

section Bookkeeping

variable {R : Type}

def ensureMigrationsTable (server : Server R) (renderedSchema : String) (database : Database R) :
    Except String (Database R) := do
  let rest ← wrapError "ensure state schema" (server.createSchema renderedSchema database.rest)
  wrapError "ensure schema_migrations table" (server.createTable renderedSchema rest)
  return ⟨some (database.migrations.getD []), rest⟩

/-- The row with the highest version. -/
def newest : List (Int × Bool) → Option (Int × Bool)
  | [] => none
  | row :: rows =>
    match newest rows with
    | none => some row
    | some best => if best.1 ≤ row.1 then some row else some best

def currentVersion (server : Server R) (renderedSchema : String) (database : Database R) :
    Except String (Int × Bool) :=
  match database.migrations with
  | none => .error ("read schema_migrations: " ++ server.missingTable renderedSchema)
  | some rows => .ok ((newest rows).getD (0, false))

def setVersion (server : Server R) (renderedSchema : String) (version : Int) (dirty : Bool)
    (database : Database R) : Except String (Database R) :=
  match database.migrations with
  | none => .error ("truncate schema_migrations: " ++ server.missingTable renderedSchema)
  | some _ =>
    if version = 0 ∧ !dirty then .ok { database with migrations := some [] }
    else .ok { database with migrations := some [(version, dirty)] }

end Bookkeeping

section Apply

variable {R : Type} (slices : SortFunc) (files : Files) (server : Server R) (renderedSchema : String)

/-- The transaction of one script. An error rolls it back. -/
def migrate (path raw : String) (version next : Int) : EStateM String (World R) Unit := fun world =>
  match setVersion server renderedSchema version true world.database with
  | .error err => .error err world
  | .ok marked =>
    let sent : World R := { world with ran := world.ran ++ [path] }
    match server.script (render renderedSchema raw) marked with
    | .error err => .error ("apply migration " ++ path ++ ": " ++ err) sent
    | .ok applied =>
      match setVersion server renderedSchema next false applied with
      | .error err => .error err sent
      | .ok recorded => .ok () { sent with database := recorded }

def upPath (current : Int) (path : String) : EStateM String (World R) Unit := do
  let version := migrationVersion path
  if version ≤ current then return ()
  let raw ← attempt (readFile files path)
  migrate server renderedSchema path raw version version

def downPath (paths : List String) (current : Int) (path : String) : EStateM String (World R) Int := do
  let version := migrationVersion path
  if version ≠ current then return current
  let raw ← attempt (readFile files path)
  let next := nextVersion paths path
  migrate server renderedSchema path raw version next
  return next

/-- What both directions do before the loop. -/
def begin : EStateM String (World R) Int := do
  transact fun world => do
    let database ← ensureMigrationsTable server renderedSchema world.database
    return ((), { world with database })
  let (current, dirty) ← attempt (currentVersion server renderedSchema (← get).database)
  if dirty then throw ("schema migrations are dirty at version " ++ toString current)
  return current

def applyUp (stateSchema : String) : EStateM String (World R) Unit := do
  if isBlank stateSchema then throw "state schema is required"
  let paths ← attempt (migrationPaths slices files ".up.sql")
  let current ← begin server (server.sanitize stateSchema)
  paths.forM (upPath files server (server.sanitize stateSchema) current)

def applyDown (stateSchema : String) : EStateM String (World R) Unit := do
  if isBlank stateSchema then throw "state schema is required"
  let ascending ← attempt (migrationPaths slices files ".down.sql")
  let paths := slices.sort (fun left right => compareTexts right left) ascending
  let current ← begin server (server.sanitize stateSchema)
  let _ ← paths.foldlM (downPath files server (server.sanitize stateSchema) paths) current

end Apply

structure Step where
  path : String
  raw : String
  version : Int
  next : Int

section Steps

variable {R : Type} {server : Server R} {renderedSchema : String}

/-- What the transaction of a script leaves if it commits. -/
def transaction (server : Server R) (renderedSchema : String) (database : Database R) (step : Step) :
    Except String (Database R) := do
  let marked ← setVersion server renderedSchema step.version true database
  let applied ← wrapError ("apply migration " ++ step.path)
    (server.script (render renderedSchema step.raw) marked)
  setVersion server renderedSchema step.next false applied

def runSteps (server : Server R) (renderedSchema : String) (steps : List Step) :
    EStateM String (World R) Unit :=
  steps.forM fun step => migrate server renderedSchema step.path step.raw step.version step.next

theorem setVersion_eq_ok {database recorded : Database R} {version : Int} {dirty : Bool}
    (set : setVersion server renderedSchema version dirty database = .ok recorded) :
    database.migrations.isSome ∧ recorded.migrations.isSome ∧
      currentVersion server renderedSchema recorded = .ok (version, dirty) := by
  unfold setVersion at set
  split at set
  · cases set
  · next rows table =>
    split_ifs at set with zero
    · cases set
      have clean : dirty = false := by simpa using zero.2
      exact ⟨by simp [table], rfl, by simp [currentVersion, newest, zero.1, clean]⟩
    · cases set
      exact ⟨by simp [table], rfl, rfl⟩

theorem setVersion_of_table {database : Database R} (table : database.migrations.isSome)
    (version : Int) (dirty : Bool) :
    ∃ recorded, setVersion server renderedSchema version dirty database = .ok recorded := by
  obtain ⟨rows, table⟩ := Option.isSome_iff_exists.mp table
  simp only [setVersion, table]
  split_ifs
  · exact ⟨_, rfl⟩
  · exact ⟨_, rfl⟩

/-- A committed script leaves its version. -/
theorem recorded_of_transaction {database recorded : Database R} {step : Step}
    (committed : transaction server renderedSchema database step = .ok recorded) :
    recorded.migrations.isSome ∧ currentVersion server renderedSchema recorded = .ok (step.next, false) := by
  obtain ⟨marked, -, rest⟩ := Fallible.bind_eq_ok.mp committed
  obtain ⟨applied, -, set⟩ := Fallible.bind_eq_ok.mp rest
  exact (setVersion_eq_ok set).2

/-- Where the table of versions exists a script is sent, and an error leaves the database as it was. -/
theorem migrate_eq {world : World R} (table : world.database.migrations.isSome) (step : Step) :
    migrate server renderedSchema step.path step.raw step.version step.next world =
      match transaction server renderedSchema world.database step with
      | .ok recorded => .ok () ⟨recorded, world.ran ++ [step.path]⟩
      | .error err => .error err ⟨world.database, world.ran ++ [step.path]⟩ := by
  obtain ⟨marked, set⟩ := @setVersion_of_table _ server renderedSchema _ table step.version true
  simp only [migrate, transaction, set, bind, Except.bind]
  cases server.script (render renderedSchema step.raw) marked with
  | error err => rfl
  | ok applied =>
    simp only [wrapError, Except.mapError]
    cases setVersion server renderedSchema step.next false applied with
    | error err => rfl
    | ok recorded => rfl

theorem runSteps_cons {world : World R} (table : world.database.migrations.isSome) (step : Step)
    (steps : List Step) :
    runSteps server renderedSchema (step :: steps) world =
      match transaction server renderedSchema world.database step with
      | .ok recorded => runSteps server renderedSchema steps ⟨recorded, world.ran ++ [step.path]⟩
      | .error err => .error err ⟨world.database, world.ran ++ [step.path]⟩ := by
  change EStateM.bind (migrate server renderedSchema step.path step.raw step.version step.next)
    (fun _ => runSteps server renderedSchema steps) world = _
  rw [EStateM.bind, migrate_eq table]
  cases transaction server renderedSchema world.database step <;> rfl

/-- The run of the steps stopped after `done` of them, in the database they left: at the end, or at
the step whose script was sent next and failed or could not be recorded. -/
structure Stopped (server : Server R) (renderedSchema : String) (steps : List Step) (start : World R)
    (result : EStateM.Result String (World R) Unit) (done : Nat) (database : Database R) : Prop where
  committed : (steps.take done).foldlM (transaction server renderedSchema) start.database = .ok database
  outcome : (done = steps.length ∧ result = .ok () ⟨database, start.ran ++ steps.map (·.path)⟩) ∨
    ∃ step err, steps[done]? = some step ∧ transaction server renderedSchema database step = .error err ∧
      result = .error err ⟨database, start.ran ++ (steps.take (done + 1)).map (·.path)⟩

theorem runSteps_stopped {world : World R} (table : world.database.migrations.isSome)
    (steps : List Step) : ∃ done database,
      Stopped server renderedSchema steps world (runSteps server renderedSchema steps world) done
        database := by
  induction steps generalizing world with
  | nil => exact ⟨0, world.database, rfl, .inl ⟨rfl, by simp [runSteps]; rfl⟩⟩
  | cons step steps ih =>
    have first := @runSteps_cons R server renderedSchema world table step steps
    cases ran : transaction server renderedSchema world.database step with
    | error err =>
      rw [ran] at first
      exact ⟨0, world.database, rfl, .inr ⟨step, err, rfl, ran, by simpa using first⟩⟩
    | ok recorded =>
      rw [ran] at first
      obtain ⟨done, database, committed, outcome⟩ := @ih ⟨recorded, world.ran ++ [step.path]⟩
        (recorded_of_transaction ran).1
      refine ⟨done + 1, database, ?_, ?_⟩
      · simp only [List.take_succ_cons, List.foldlM_cons, ran]
        exact committed
      · rw [first]
        rcases outcome with ⟨all, result⟩ | ⟨failed, err, next, failing, result⟩
        · exact .inl ⟨by simp [all], by simp [result]⟩
        · exact .inr ⟨failed, err, by simpa using next, failing, by simp [result]⟩

end Steps

/-- The migrations above a recorded version, in ascending order. -/
def pending (migrations : List Migration) (v : Int) : List Migration :=
  migrations.filter fun migration => v < migration.version

/-- The migrations from a recorded version down to the lowest. -/
def undoable (migrations : List Migration) (v : Int) : List Migration :=
  (migrations.filter fun migration => migration.version ≤ v).reverse

def upStep (migration : Migration) : Step :=
  ⟨migration.upName, migration.up, migration.version, migration.version⟩

/-- The version that is left when the first of the migrations is the next to undo. -/
def headVersion (migrations : List Migration) : Int := (migrations.head?.map (·.version)).getD 0

/-- The steps down through migrations in descending order. -/
def downSteps : List Migration → List Step
  | [] => []
  | migration :: rest =>
    ⟨migration.downName, migration.down, migration.version, headVersion rest⟩ :: downSteps rest

section Loops

variable {R : Type} {server : Server R} {renderedSchema : String} {files : Files}
  {migrations : List Migration} (embedded : Embedded files migrations)
include embedded

theorem upPath_eq {migration : Migration} (mem : migration ∈ migrations) (current : Int) :
    upPath files server renderedSchema current migration.upName =
      if migration.version ≤ current then pure ()
      else migrate server renderedSchema migration.upName migration.up migration.version
        migration.version := by
  have file : (migration.upName, migration.up) ∈ allFiles migrations :=
    List.mem_flatMap.mpr ⟨migration, mem, List.mem_cons_self⟩
  simp only [upPath, migration.migrationVersion_upName, embedded.readFile_eq file]
  split_ifs <;> rfl

theorem forM_upPath (current : Int) {some : List Migration} (inside : some ⊆ migrations) :
    (some.map Migration.upName).forM (upPath files server renderedSchema current) =
      runSteps server renderedSchema ((pending some current).map upStep) := by
  unfold pending
  induction some with
  | nil => rfl
  | cons migration rest ih =>
    have onward := ih fun m mem => inside (List.mem_cons_of_mem _ mem)
    change (upPath files server renderedSchema current migration.upName >>= fun _ =>
      (rest.map Migration.upName).forM (upPath files server renderedSchema current)) = _
    rw [upPath_eq embedded (inside List.mem_cons_self), onward, List.filter_cons]
    by_cases above : current < migration.version
    · rw [if_neg (not_le.mpr above), if_pos (decide_eq_true above)]
      rfl
    · rw [if_pos (not_lt.mp above), if_neg (by simpa using above)]
      rfl

theorem downPath_eq {migration : Migration} (mem : migration ∈ migrations) (paths : List String)
    (current : Int) :
    downPath files server renderedSchema paths current migration.downName =
      if migration.version ≠ current then pure current
      else do
        migrate server renderedSchema migration.downName migration.down migration.version
          (nextVersion paths migration.downName)
        return nextVersion paths migration.downName := by
  have file : (migration.downName, migration.down) ∈ allFiles migrations :=
    List.mem_flatMap.mpr ⟨migration, mem, List.mem_cons_of_mem _ List.mem_cons_self⟩
  simp only [downPath, migration.migrationVersion_downName, embedded.readFile_eq file]
  split_ifs <;> rfl

omit embedded in
theorem nextVersion_eq {front rest : List Migration} {migration : Migration}
    (fresh : migration.downName ∉ front.map Migration.downName) :
    nextVersion ((front ++ migration :: rest).map Migration.downName) migration.downName =
      headVersion rest := by
  have index : findDownPathIndex ((front ++ migration :: rest).map Migration.downName)
      migration.downName = some front.length := by
    have before : (front.map Migration.downName).findIdx? (· = migration.downName) = none := by
      rw [List.findIdx?_eq_none_iff]
      intro name mem
      apply decide_eq_false
      rintro rfl
      exact fresh mem
    simp [findDownPathIndex, List.findIdx?_append, before, List.findIdx?_cons]
  have after : ((front ++ migration :: rest).map Migration.downName)[front.length + 1]? =
      rest.head?.map Migration.downName := by
    rw [List.map_append, List.getElem?_append_right (by simp)]
    cases rest <;> simp
  rw [nextVersion, index, Option.bind_some, after, headVersion]
  cases rest.head? with
  | none => rfl
  | some next => exact next.migrationVersion_downName

/-- Migrations of other versions are passed over. -/
theorem foldlM_downPath_skip (paths : List String) {current : Int} {some : List Migration}
    (inside : some ⊆ migrations) (others : ∀ migration ∈ some, migration.version ≠ current) :
    (some.map Migration.downName).foldlM (downPath files server renderedSchema paths) current =
      (pure current : EStateM String (World R) Int) := by
  induction some with
  | nil => rfl
  | cons migration rest ih =>
    rw [List.forall_mem_cons] at others
    rw [List.map_cons, List.foldlM_cons, downPath_eq embedded (inside List.mem_cons_self),
      if_pos others.1]
    exact ih (fun m mem => inside (List.mem_cons_of_mem _ mem)) others.2

/-- From the recorded version on every migration is undone in turn. -/
theorem foldlM_downPath {front rest : List Migration} (inside : rest ⊆ migrations)
    (distinct : ((front ++ rest).map Migration.downName).Nodup) :
    (rest.map Migration.downName).foldlM
        (downPath files server renderedSchema ((front ++ rest).map Migration.downName)) (headVersion rest) =
      (do runSteps server renderedSchema (downSteps rest); return 0 : EStateM String (World R) Int) := by
  induction rest generalizing front with
  | nil => rfl
  | cons migration rest ih =>
    have fresh : migration.downName ∉ front.map Migration.downName := by
      intro mem
      rw [List.map_append, List.nodup_append] at distinct
      exact distinct.2.2 _ mem _ (by simp) rfl
    have onward := @ih (front ++ [migration]) (fun m mem => inside (List.mem_cons_of_mem _ mem))
      (by simpa using distinct)
    rw [List.append_assoc, List.singleton_append] at onward
    have current : ¬migration.version ≠ headVersion (migration :: rest) := by simp [headVersion]
    rw [List.map_cons, List.foldlM_cons, downPath_eq embedded (inside List.mem_cons_self),
      if_neg current, nextVersion_eq fresh, bind_assoc]
    simp only [pure_bind, onward]
    rw [← bind_assoc]
    rfl

end Loops

/-! ## Up and down -/

section Split

variable {migrations : List Migration} {v : Int}
  (ascending : migrations.Pairwise fun a b => a.version < b.version)

include ascending

/-- Ascending migrations split at a version. -/
theorem undoable_append_pending (v : Int) :
    (undoable migrations v).reverse ++ pending migrations v = migrations := by
  rw [undoable, List.reverse_reverse, pending]
  induction migrations with
  | nil => rfl
  | cons migration rest ih =>
    obtain ⟨above, ascending⟩ := List.pairwise_cons.mp ascending
    by_cases low : migration.version ≤ v
    · have onward := ih ascending
      simp [low, not_lt.mpr low, onward]
    · have high : v < migration.version := not_le.mp low
      have none : (rest.filter fun migration => migration.version ≤ v) = [] := by
        rw [List.filter_eq_nil_iff]
        intro other mem
        have := above other mem
        simp only [decide_eq_true_eq]
        omega
      have all : (rest.filter fun migration => v < migration.version) = rest := by
        rw [List.filter_eq_self]
        intro other mem
        have := above other mem
        simp only [decide_eq_true_eq]
        omega
      simp [low, high, none, all]

/-- Going down ends with the lowest migration. -/
theorem getLast_undoable {lowest : Migration} (first : migrations.head? = some lowest)
    (filled : undoable migrations v ≠ []) :
    (undoable migrations v).getLast? = some lowest := by
  have split := congrArg List.head? (undoable_append_pending ascending v)
  rw [List.head?_append_of_ne_nil _ (by simpa using filled), first, List.head?_reverse] at split
  exact split

variable (known : v = 0 ∨ ∃ migration ∈ migrations, migration.version = v)

include known

/-- The migrations up to a recorded version start, from above, with that version. -/
theorem headVersion_undoable : headVersion (undoable migrations v) = v := by
  unfold undoable
  rcases known with rfl | ⟨migration, mem, rfl⟩
  · have none : (migrations.filter fun migration => migration.version ≤ 0) = [] := by
      rw [List.filter_eq_nil_iff]
      intro migration _ low
      have low : (number migration.digits : Int) ≤ 0 := of_decide_eq_true low
      have positive := migration.positive
      omega
    rw [none]
    rfl
  · obtain ⟨low, high, rfl⟩ := List.append_of_mem mem
    obtain ⟨-, above, -⟩ := List.pairwise_append.mp ascending
    have high : (high.filter fun other => other.version ≤ migration.version) = [] := by
      rw [List.filter_eq_nil_iff]
      intro other inside
      have := (List.pairwise_cons.mp above).1 other inside
      simp only [decide_eq_true_eq]
      omega
    simp [headVersion, high]

/-- After all pending migrations the highest version is recorded. -/
theorem highest_recorded :
    ((pending migrations v).getLast?.map (·.version)).getD v =
      (migrations.getLast?.map (·.version)).getD 0 := by
  have split := undoable_append_pending ascending v
  have current := headVersion_undoable ascending known
  cases last : (pending migrations v).getLast? with
  | none =>
    rw [List.getLast?_eq_none_iff.mp last, List.append_nil] at split
    rw [headVersion, ← List.getLast?_reverse, split] at current
    simp [current]
  | some migration =>
    have whole : migrations.getLast? = some migration := by
      rw [← split, List.getLast?_append, last]
      rfl
    rw [whole]
    rfl

theorem undoable_eq_nil_iff : undoable migrations v = [] ↔ v = 0 := by
  have current := headVersion_undoable ascending known
  cases todo : undoable migrations v with
  | nil =>
    rw [todo] at current
    exact ⟨fun _ => current.symm, fun _ => rfl⟩
  | cons migration rest =>
    rw [todo] at current
    have version : (number migration.digits : Int) = v := current
    have positive := migration.positive
    simp only [reduceCtorEq, false_iff]
    omega

end Split

section Runs

variable {R : Type} {server : Server R} {renderedSchema : String}

theorem begin_eq {world : World R} {start : Database R} {v : Int}
    (ready : ensureMigrationsTable server renderedSchema world.database = .ok start)
    (recorded : currentVersion server renderedSchema start = .ok (v, false)) :
    begin server renderedSchema world = .ok v ⟨start, world.ran⟩ := by
  have reads : (EStateM.get : EStateM String (World R) (World R)) = fun world => .ok world world := rfl
  simp only [begin, transact, attempt, bind, EStateM.bind, ready, Except.bind]
  simp only [get, getThe, MonadStateOf.get, reads, pure, Except.pure, recorded]
  rfl

/-- The version after some committed steps is the one the last of them left. -/
theorem recorded_of_steps {steps : List Step} {before after : Database R} {v : Int}
    (committed : steps.foldlM (transaction server renderedSchema) before = .ok after)
    (recorded : currentVersion server renderedSchema before = .ok (v, false)) :
    currentVersion server renderedSchema after = .ok ((steps.getLast?.map (·.next)).getD v, false) := by
  induction steps generalizing before v with
  | nil =>
    cases committed
    exact recorded
  | cons step steps ih =>
    obtain ⟨middle, first, rest⟩ := Fallible.bind_eq_ok.mp committed
    have onward := ih rest (recorded_of_transaction first).2
    rw [onward, List.getLast?_cons]
    cases steps.getLast? <;> rfl

end Runs

section Settled

variable {R : Type} {slices : SortFunc} {server : Server R} {files : Files} {migrations : List Migration}
  {stateSchema : String} {world : World R} {start : Database R} {v : Int}

theorem applyUp_eq (embedded : Embedded files migrations) (named : isBlank stateSchema = false)
    (ready : ensureMigrationsTable server (server.sanitize stateSchema) world.database = .ok start)
    (recorded : currentVersion server (server.sanitize stateSchema) start = .ok (v, false)) :
    applyUp slices files server stateSchema world =
      runSteps server (server.sanitize stateSchema)
        ((pending migrations v).map upStep) ⟨start, world.ran⟩ := by
  have paths : migrationPaths slices files ".up.sql" = .ok (migrations.map Migration.upName) :=
    embedded.migrationPaths_eq slices filter_up
  have loop := @forM_upPath R server (server.sanitize stateSchema) _ _ embedded v migrations
    fun _ mem => mem
  have unfolded : applyUp slices files server stateSchema world =
      EStateM.bind (begin server (server.sanitize stateSchema)) (fun current =>
        (migrations.map Migration.upName).forM
          (upPath files server (server.sanitize stateSchema) current)) world := by
    simp only [applyUp, named, paths, Bool.false_eq_true, if_false]
    rfl
  rw [unfolded, EStateM.bind, begin_eq ready recorded, ← loop]

/-- The loop passes over the migrations above the recorded version and undoes the others. -/
theorem foldlM_downNames (embedded : Embedded files migrations) (renderedSchema : String)
    (known : v = 0 ∨ ∃ migration ∈ migrations, migration.version = v) :
    (migrations.reverse.map Migration.downName).foldlM (downPath files server renderedSchema
      (migrations.reverse.map Migration.downName)) v =
        (do runSteps server renderedSchema (downSteps (undoable migrations v))
            return 0 : EStateM String (World R) Int) := by
  have split := congrArg List.reverse (undoable_append_pending embedded.ascending v)
  rw [List.reverse_append, List.reverse_reverse] at split
  have others : ∀ migration ∈ (pending migrations v).reverse, migration.version ≠ v := by
    intro migration mem
    rw [pending, List.mem_reverse, List.mem_filter] at mem
    have above := of_decide_eq_true mem.2
    omega
  have inside : (pending migrations v).reverse ⊆ migrations ∧ undoable migrations v ⊆ migrations := by
    constructor
    · intro migration mem
      exact List.mem_of_mem_filter (List.mem_reverse.mp mem)
    · intro migration mem
      exact List.mem_of_mem_filter (List.mem_reverse.mp mem)
  have current := headVersion_undoable embedded.ascending known
  generalize (pending migrations v).reverse = high at split others inside
  generalize undoable migrations v = low at split inside current ⊢
  have distinct : ((high ++ low).map Migration.downName).Nodup := by
    rw [split, List.map_reverse, List.nodup_reverse]
    exact embedded.nodup_downNames
  have skipped := @foldlM_downPath_skip R server renderedSchema _ _ embedded
    ((high ++ low).map Migration.downName) v high inside.1 others
  have undone := @foldlM_downPath R server renderedSchema _ _ embedded high low inside.2 distinct
  rw [current] at undone
  rw [← split]
  nth_rewrite 2 [List.map_append]
  rw [List.foldlM_append, skipped, pure_bind, undone]

theorem applyDown_eq (embedded : Embedded files migrations) (named : isBlank stateSchema = false)
    (ready : ensureMigrationsTable server (server.sanitize stateSchema) world.database = .ok start)
    (recorded : currentVersion server (server.sanitize stateSchema) start = .ok (v, false))
    (known : v = 0 ∨ ∃ migration ∈ migrations, migration.version = v) :
    applyDown slices files server stateSchema world =
      runSteps server (server.sanitize stateSchema)
        (downSteps (undoable migrations v)) ⟨start, world.ran⟩ := by
  have ascending : migrationPaths slices files ".down.sql" = .ok (migrations.map Migration.downName) :=
    embedded.migrationPaths_eq slices filter_down
  have unfolded : applyDown slices files server stateSchema world =
      EStateM.bind (begin server (server.sanitize stateSchema)) (fun current => do
        let _ ← (migrations.reverse.map Migration.downName).foldlM (downPath files server
          (server.sanitize stateSchema) (migrations.reverse.map Migration.downName)) current) world := by
    simp only [applyDown, named, ascending, Bool.false_eq_true, if_false]
    rw [← embedded.sort_downNames slices]
    rfl
  rw [unfolded, EStateM.bind, begin_eq ready recorded]
  simp only [@foldlM_downNames _ server _ _ _ embedded (server.sanitize stateSchema) known]
  change EStateM.bind (EStateM.bind (runSteps server (server.sanitize stateSchema)
    (downSteps (undoable migrations v))) fun _ => pure 0) (fun _ => pure ()) ⟨start, world.ran⟩ = _
  unfold EStateM.bind
  cases runSteps server (server.sanitize stateSchema) (downSteps (undoable migrations v))
    ⟨start, world.ran⟩ <;> rfl

end Settled

section Left

variable {R : Type} {server : Server R} {renderedSchema : String} {world : World R} {v : Int}
  {result : EStateM.Result String (World R) Unit} {done : Nat} {database : Database R}

theorem table_of_currentVersion {recorded : Int × Bool}
    (read : currentVersion server renderedSchema database = .ok recorded) : database.migrations.isSome := by
  unfold currentVersion at read
  split at read
  · cases read
  · next table => simp [table]

theorem recorded_of_up {migrations : List Migration}
    (stopped : Stopped server renderedSchema (migrations.map upStep) world result done database)
    (recorded : currentVersion server renderedSchema world.database = .ok (v, false)) :
    currentVersion server renderedSchema database =
      .ok (((migrations.take done).getLast?.map (·.version)).getD v, false) := by
  have left := recorded_of_steps stopped.committed recorded
  rw [← List.map_take, List.getLast?_map, Option.map_map] at left
  exact left

theorem getLast_downSteps (migrations : List Migration) (done : Nat) :
    (((downSteps migrations).take done).getLast?.map (·.next)).getD (headVersion migrations) =
      headVersion (migrations.drop done) := by
  induction migrations generalizing done with
  | nil => cases done <;> rfl
  | cons migration rest ih =>
    cases done with
    | zero => rfl
    | succ done =>
      rw [downSteps, List.take_succ_cons, List.getLast?_cons, List.drop_succ_cons, ← ih done]
      cases ((downSteps rest).take done).getLast? <;> rfl

theorem recorded_of_down {migrations : List Migration}
    (stopped : Stopped server renderedSchema (downSteps migrations) world result done database)
    (recorded : currentVersion server renderedSchema world.database = .ok (headVersion migrations, false)) :
    currentVersion server renderedSchema database = .ok (headVersion (migrations.drop done), false) := by
  rw [recorded_of_steps stopped.committed recorded, getLast_downSteps]

theorem length_downSteps (migrations : List Migration) :
    (downSteps migrations).length = migrations.length := by
  induction migrations with
  | nil => rfl
  | cons migration rest ih => rw [downSteps, List.length_cons, List.length_cons, ih]

theorem getElem_downSteps {migrations : List Migration} {i : Nat} {step : Step}
    (found : (downSteps migrations)[i]? = some step) :
    ∃ migration, migrations[i]? = some migration ∧ step = ⟨migration.downName, migration.down,
      migration.version, headVersion (migrations.drop (i + 1))⟩ := by
  induction migrations generalizing i with
  | nil => cases found
  | cons migration rest ih =>
    cases i with
    | zero =>
      cases found
      exact ⟨migration, rfl, rfl⟩
    | succ i =>
      rw [downSteps, List.getElem?_cons_succ] at found
      obtain ⟨other, place, rfl⟩ := ih found
      exact ⟨other, by simpa using place, rfl⟩

/-- A script that drops the schema drops the table of versions with it, and its version cannot be
recorded. -/
theorem transaction_dropSchema {step : Step} (shipped : step.raw = shippedDown)
    (drops : ∀ database dropped, server.script (dropSchema renderedSchema) database = .ok dropped →
      dropped.migrations = none) : ∃ err, transaction server renderedSchema database step = .error err := by
  rw [Fallible.exists_error_iff]
  rintro ⟨recorded, committed⟩
  obtain ⟨marked, -, rest⟩ := Fallible.bind_eq_ok.mp committed
  obtain ⟨applied, ran, set⟩ := Fallible.bind_eq_ok.mp rest
  rw [wrapError_eq_ok, shipped, render_shippedDown] at ran
  have table := (setVersion_eq_ok set).1
  rw [drops marked applied ran] at table
  cases table

/-- A script that succeeds and leaves the table of versions is committed. -/
theorem transaction_keeps {step : Step} (table : database.migrations.isSome)
    (keeps : ∀ marked, marked.migrations.isSome → ∃ applied,
      server.script (render renderedSchema step.raw) marked = .ok applied ∧ applied.migrations.isSome) :
    ∃ recorded, transaction server renderedSchema database step = .ok recorded := by
  obtain ⟨marked, set⟩ := @setVersion_of_table _ server renderedSchema _ table step.version true
  obtain ⟨applied, ran, kept⟩ := keeps marked (setVersion_eq_ok set).2.1
  obtain ⟨recorded, after⟩ := @setVersion_of_table _ server renderedSchema _ kept step.next false
  refine ⟨recorded, Fallible.bind_eq_ok.mpr ⟨marked, set, Fallible.bind_eq_ok.mpr ⟨applied, ?_, after⟩⟩⟩
  exact wrapError_eq_ok.mpr ran

theorem lt_length_of_down {migrations : List Migration} {lowest : Migration}
    (stopped : Stopped server renderedSchema (downSteps migrations) world result done database)
    (last : migrations.getLast? = some lowest) (shipped : lowest.down = shippedDown)
    (drops : ∀ database dropped, server.script (dropSchema renderedSchema) database = .ok dropped →
      dropped.migrations = none) : done < migrations.length := by
  rcases stopped.outcome with ⟨all, -⟩ | ⟨step, err, next, -⟩
  · -- the last transaction would have committed
    have filled : downSteps migrations ≠ [] := by
      rw [← List.length_pos_iff, length_downSteps, List.length_pos_iff]
      rintro rfl
      cases last
    obtain ⟨front, step, whole⟩ : ∃ front step, downSteps migrations = front ++ [step] :=
      ⟨_, _, (List.dropLast_append_getLast filled).symm⟩
    have size := length_downSteps migrations
    have committed := stopped.committed
    rw [all, List.take_length, whole, List.foldlM_append] at committed
    obtain ⟨middle, -, ran⟩ := Fallible.bind_eq_ok.mp committed
    have place : (downSteps migrations)[front.length]? = some step := by simp [whole]
    obtain ⟨migration, place, shape⟩ := getElem_downSteps place
    rw [whole, List.length_append, List.length_singleton] at size
    rw [List.getLast?_eq_getElem?, ← size, Nat.add_sub_cancel, place] at last
    cases last
    have raw : step.raw = shippedDown := by rw [shape, shipped]
    obtain ⟨err, failed⟩ := @transaction_dropSchema _ server renderedSchema middle step raw drops
    have committed : transaction server renderedSchema middle step = .ok database := by
      simpa [List.foldlM_cons] using ran
    rw [failed] at committed
    cases committed
  · rw [← length_downSteps]
    exact (List.getElem?_eq_some_iff.mp next).1

/-- If the scripts above the lowest succeed and leave the table of versions, the last one is reached. -/
theorem reaches_last {migrations : List Migration}
    (stopped : Stopped server renderedSchema (downSteps migrations) world result done database)
    (table : database.migrations.isSome) (less : done < migrations.length)
    (keeps : ∀ migration ∈ migrations.dropLast, ∀ marked, marked.migrations.isSome → ∃ applied,
      server.script (render renderedSchema migration.down) marked = .ok applied ∧
        applied.migrations.isSome) : done + 1 = migrations.length := by
  by_contra early
  rcases stopped.outcome with ⟨all, -⟩ | ⟨step, err, next, failed, -⟩
  · rw [length_downSteps] at all
    omega
  · obtain ⟨migration, place, shape⟩ := getElem_downSteps next
    have inside : migration ∈ migrations.dropLast := by
      have kept : done < migrations.length - 1 := by omega
      apply List.mem_of_getElem? (i := done)
      rw [List.getElem?_dropLast, if_pos kept, place]
    have raw : step.raw = migration.down := by rw [shape]
    obtain ⟨after, committed⟩ := @transaction_keeps R server renderedSchema database step table
      (raw.symm ▸ keeps migration inside)
    rw [failed] at committed
    cases committed

end Left

/-- Going up runs exactly the scripts above the recorded version, in ascending order, and ends with
the highest. Going down runs the scripts from the recorded version on in descending order. Both stop
at a script that fails, in the database that the scripts before it left. As the lowest script drops
the table of versions, going down from any migration stops there with an error. -/
theorem migrations_up_and_down {R : Type} (slices : SortFunc) (server : Server R) {files : Files}
    {migrations : List Migration} (embedded : Embedded files migrations) {lowest : Migration}
    (first : migrations.head? = some lowest) (shipped : lowest.down = shippedDown) {stateSchema : String}
    (named : isBlank stateSchema = false)
    (drops : ∀ database dropped,
      server.script (dropSchema (server.sanitize stateSchema)) database = .ok dropped →
        dropped.migrations = none)
    {world : World R} {start : Database R} {v : Int}
    (ready : ensureMigrationsTable server (server.sanitize stateSchema) world.database = .ok start)
    (recorded : currentVersion server (server.sanitize stateSchema) start = .ok (v, false))
    (known : v = 0 ∨ ∃ migration ∈ migrations, migration.version = v) :
    (∃ done database,
      Stopped server (server.sanitize stateSchema) ((pending migrations v).map upStep) ⟨start, world.ran⟩
        (applyUp slices files server stateSchema world) done database ∧
      currentVersion server (server.sanitize stateSchema) database =
        .ok ((((pending migrations v).take done).getLast?.map (·.version)).getD v, false) ∧
      (done = (pending migrations v).length → currentVersion server (server.sanitize stateSchema) database =
        .ok ((migrations.getLast?.map (·.version)).getD 0, false))) ∧
    ∃ done database,
      Stopped server (server.sanitize stateSchema) (downSteps (undoable migrations v)) ⟨start, world.ran⟩
        (applyDown slices files server stateSchema world) done database ∧
      currentVersion server (server.sanitize stateSchema) database =
        .ok (headVersion ((undoable migrations v).drop done), false) ∧
      (done = (undoable migrations v).length ↔ v = 0) ∧
      ((∀ migration ∈ (undoable migrations v).dropLast, ∀ marked, marked.migrations.isSome → ∃ applied,
          server.script (render (server.sanitize stateSchema) migration.down) marked = .ok applied ∧
            applied.migrations.isSome) →
        v ≠ 0 → done + 1 = (undoable migrations v).length ∧
          currentVersion server (server.sanitize stateSchema) database = .ok (lowest.version, false)) := by
  have table := table_of_currentVersion recorded
  have current := headVersion_undoable embedded.ascending known
  have nothing := undoable_eq_nil_iff embedded.ascending known
  constructor
  · obtain ⟨done, database, stopped⟩ := @runSteps_stopped R server (server.sanitize stateSchema)
      ⟨start, world.ran⟩ table ((pending migrations v).map upStep)
    rw [← @applyUp_eq _ slices _ _ _ _ _ _ _ embedded named ready recorded] at stopped
    have left := recorded_of_up stopped recorded
    refine ⟨done, database, stopped, left, ?_⟩
    rintro rfl
    rw [left, List.take_length, highest_recorded embedded.ascending known]
  · obtain ⟨done, database, stopped⟩ := @runSteps_stopped R server (server.sanitize stateSchema)
      ⟨start, world.ran⟩ table (downSteps (undoable migrations v))
    rw [← @applyDown_eq _ slices _ _ _ _ _ _ _ embedded named ready recorded known] at stopped
    have left := recorded_of_down stopped (current.symm ▸ recorded)
    have short : v ≠ 0 → (undoable migrations v).getLast? = some lowest ∧
        done < (undoable migrations v).length := by
      intro positive
      have last := getLast_undoable embedded.ascending first (mt nothing.mp positive)
      exact ⟨last, lt_length_of_down stopped last shipped drops⟩
    refine ⟨done, database, stopped, left, ⟨?_, ?_⟩, ?_⟩
    · intro all
      by_contra positive
      exact absurd all (short positive).2.ne
    · intro zero
      have empty := nothing.mpr zero
      rw [empty] at stopped ⊢
      rcases stopped.outcome with ⟨all, -⟩ | ⟨step, err, next, -⟩
      · exact all
      · cases next
    · intro keeps positive
      obtain ⟨last, less⟩ := short positive
      have reached := reaches_last stopped (table_of_currentVersion left) less keeps
      refine ⟨reached, ?_⟩
      obtain ⟨front, whole⟩ := List.getLast?_eq_some_iff.mp last
      rw [whole, List.length_append, List.length_singleton] at reached
      rw [left, whole, Nat.succ.inj reached, List.drop_left]
      rfl

/-! The shipped pair, alone and with a second one, on a server where every script succeeds. -/

def initial (up : String) : Migration where
  digits := ['0', '0', '0', '0', '0', '1']
  width := rfl
  numeric := List.all_eq_true.mp (by decide)
  positive := by decide
  title := some "init_state_schema".toList
  flat := by
    rintro cs ⟨⟩
    decide +kernel
  up := up
  down := shippedDown

def second : Migration where
  digits := ['0', '0', '0', '0', '0', '2']
  width := rfl
  numeric := List.all_eq_true.mp (by decide)
  positive := by decide
  title := none
  flat := by rintro cs ⟨⟩
  up := ""
  down := ""

def obliging : Server Unit where
  sanitize name := "\"" ++ name ++ "\""
  missingTable _ := "ERROR: schema \"transmogr\" does not exist (SQLSTATE 3F000)"
  createSchema _ rest := .ok rest
  createTable _ _ := .ok ()
  script text database :=
    if text = dropSchema "\"transmogr\"" then .ok { database with migrations := none }
    else .ok database

def migratedTo (version : Int) : World Unit := ⟨⟨some [(version, false)], ()⟩, []⟩

def migrated : World Unit := migratedTo 1

theorem embedded_initial (up : String) : Embedded (allFiles [initial up]) [initial up] :=
  ⟨List.cons_ne_nil _ _, List.pairwise_singleton _ _, .refl _⟩

theorem obliging_drops (database dropped : Database Unit)
    (ran : obliging.script (dropSchema (obliging.sanitize "transmogr")) database = .ok dropped) :
    dropped.migrations = none := by
  simp only [obliging] at ran
  cases ran
  rfl

theorem embedded_second : Embedded (allFiles [initial "", second]) [initial "", second] :=
  ⟨List.cons_ne_nil _ _, List.pairwise_pair.mpr (by decide), .refl _⟩

/-- Up from the first of two versions, and down from the second. -/
theorem migrations_up_and_down_shipped :
    (∃ done database,
      Stopped obliging (obliging.sanitize "transmogr") [upStep second] (migratedTo 1)
        (applyUp SortFunc.insertion (allFiles [initial "", second]) obliging "transmogr" (migratedTo 1))
        done database ∧
      (done = 1 → currentVersion obliging (obliging.sanitize "transmogr") database = .ok (2, false))) ∧
    ∃ done database,
      Stopped obliging (obliging.sanitize "transmogr") (downSteps [second, initial ""]) (migratedTo 2)
        (applyDown SortFunc.insertion (allFiles [initial "", second]) obliging "transmogr"
          (migratedTo 2)) done database ∧
      done + 1 = 2 ∧
      currentVersion obliging (obliging.sanitize "transmogr") database = .ok (1, false) := by
  have known : ∀ migration ∈ [initial "", second], migration.version = 0 ∨
      ∃ other ∈ [initial "", second], other.version = migration.version :=
    fun migration mem => .inr ⟨migration, mem, rfl⟩
  have runs := fun v => @migrations_up_and_down Unit SortFunc.insertion obliging _ _ embedded_second _
    rfl rfl "transmogr" (by decide +kernel) obliging_drops (migratedTo v) (migratedTo v).database v rfl rfl
  obtain ⟨⟨done, database, stopped, -, highest⟩, -⟩ := runs 1 (known (initial "") (by simp))
  obtain ⟨-, undone, left, stoppedToo, -, -, lowest⟩ := runs 2 (known second (by simp))
  have keeps : ∀ migration ∈ [second], ∀ marked : Database Unit, marked.migrations.isSome →
      ∃ applied, obliging.script (render (obliging.sanitize "transmogr") migration.down) marked =
        .ok applied ∧ applied.migrations.isSome := by
    intro migration mem marked table
    cases List.mem_singleton.mp mem
    have runs : ∀ text, text ≠ dropSchema "\"transmogr\"" → obliging.script text marked = .ok marked :=
      fun text other => if_neg other
    exact ⟨marked, runs _ (by decide +kernel), table⟩
  obtain ⟨reached, recorded⟩ := lowest keeps (by decide)
  exact ⟨⟨done, database, stopped, highest⟩, undone, left, stoppedToo, reached, recorded⟩

/-- No script fails, and yet going down from the first version is an error that undoes nothing. -/
theorem down_from_first_fails :
    (∀ text database, ∃ applied, obliging.script text database = .ok applied) ∧
    currentVersion obliging (obliging.sanitize "transmogr") migrated.database = .ok (1, false) ∧
    ∀ up, (allFiles [initial up]) = [("000001_init_state_schema.up.sql", up),
        ("000001_init_state_schema.down.sql", shippedDown)] ∧
      applyDown SortFunc.insertion (allFiles [initial up]) obliging "transmogr" migrated =
        .error ("truncate schema_migrations: " ++ obliging.missingTable (obliging.sanitize "transmogr"))
          ⟨⟨some [(1, false)], ()⟩, ["000001_init_state_schema.down.sql"]⟩ := by
  refine ⟨?_, rfl, ?_⟩
  · intro text database
    simp only [obliging]
    split_ifs
    · exact ⟨_, rfl⟩
    · exact ⟨_, rfl⟩
  intro up
  have upName : (initial up).upName = "000001_init_state_schema.up.sql" := by
    change (initial "").upName = _
    decide +kernel
  have downName : (initial up).downName = "000001_init_state_schema.down.sql" := by
    change (initial "").downName = _
    decide +kernel
  refine ⟨by rw [← upName, ← downName]; rfl, ?_⟩
  have todo : undoable [initial up] 1 = [initial up] := rfl
  rw [@applyDown_eq Unit SortFunc.insertion obliging _ _ _ migrated _ _ (embedded_initial up)
    (by decide +kernel) rfl rfl (.inr ⟨initial up, List.mem_cons_self, rfl⟩), todo, ← downName]
  have failed : transaction obliging (obliging.sanitize "transmogr") migrated.database
      ⟨(initial up).downName, shippedDown, 1, 0⟩ =
        .error ("truncate schema_migrations: " ++ obliging.missingTable (obliging.sanitize "transmogr")) := by
    simp only [transaction, migrated, setVersion, render_shippedDown, obliging]
    rfl
  have version : (initial up).version = 1 := rfl
  have steps : downSteps [initial up] = [⟨(initial up).downName, shippedDown, 1, 0⟩] := by
    rw [downSteps, version]
    rfl
  have ran := @runSteps_cons Unit obliging (obliging.sanitize "transmogr") migrated rfl
    ⟨(initial up).downName, shippedDown, 1, 0⟩ []
  rw [failed] at ran
  rw [steps]
  exact ran

end Transmogr.Migrations
