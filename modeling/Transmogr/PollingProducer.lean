import Mathlib.Data.List.Induction
import Mathlib.Data.List.Sort
import Mathlib.Data.Prod.Lex
import Mathlib.Data.String.Basic
import Transmogr.Changefeed
import Transmogr.Machine

/-! Producer sessions of one polled table: `restoreCursors`, the polling adapter's
`RestoreCursors`, and `pollTable` with `HandleBatch`, on any pod and cut anywhere,
with local writes in between. The rows are those the local region owns. -/
namespace Transmogr.PollingProducer

/-- One state of a row. Positions are never reused, so a state is its position. -/
structure RowState (K : Type) where
  version : Int
  primaryKey : K

variable {K : Type} [LinearOrder K]

def RowState.position (row : RowState K) : Int ×ₗ K := toLex (row.version, row.primaryKey)

/-- The order of the page query: by version, then by key. -/
instance : LinearOrder (RowState K) := LinearOrder.lift' RowState.position (by
  rintro ⟨version, key⟩ ⟨version', key'⟩ same
  simpa [RowState.position] using same)

theorem lt_iff {row row' : RowState K} :
    row < row' ↔ row.version < row'.version ∨
      row.version = row'.version ∧ row.primaryKey < row'.primaryKey :=
  Prod.Lex.toLex_lt_toLex

/-- `pollCursor`; a nil key follows from a table maximum. -/
structure PollCursor (K : Type) where
  version : Int
  primaryKey : Option K
  deriving DecidableEq

/-- The `WHERE` clause of the page query. -/
def PollCursor.Before (cursor : PollCursor K) (row : RowState K) : Prop :=
  match cursor.primaryKey with
  | none => cursor.version < row.version
  | some key => cursor.version < row.version ∨ cursor.version = row.version ∧ key < row.primaryKey

instance (cursor : PollCursor K) (row : RowState K) : Decidable (cursor.Before row) := by
  unfold PollCursor.Before
  split <;> infer_instance

/-- The cursor that a change leaves behind. -/
def RowState.cursor (row : RowState K) : PollCursor K := ⟨row.version, some row.primaryKey⟩

omit [LinearOrder K] in
theorem eq_cursor {cursor : PollCursor K} {key : K} (keyed : cursor.primaryKey = some key) :
    cursor = RowState.cursor ⟨cursor.version, key⟩ := by
  cases cursor
  cases keyed
  rfl

@[simp] theorem before_cursor {row row' : RowState K} : row.cursor.Before row' ↔ row < row' :=
  lt_iff.symm

def defaultPollBatchSize : Nat := 1000

/-- `ChangefeedPollingListTableChanges`. -/
def listTableChanges (rows : List (RowState K)) (cursor : PollCursor K) : List (RowState K) :=
  ((rows.filter fun row => cursor.Before row).insertionSort (· ≤ ·)).take defaultPollBatchSize

/-- `ChangefeedPollingCurrentMaxVersion`: `COALESCE(MAX(version), 0)`. -/
def currentMaxVersion : List (RowState K) → Int
  | [] => 0
  | row :: rows => rows.foldl (fun version row => max version row.version) row.version

/-- The row of `changefeed_cursors`; before the first save its fields are empty. -/
structure StoredCursor (K : Type) where
  source : String
  lastVersion : Int
  lastPrimaryKey : Option K
  deriving DecidableEq

def StoredCursor.cursor (stored : StoredCursor K) : PollCursor K :=
  ⟨stored.lastVersion, stored.lastPrimaryKey⟩

/-- `Polling.RestoreCursors`: version 0 stands for no stored cursor. -/
def restoredCursor (rows : List (RowState K)) (loaded : StoredCursor K) : PollCursor K :=
  if loaded.lastVersion = 0 then ⟨currentMaxVersion rows, none⟩ else loaded.cursor

/-- The loop over a page that leaves its last change in the cursor. -/
def pageCursor (cursor : PollCursor K) (page : List (RowState K)) : PollCursor K :=
  page.foldl (fun _ row => row.cursor) cursor

/-- How far `pollTable` is. -/
inductive Stage (K : Type)
  | idle
  /-- `HandleBatch` works on a page; these batches are still to be enqueued. -/
  | handling (page : List (RowState K)) (pending : List (String × List (RowState K)))
  /-- `HandleBatch` returned nil, or was not called. -/
  | handled (page : List (RowState K))

def Stage.page : Stage K → List (RowState K)
  | .idle => []
  | .handling page _ => page
  | .handled page => page

def Stage.pending : Stage K → List (String × List (RowState K))
  | .handling _ pending => pending
  | _ => []

inductive Session (K : Type)
  /-- `restoreCursors` has loaded the stored cursor. -/
  | restoring (pod : Nat) (loaded : StoredCursor K)
  | polling (pod : Nat) (stage : Stage K)

/-- The page in work. -/
def Session.page : Option (Session K) → List (RowState K)
  | some (.polling _ stage) => stage.page
  | _ => []

structure System (K : Type) where
  rows : List (RowState K)
  store : StoredCursor K
  /-- The adapters' in-memory cursors; a pod keeps its own when a session ends. -/
  memory : List (Nat × PollCursor K)
  session : Option (Session K)
  /-- Every state the table has held. -/
  history : List (RowState K)
  /-- Whether some session has run `RestoreCursors`, and what was written since. -/
  restored : Bool
  written : List (RowState K)
  /-- The states pages have returned. -/
  listed : List (RowState K)
  enqueued : List (String × RowState K)

def System.init (rows : List (RowState K)) : System K where
  rows := rows
  store := ⟨"", 0, none⟩
  memory := []
  session := none
  history := rows
  restored := false
  written := []
  listed := []
  enqueued := []

def setCursor (memory : List (Nat × PollCursor K)) (pod : Nat) (cursor : PollCursor K) :
    List (Nat × PollCursor K) :=
  (pod, cursor) :: memory.filter (·.1 ≠ pod)

/-- A missing entry reads as Go's zero value. -/
def System.cursor (s : System K) (pod : Nat) : PollCursor K :=
  (s.memory.lookup pod).getD ⟨0, none⟩

inductive Action (K : Type)
  | write (row : RowState K)
  | delete (key : K)
  | start (pod : Nat)
  | restore
  | list
  | enqueue (index : Nat)
  | save
  | advance
  | stop

/-- What `pollTable` does with a page. The enqueues of `HandleBatch` run
concurrently; a page without changes is not handed to it, and one whose changes
the broadcast mode filters is neither enqueued nor saved. -/
def handle (cfg : ChangefeedConfig) (page : List (RowState K)) : Stage K :=
  if page = [] then .handled page
  else if broadcastAllowed cfg.broadcastMode .upsert then
    .handling page (cfg.peers.flatMap fun peer =>
      (Chunks.chunks cfg.maxBatchEvents page).map fun chunk => (peer, chunk))
  else .handled page

def step (cfg : ChangefeedConfig) (s : System K) : Action K → Option (System K)
  | .write row => some { s with
      rows := s.rows.filter (·.primaryKey ≠ row.primaryKey) ++ [row]
      history := row :: s.history
      written := if s.restored then row :: s.written else s.written }
  | .delete key => some { s with rows := s.rows.filter (·.primaryKey ≠ key) }
  | .start pod => match s.session with
    | some _ => none
    | none =>
      if s.store.source ≠ "" ∧ s.store.source ≠ cfg.source then none
      else
        let loaded := if s.store.source = "" then { s.store with source := cfg.source } else s.store
        some { s with store := loaded, session := some (.restoring pod loaded) }
  | .restore => match s.session with
    | some (.restoring pod loaded) => some { s with
        memory := setCursor s.memory pod (restoredCursor s.rows loaded)
        session := some (.polling pod .idle)
        restored := true }
    | _ => none
  | .list => match s.session with
    | some (.polling pod .idle) =>
      let page := listTableChanges s.rows (s.cursor pod)
      some { s with listed := page ++ s.listed, session := some (.polling pod (handle cfg page)) }
    | _ => none
  | .enqueue index => match s.session with
    | some (.polling pod (.handling page pending)) => pending[index]?.map fun batch => { s with
        enqueued := batch.2.map (batch.1, ·) ++ s.enqueued
        session := some (.polling pod (.handling page (pending.eraseIdx index))) }
    | _ => none
  | .save => match s.session with
    | some (.polling pod (.handling page [])) =>
      let last := pageCursor (s.cursor pod) page
      some { s with
        store := ⟨cfg.source, last.version, last.primaryKey⟩
        session := some (.polling pod (.handled page)) }
    | _ => none
  | .advance => match s.session with
    | some (.polling pod (.handled page)) => some { s with
        memory := setCursor s.memory pod (pageCursor (s.cursor pod) page)
        session := some (.polling pod .idle) }
    | _ => none
  | .stop => some { s with session := none }

/-- The cursors of the table: on every pod in memory, and the stored one, where
version 0 stands for none. -/
def System.cursors (s : System K) : List (PollCursor K) :=
  s.memory.map (·.2) ++ if s.store.lastVersion = 0 then [] else [s.store.cursor]

/-- Some cursor has reached or passed the state's position. -/
def System.Passed (s : System K) (row : RowState K) : Prop :=
  ∃ cursor ∈ s.cursors, ¬ cursor.Before row

/-- The state was enqueued for every peer. -/
def System.Sent (cfg : ChangefeedConfig) (s : System K) (row : RowState K) : Prop :=
  ∀ peer ∈ cfg.peers, (peer, row) ∈ s.enqueued

/-- The state was overwritten or deleted before a page returned it. -/
def System.Unseen (s : System K) (row : RowState K) : Prop :=
  row ∉ s.rows ∧ row ∉ s.listed

instance (s : System K) (row : RowState K) : Decidable (s.Passed row) :=
  inferInstanceAs (Decidable (∃ cursor ∈ s.cursors, ¬ cursor.Before row))

instance (cfg : ChangefeedConfig) (s : System K) (row : RowState K) : Decidable (s.Sent cfg row) :=
  inferInstanceAs (Decidable (∀ peer ∈ cfg.peers, (peer, row) ∈ s.enqueued))

instance (s : System K) (row : RowState K) : Decidable (s.Unseen row) :=
  inferInstanceAs (Decidable (_ ∧ _))

/-- The row's present state is not lost by replacing it: no page has returned it,
or it is sent, or the session at work still holds it. -/
def System.Replaceable (cfg : ChangefeedConfig) (s : System K) (key : K) : Prop :=
  ∀ row ∈ s.rows, row.primaryKey = key → row ∈ s.listed →
    s.Sent cfg row ∨ row ∈ Session.page s.session

/-- When a step cannot lose a write. A write has a position above every earlier one
and a version above every cursor without a key; a session that finds no stored
version starts before the first write; one that ends has sent those states of its
page that were replaced meanwhile. -/
def Careful (cfg : ChangefeedConfig) (s : System K) : Action K → Prop
  | .write row => (∀ old ∈ s.history, old < row) ∧
      (∀ cursor ∈ s.cursors, cursor.primaryKey = none → cursor.version < row.version) ∧
      s.Replaceable cfg row.primaryKey
  | .delete key => s.Replaceable cfg key
  | .restore => s.store.lastVersion = 0 → s.written = []
  | .stop => ∀ row ∈ Session.page s.session, row ∉ s.rows → s.Sent cfg row
  | _ => True

instance (cfg : ChangefeedConfig) (s : System K) (key : K) : Decidable (s.Replaceable cfg key) :=
  inferInstanceAs (Decidable (∀ row ∈ s.rows, _ → _ → _))

instance (cfg : ChangefeedConfig) (s : System K) (action : Action K) :
    Decidable (Careful cfg s action) := by
  cases action <;> unfold Careful <;> infer_instance

/-- A session that polls: its cursor is in memory, the page it works on was
returned, leaves out nothing written up to its end, and waits for the pending batches. -/
structure Polls (cfg : ChangefeedConfig) (s : System K) (pod : Nat) (stage : Stage K) : Prop where
  active : s.cursor pod ∈ s.memory.map (·.2)
  listed : ∀ row ∈ stage.page, row ∈ s.listed
  covers : ∀ row ∈ s.written, row ∈ s.rows → ∀ last ∈ stage.page.getLast?, ¬ last < row →
    ¬ (s.cursor pod).Before row ∨ row ∈ stage.page
  queued : ∀ peer ∈ cfg.peers, ∀ row ∈ stage.page,
    (peer, row) ∈ s.enqueued ∨ ∃ batch ∈ stage.pending, batch.1 = peer ∧ row ∈ batch.2

def SessionOk (cfg : ChangefeedConfig) (s : System K) : Option (Session K) → Prop
  | none => True
  | some (.restoring _ loaded) => loaded = s.store
  | some (.polling pod stage) => Polls cfg s pod stage

structure Ok (cfg : ChangefeedConfig) (s : System K) : Prop where
  rows_known : ∀ row ∈ s.rows, row ∈ s.history
  written_known : ∀ row ∈ s.written, row ∈ s.history
  listed_known : ∀ row ∈ s.listed, row ∈ s.history
  cursors_known : ∀ row : RowState K, row.cursor ∈ s.cursors → row ∈ s.history
  passed : ∀ row ∈ s.written, s.Passed row → s.Sent cfg row ∨ s.Unseen row
  gone : ∀ row ∈ s.written, row ∉ s.rows → row ∈ s.listed →
    s.Sent cfg row ∨ row ∈ Session.page s.session
  session : SessionOk cfg s s.session

theorem mem_of_mem_page {rows : List (RowState K)} {cursor : PollCursor K} {row : RowState K}
    (mem : row ∈ listTableChanges rows cursor) : row ∈ rows := by
  have sorted := List.mem_of_mem_take mem
  rw [List.mem_insertionSort] at sorted
  exact List.mem_of_mem_filter sorted

/-- A page leaves out no row between its cursor and its last row. -/
theorem mem_page_of_le_last {rows : List (RowState K)} {cursor : PollCursor K}
    {row last : RowState K} (ends : last ∈ (listTableChanges rows cursor).getLast?)
    (present : row ∈ rows) (after : cursor.Before row) (le : ¬ last < row) :
    row ∈ listTableChanges rows cursor := by
  have sorted : ((rows.filter fun row => cursor.Before row).insertionSort (· ≤ ·)).Pairwise
      (id · ≤ id ·) := List.pairwise_insertionSort _ _
  refine Chunks.mem_take_of_le_last sorted (fun _ _ _ _ same => same) ends ?_ (not_lt.mp le)
  rw [List.mem_insertionSort]
  exact List.mem_filter.mpr ⟨present, decide_eq_true after⟩

omit [LinearOrder K] in
theorem pageCursor_eq (cursor : PollCursor K) (page : List (RowState K)) :
    pageCursor cursor page = (page.getLast?.map RowState.cursor).getD cursor := by
  induction page using List.reverseRecOn with
  | nil => rfl
  | append_singleton page last _ => simp [pageCursor]

omit [LinearOrder K] in
theorem cursor_setCursor (s : System K) (pod : Nat) (cursor : PollCursor K) :
    ((setCursor s.memory pod cursor).lookup pod).getD ⟨0, none⟩ = cursor := by
  simp [setCursor]

omit [LinearOrder K] in
theorem mem_setCursor {memory : List (Nat × PollCursor K)} {pod : Nat} {cursor other : PollCursor K}
    (mem : other ∈ (setCursor memory pod cursor).map (·.2)) :
    other = cursor ∨ other ∈ memory.map (·.2) := by
  obtain ⟨entry, kept, rfl⟩ := List.mem_map.mp mem
  rcases List.mem_cons.mp kept with rfl | old
  · exact Or.inl rfl
  · exact Or.inr (List.mem_map_of_mem (List.mem_of_mem_filter old))

omit [LinearOrder K] in
theorem handle_page (cfg : ChangefeedConfig) (page : List (RowState K)) :
    (handle cfg page).page = page := by
  unfold handle
  split
  · rfl
  · split <;> rfl

omit [LinearOrder K] in
theorem handle_queued {cfg : ChangefeedConfig} (size : 0 < cfg.maxBatchEvents)
    (broadcasts : broadcastAllowed cfg.broadcastMode .upsert = true) {page : List (RowState K)}
    {peer : String} (known : peer ∈ cfg.peers) {row : RowState K} (mem : row ∈ page) :
    ∃ batch ∈ (handle cfg page).pending, batch.1 = peer ∧ row ∈ batch.2 := by
  have filled : page ≠ [] := List.ne_nil_of_mem mem
  have inChunks : row ∈ (Chunks.chunks cfg.maxBatchEvents page).flatten := by
    rwa [Chunks.flatten_chunks size]
  obtain ⟨chunk, cut, inChunk⟩ := List.mem_flatten.mp inChunks
  refine ⟨(peer, chunk), ?_, rfl, inChunk⟩
  rw [handle, if_neg filled, if_pos broadcasts]
  exact List.mem_flatMap.mpr ⟨peer, known, List.mem_map_of_mem cut⟩

section

variable {cfg : ChangefeedConfig} {s : System K}

theorem ok_init (rows : List (RowState K)) : Ok cfg (System.init rows) where
  rows_known _ mem := mem
  written_known _ mem := nomatch mem
  listed_known _ mem := nomatch mem
  cursors_known _ mem := nomatch mem
  passed _ mem := nomatch mem
  gone _ mem := nomatch mem
  session := trivial

/-- Every cursor is still before a careful write. -/
theorem before_write (ok : Ok cfg s) {row : RowState K} (above : ∀ old ∈ s.history, old < row)
    (keyless : ∀ cursor ∈ s.cursors, cursor.primaryKey = none → cursor.version < row.version)
    {cursor : PollCursor K} (mem : cursor ∈ s.cursors) : cursor.Before row := by
  cases keyed : cursor.primaryKey with
  | none =>
    unfold PollCursor.Before
    rw [keyed]
    exact keyless cursor mem keyed
  | some key =>
    rw [eq_cursor keyed] at mem ⊢
    exact before_cursor.mpr (above _ (ok.cursors_known _ mem))

/-- A state that leaves the table unsent was not returned by a page, or is in work. -/
theorem gone_of_replaced (ok : Ok cfg s) {key : K} (replaceable : s.Replaceable cfg key)
    {row : RowState K} (written : row ∈ s.written)
    (left : row ∉ s.rows.filter (·.primaryKey ≠ key)) (listed : row ∈ s.listed) :
    s.Sent cfg row ∨ row ∈ Session.page s.session := by
  by_cases present : row ∈ s.rows
  · apply replaceable row present _ listed
    by_contra other
    exact left (List.mem_filter.mpr ⟨present, decide_eq_true other⟩)
  · exact ok.gone row written present listed

/-- A change of the table matters to a session only while it polls. -/
theorem SessionOk.transfer {t : System K} {session : Option (Session K)} (holds : SessionOk cfg s session)
    (store : t.store = s.store) (polls : ∀ pod stage, Polls cfg s pod stage → Polls cfg t pod stage) :
    SessionOk cfg t session := by
  cases session with
  | none => trivial
  | some session =>
    cases session with
    | restoring pod loaded =>
      have same : loaded = s.store := holds
      exact same.trans store.symm
    | polling pod stage => exact polls pod stage holds

theorem ok_delete (ok : Ok cfg s) {key : K} (replaceable : s.Replaceable cfg key) :
    Ok cfg { s with rows := s.rows.filter (·.primaryKey ≠ key) } where
  rows_known row mem := ok.rows_known row (List.mem_of_mem_filter mem)
  written_known := ok.written_known
  listed_known := ok.listed_known
  cursors_known := ok.cursors_known
  passed row written passed := by
    apply (ok.passed row written passed).imp_right
    rintro ⟨absent, unlisted⟩
    exact ⟨fun mem => absent (List.mem_of_mem_filter mem), unlisted⟩
  gone _ written left listed := gone_of_replaced ok replaceable written left listed
  session := by
    refine ok.session.transfer (by rfl) ?_
    intro pod stage holds
    exact ⟨holds.active, holds.listed,
      fun row written present => holds.covers row written (List.mem_of_mem_filter present),
      holds.queued⟩

omit [LinearOrder K] in
theorem mem_written_write {row other : RowState K}
    (mem : other ∈ if s.restored then row :: s.written else s.written) :
    other = row ∨ other ∈ s.written := by
  split at mem
  · exact List.mem_cons.mp mem
  · exact Or.inr mem

theorem ok_write (ok : Ok cfg s) {row : RowState K} (careful : Careful cfg s (.write row)) :
    Ok cfg { s with
      rows := s.rows.filter (·.primaryKey ≠ row.primaryKey) ++ [row]
      history := row :: s.history
      written := if s.restored then row :: s.written else s.written } := by
  obtain ⟨above, keyless, replaceable⟩ := careful
  have fresh : ∀ old ∈ s.history, old ≠ row := fun old mem => (above old mem).ne
  constructor
  · intro other mem
    rcases List.mem_append.mp mem with kept | new
    · exact List.mem_cons_of_mem _ (ok.rows_known other (List.mem_of_mem_filter kept))
    · exact List.mem_cons.mpr (Or.inl (List.mem_singleton.mp new))
  · intro other mem
    rcases mem_written_write mem with rfl | old
    · exact List.mem_cons_self
    · exact List.mem_cons_of_mem _ (ok.written_known other old)
  · exact fun other mem => List.mem_cons_of_mem _ (ok.listed_known other mem)
  · exact fun other mem => List.mem_cons_of_mem _ (ok.cursors_known other mem)
  · intro other mem passed
    rcases mem_written_write mem with rfl | old
    · obtain ⟨cursor, known, reached⟩ := passed
      exact absurd (before_write ok above keyless known) reached
    · apply (ok.passed other old passed).imp_right
      rintro ⟨absent, unlisted⟩
      refine ⟨fun mem => ?_, unlisted⟩
      rcases List.mem_append.mp mem with kept | new
      · exact absent (List.mem_of_mem_filter kept)
      · exact fresh other (ok.written_known other old) (List.mem_singleton.mp new)
  · intro other mem left listed
    rcases mem_written_write mem with rfl | old
    · exact absurd (List.mem_append_right _ (List.mem_singleton_self _)) left
    · exact gone_of_replaced ok replaceable old (fun kept => left (List.mem_append_left _ kept))
        listed
  · refine ok.session.transfer (by rfl) ?_
    intro pod stage holds
    refine ⟨holds.active, holds.listed, ?_, holds.queued⟩
    intro other mem present last ends le
    -- the new state is beyond the page, so only an old one can be in question
    have old : other ≠ row := by
      rintro rfl
      exact le (above last (ok.listed_known last (holds.listed last (List.mem_of_getLast? ends))))
    have written := (mem_written_write mem).resolve_left old
    have kept := (List.mem_append.mp present).resolve_right (old ∘ List.mem_singleton.mp)
    exact holds.covers other written (List.mem_of_mem_filter kept) last ends le

/-- Storing the source next to an empty position moves no cursor. -/
theorem ok_start (ok : Ok cfg s) (idle : s.session = none) (pod : Nat) {loaded : StoredCursor K}
    (same : loaded.cursor = s.store.cursor) :
    Ok cfg { s with store := loaded, session := some (.restoring pod loaded) } := by
  have version : loaded.lastVersion = s.store.lastVersion := congrArg PollCursor.version same
  have cursors : System.cursors { s with
      store := loaded, session := some (.restoring pod loaded) } = s.cursors := by
    simp only [System.cursors, version, same]
  constructor
  · exact ok.rows_known
  · exact ok.written_known
  · exact ok.listed_known
  · intro row mem
    rw [cursors] at mem
    exact ok.cursors_known row mem
  · rintro row written ⟨cursor, mem, reached⟩
    rw [cursors] at mem
    exact ok.passed row written ⟨cursor, mem, reached⟩
  · intro row written absent listed
    have held := ok.gone row written absent listed
    rw [idle] at held
    exact held
  · exact rfl

omit [LinearOrder K] in
theorem mem_cursors_setCursor {pod : Nat} {cursor other : PollCursor K}
    (mem : other ∈ System.cursors { s with memory := setCursor s.memory pod cursor }) :
    other = cursor ∨ other ∈ s.cursors := by
  rcases List.mem_append.mp mem with memory | stored
  · exact (mem_setCursor memory).imp_right (List.mem_append_left _)
  · exact Or.inr (List.mem_append_right _ stored)

/-- A pod may take a cursor that points at a known state and passes nothing unsent. -/
theorem ok_setCursor (ok : Ok cfg s) (pod : Nat) (restored : Bool) {cursor : PollCursor K}
    (known : ∀ row : RowState K, row.cursor = cursor → row ∈ s.history)
    (safe : ∀ row ∈ s.written, ¬ cursor.Before row → s.Sent cfg row ∨ s.Unseen row)
    (done : ∀ row ∈ Session.page s.session, s.Sent cfg row) :
    Ok cfg { s with
      memory := setCursor s.memory pod cursor, session := some (.polling pod .idle)
      restored := restored } := by
  constructor
  · exact ok.rows_known
  · exact ok.written_known
  · exact ok.listed_known
  · intro row mem
    exact (mem_cursors_setCursor mem).elim (known row) (ok.cursors_known row)
  · rintro row written ⟨other, mem, reached⟩
    rcases mem_cursors_setCursor mem with rfl | old
    · exact safe row written reached
    · exact ok.passed row written ⟨other, old, reached⟩
  · intro row written absent listed
    exact Or.inl ((ok.gone row written absent listed).elim id (done row))
  · constructor
    · unfold System.cursor
      rw [cursor_setCursor]
      exact List.mem_cons_self
    · exact fun row mem => nomatch mem
    · exact fun row _ _ last ends => nomatch ends
    · exact fun peer _ row mem => nomatch mem

theorem ok_restore (ok : Ok cfg s) {pod : Nat} {loaded : StoredCursor K}
    (restoring : s.session = some (.restoring pod loaded))
    (careful : s.store.lastVersion = 0 → s.written = []) :
    Ok cfg { s with
      memory := setCursor s.memory pod (restoredCursor s.rows loaded)
      session := some (.polling pod .idle), restored := true } := by
  have same : loaded = s.store := by
    have holds := ok.session
    rwa [restoring] at holds
  subst same
  have done : ∀ row ∈ Session.page s.session, s.Sent cfg row := by
    rw [restoring]
    exact fun row mem => nomatch mem
  unfold restoredCursor
  split
  case isTrue empty =>
    apply ok_setCursor ok pod true _ _ done
    · exact fun row same => nomatch congrArg PollCursor.primaryKey same
    · rw [careful empty]
      exact fun row mem => nomatch mem
  case isFalse stored =>
    have mem : s.store.cursor ∈ s.cursors := by
      unfold System.cursors
      rw [if_neg stored]
      exact List.mem_append_right _ (List.mem_singleton_self _)
    apply ok_setCursor ok pod true _ _ done
    · exact fun row same => ok.cursors_known row (same ▸ mem)
    · exact fun row written reached => ok.passed row written ⟨_, mem, reached⟩

theorem ok_list (size : 0 < cfg.maxBatchEvents)
    (broadcasts : broadcastAllowed cfg.broadcastMode .upsert = true) (ok : Ok cfg s) {pod : Nat}
    (idle : s.session = some (.polling pod .idle)) :
    Ok cfg { s with
      listed := listTableChanges s.rows (s.cursor pod) ++ s.listed
      session := some (.polling pod (handle cfg (listTableChanges s.rows (s.cursor pod)))) } := by
  have holds : Polls cfg s pod .idle := by
    have holds := ok.session
    rwa [idle] at holds
  set page := listTableChanges s.rows (s.cursor pod) with pageDef
  have present : ∀ row ∈ page, row ∈ s.rows := fun row mem => mem_of_mem_page mem
  have unlisted : ∀ {row}, row ∉ s.rows → row ∈ page ++ s.listed → row ∈ s.listed :=
    fun absent mem => (List.mem_append.mp mem).resolve_left (absent ∘ present _)
  constructor
  · exact ok.rows_known
  · exact ok.written_known
  · intro row mem
    rcases List.mem_append.mp mem with new | old
    · exact ok.rows_known row (present row new)
    · exact ok.listed_known row old
  · exact ok.cursors_known
  · intro row written passed
    apply (ok.passed row written passed).imp_right
    rintro ⟨absent, unseen⟩
    exact ⟨absent, fun mem => unseen (unlisted absent mem)⟩
  · intro row written absent mem
    have held := ok.gone row written absent (unlisted absent mem)
    rw [idle] at held
    exact held.imp_right fun mem => nomatch mem
  · constructor
    · exact holds.active
    · intro row mem
      rw [handle_page] at mem
      exact List.mem_append_left _ mem
    · intro row _ mem last ends le
      rw [handle_page] at ends ⊢
      by_cases after : (s.cursor pod).Before row
      · exact Or.inr (mem_page_of_le_last ends mem after le)
      · exact Or.inl after
    · intro peer known row mem
      rw [handle_page] at mem
      exact Or.inr (handle_queued size broadcasts known mem)

theorem ok_enqueue (ok : Ok cfg s) {pod : Nat} {page : List (RowState K)}
    {pending : List (String × List (RowState K))}
    (handling : s.session = some (.polling pod (.handling page pending))) {index : Nat}
    {batch : String × List (RowState K)} (next : pending[index]? = some batch) :
    Ok cfg { s with
      enqueued := batch.2.map (batch.1, ·) ++ s.enqueued
      session := some (.polling pod (.handling page (pending.eraseIdx index))) } := by
  have holds : Polls cfg s pod (.handling page pending) := by
    have holds := ok.session
    rwa [handling] at holds
  have sent : ∀ {row}, s.Sent cfg row →
      ∀ peer ∈ cfg.peers, (peer, row) ∈ batch.2.map (batch.1, ·) ++ s.enqueued :=
    fun sent peer known => List.mem_append_right _ (sent peer known)
  constructor
  · exact ok.rows_known
  · exact ok.written_known
  · exact ok.listed_known
  · exact ok.cursors_known
  · exact fun row written passed => (ok.passed row written passed).imp_left sent
  · intro row written absent listed
    have held := ok.gone row written absent listed
    rw [handling] at held
    exact held.imp_left sent
  · refine ⟨holds.active, holds.listed, holds.covers, ?_⟩
    intro peer known row mem
    rcases holds.queued peer known row mem with done | ⟨other, waiting, rfl, inBatch⟩
    · exact Or.inl (List.mem_append_right _ done)
    · -- the batch of this row is the one just enqueued, or it still waits
      obtain ⟨at', same⟩ := List.getElem?_of_mem waiting
      by_cases here : at' = index
      · obtain rfl : other = batch := Option.some_injective _ (same.symm.trans (here ▸ next))
        exact Or.inl (List.mem_append_left _ (List.mem_map_of_mem inBatch))
      · exact Or.inr ⟨other, List.mem_eraseIdx_iff_getElem?.mpr ⟨at', here, same⟩, rfl, inBatch⟩

theorem sent_of_not_pending {pod : Nat} {stage : Stage K} (holds : Polls cfg s pod stage)
    (done : stage.pending = []) {row : RowState K} (mem : row ∈ stage.page) : s.Sent cfg row := by
  intro peer known
  rcases holds.queued peer known row mem with sent | ⟨batch, waiting, _⟩
  · exact sent
  · rw [done] at waiting
    cases waiting

/-- The cursor after a page that is sent passes nothing unsent. -/
theorem safe_pageCursor (ok : Ok cfg s) {pod : Nat} {stage : Stage K}
    (polling : s.session = some (.polling pod stage)) (holds : Polls cfg s pod stage)
    (done : stage.pending = []) {row : RowState K} (written : row ∈ s.written)
    (reached : ¬ (pageCursor (s.cursor pod) stage.page).Before row) :
    s.Sent cfg row ∨ s.Unseen row := by
  have active : ¬ (s.cursor pod).Before row → s.Sent cfg row ∨ s.Unseen row := fun reached =>
    ok.passed row written ⟨_, List.mem_append_left _ holds.active, reached⟩
  rw [pageCursor_eq] at reached
  cases ends : stage.page.getLast? with
  | none =>
    rw [ends] at reached
    exact active reached
  | some last =>
    rw [ends, Option.map_some, Option.getD_some, before_cursor] at reached
    by_cases present : row ∈ s.rows
    · rcases holds.covers row written present last ends reached with passed | mem
      · exact active passed
      · exact Or.inl (sent_of_not_pending holds done mem)
    · by_cases listed : row ∈ s.listed
      · have held := ok.gone row written present listed
        rw [polling] at held
        exact Or.inl (held.elim id (sent_of_not_pending holds done))
      · exact Or.inr ⟨present, listed⟩

theorem known_pageCursor (ok : Ok cfg s) {pod : Nat} {stage : Stage K}
    (holds : Polls cfg s pod stage) {row : RowState K}
    (same : row.cursor = pageCursor (s.cursor pod) stage.page) : row ∈ s.history := by
  rw [pageCursor_eq] at same
  cases ends : stage.page.getLast? with
  | none =>
    rw [ends] at same
    exact ok.cursors_known row (List.mem_append_left _ (same ▸ holds.active))
  | some last =>
    rw [ends, Option.map_some, Option.getD_some] at same
    obtain rfl : row = last := by
      cases row
      cases last
      simpa [RowState.cursor] using same
    exact ok.listed_known row (holds.listed row (List.mem_of_getLast? ends))

theorem ok_save (ok : Ok cfg s) {pod : Nat} {page : List (RowState K)}
    (handling : s.session = some (.polling pod (.handling page []))) :
    Ok cfg { s with
      store := ⟨cfg.source, (pageCursor (s.cursor pod) page).version,
        (pageCursor (s.cursor pod) page).primaryKey⟩
      session := some (.polling pod (.handled page)) } := by
  have holds : Polls cfg s pod (.handling page []) := by
    have holds := ok.session
    rwa [handling] at holds
  have moved : ∀ other ∈ System.cursors { s with
      store := ⟨cfg.source, (pageCursor (s.cursor pod) page).version,
        (pageCursor (s.cursor pod) page).primaryKey⟩ },
      other = pageCursor (s.cursor pod) page ∨ other ∈ s.cursors := by
    intro other mem
    rcases List.mem_append.mp mem with memory | stored
    · exact Or.inr (List.mem_append_left _ memory)
    · split at stored
      · cases stored
      · exact Or.inl (List.mem_singleton.mp stored)
  constructor
  · exact ok.rows_known
  · exact ok.written_known
  · exact ok.listed_known
  · intro row mem
    exact (moved _ mem).elim (known_pageCursor ok holds) (ok.cursors_known row)
  · rintro row written ⟨other, mem, reached⟩
    rcases moved other mem with rfl | old
    · exact safe_pageCursor ok handling holds rfl written reached
    · exact ok.passed row written ⟨other, old, reached⟩
  · intro row written absent listed
    have held := ok.gone row written absent listed
    rw [handling] at held
    exact held
  · exact ⟨holds.active, holds.listed, holds.covers, holds.queued⟩

theorem ok_advance (ok : Ok cfg s) {pod : Nat} {page : List (RowState K)}
    (handled : s.session = some (.polling pod (.handled page))) :
    Ok cfg { s with
      memory := setCursor s.memory pod (pageCursor (s.cursor pod) page)
      session := some (.polling pod .idle) } := by
  have holds : Polls cfg s pod (.handled page) := by
    have holds := ok.session
    rwa [handled] at holds
  apply ok_setCursor ok pod s.restored
  · exact fun row same => known_pageCursor ok holds same
  · exact fun row written reached => safe_pageCursor ok handled holds rfl written reached
  · rw [handled]
    exact fun row mem => sent_of_not_pending holds rfl mem

theorem ok_stop (ok : Ok cfg s) (careful : Careful cfg s .stop) :
    Ok cfg { s with session := none } where
  rows_known := ok.rows_known
  written_known := ok.written_known
  listed_known := ok.listed_known
  cursors_known := ok.cursors_known
  passed := ok.passed
  gone row written absent listed :=
    Or.inl ((ok.gone row written absent listed).elim id fun mem => careful row mem absent)
  session := trivial

theorem ok_step (size : 0 < cfg.maxBatchEvents)
    (broadcasts : broadcastAllowed cfg.broadcastMode .upsert = true) {t : System K}
    {action : Action K} (ok : Ok cfg s) (careful : Careful cfg s action)
    (taken : step cfg s action = some t) : Ok cfg t := by
  cases action with
  | write row => cases taken; exact ok_write ok careful
  | delete key => cases taken; exact ok_delete ok careful
  | start pod =>
    simp only [step] at taken
    split at taken
    · cases taken
    next idle =>
      split at taken
      · cases taken
      · cases taken
        apply ok_start ok idle pod
        split <;> rfl
  | restore =>
    simp only [step] at taken
    split at taken
    next restoring => cases taken; exact ok_restore ok restoring careful
    · cases taken
  | list =>
    simp only [step] at taken
    split at taken
    next idle => cases taken; exact ok_list size broadcasts ok idle
    · cases taken
  | enqueue index =>
    simp only [step] at taken
    split at taken
    next handling =>
      obtain ⟨batch, next, rfl⟩ := Option.map_eq_some_iff.mp taken
      exact ok_enqueue ok handling next
    · cases taken
  | save =>
    simp only [step] at taken
    split at taken
    next handling => cases taken; exact ok_save ok handling
    · cases taken
  | advance =>
    simp only [step] at taken
    split at taken
    next handled => cases taken; exact ok_advance ok handled
    · cases taken
  | stop => cases taken; exact ok_stop ok careful

end

/-- A run whose steps are careful enqueues every state written since the first
`RestoreCursors` for every peer before any cursor reaches it, unless the state was
replaced before a page returned it. -/
theorem cursor_passes_only_sent {cfg : ChangefeedConfig} (size : 0 < cfg.maxBatchEvents)
    (broadcasts : broadcastAllowed cfg.broadcastMode .upsert = true) {rows : List (RowState K)}
    {actions : List (Action K)} {s : System K}
    (careful : Machine.Meets (step cfg) (Careful cfg) (System.init rows) actions)
    (ran : Machine.run (step cfg) (System.init rows) actions = some s) :
    ∀ row ∈ s.written, s.Passed row → s.Sent cfg row ∨ s.Unseen row :=
  (Machine.invariant (fun _ _ _ ok careful taken => ok_step size broadcasts ok careful taken)
    (ok_init rows) careful ran).passed

def pollingConfig : ChangefeedConfig where
  localRegion := "eu"
  source := "polling"
  broadcastMode := .fullSync
  maxBatchEvents := 1
  peers := ["us", "ap"]

/-- Two writes of one row and a handover to another pod in the middle of a page. -/
def carefulHandover : List (Action Nat) :=
  [.start 0, .restore, .write ⟨5, 1⟩, .list, .enqueue 0, .enqueue 0, .save, .advance,
    .write ⟨7, 2⟩, .list, .enqueue 1, .stop, .start 1, .restore, .list, .write ⟨9, 2⟩,
    .enqueue 0, .enqueue 0, .save, .advance]

theorem cursor_passes_only_sent_handover :
    ∃ s, Machine.run (step pollingConfig) (System.init [⟨3, 1⟩]) carefulHandover = some s ∧
      (⟨7, 2⟩ : RowState Nat) ∈ s.written ∧ s.Passed ⟨7, 2⟩ ∧
      (s.Sent pollingConfig ⟨7, 2⟩ ∨ s.Unseen ⟨7, 2⟩) := by
  have ran : Machine.run (step pollingConfig) (System.init [⟨3, 1⟩]) carefulHandover = some _ := rfl
  exact ⟨_, ran, by decide, by decide,
    cursor_passes_only_sent (by decide) (by decide) (by decide) ran _ (by decide) (by decide)⟩

/-- The first session ends before it polls a write, so nothing is stored; the next
one starts from the maximum of the table and passes the write. -/
theorem restart_passes_unsent_write :
    ∃ s, Machine.run (step pollingConfig) (System.init [])
        [.start 0, .restore, .write (⟨5, 1⟩ : RowState Nat), .stop, .start 1, .restore] = some s ∧
      ⟨5, 1⟩ ∈ s.written ∧ s.Passed ⟨5, 1⟩ ∧ ¬ s.Sent pollingConfig ⟨5, 1⟩ ∧ ⟨5, 1⟩ ∈ s.rows :=
  ⟨_, rfl, by decide, by decide, by decide, by decide⟩

end Transmogr.PollingProducer
