import Mathlib.Data.List.Sort
import Transmogr.Chunks
import Transmogr.Machine

/-! Snapshot bootstrap from one peer: consume sessions, one after the other and cut
anywhere. The server answers snapshot requests chunk by chunk and then replays its
outbox; the receiver applies a chunk, saves its checkpoint, and marks the job. -/
namespace Transmogr.Bootstrap

variable {K : Type}

/-- A row of a source table. `own` says that its region column holds the local region. -/
structure TableRow (K : Type) where
  primaryKey : K
  own : Bool
  deriving DecidableEq

/-- The receiver's tables, and how the sender reads its own. -/
structure Config where
  tables : List String
  snapshotChunkSize : Int
  /-- The table has a region field and the reader knows its local region. -/
  filtersRegion : String → Bool

def defaultChunkSize : Nat := 1000

def Config.chunkSize (cfg : Config) : Nat :=
  if cfg.snapshotChunkSize ≤ 0 then defaultChunkSize else cfg.snapshotChunkSize.toNat

structure SnapshotChunk (K : Type) where
  rows : List (TableRow K)
  last : Bool

def readSnapshotChunk [LinearOrder K] (filtersRegion : Bool) (rows : List (TableRow K))
    (afterPrimaryKey : Option K) (limit : Nat) : SnapshotChunk K :=
  let found := rows.filter fun row =>
    (!filtersRegion || row.own) && afterPrimaryKey.all (· < row.primaryKey)
  let page := (found.insertionSort (·.primaryKey ≤ ·.primaryKey)).take limit
  ⟨page, page.length < limit⟩

structure SnapshotRequest (K : Type) where
  table : String
  afterPrimaryKey : Option K

inductive SnapshotJobStatus
  | unset
  | pending
  | snapshotting
  | catchingUp
  | finished
  deriving DecidableEq

/-- A row of `snapshot_jobs`, for one peer; `finished` is `finished_at IS NOT NULL`. -/
structure StateSnapshotJob (K : Type) where
  status : SnapshotJobStatus
  lastPrimaryKey : Option K
  watermarkAt : Option Nat
  finished : Bool
  deriving DecidableEq

abbrev Jobs (K : Type) := String → Option (StateSnapshotJob K)

def setJob (jobs : Jobs K) (table : String) (job : StateSnapshotJob K) : Jobs K := fun t =>
  if t = table then some job else jobs t

/-- Without a row, a job with empty fields. -/
def getStateSnapshotJob (jobs : Jobs K) (table : String) : StateSnapshotJob K :=
  (jobs table).getD ⟨.unset, none, none, false⟩

/-- `COALESCE(EXCLUDED.watermark_at, snapshot_jobs.watermark_at)` -/
def coalesceWatermark (jobs : Jobs K) (table : String) (watermarkAt : Option Nat) : Option Nat :=
  watermarkAt.or ((jobs table).bind (·.watermarkAt))

def upsertStateSnapshotJob (jobs : Jobs K) (table : String) (status : SnapshotJobStatus)
    (lastPrimaryKey : Option K) (watermarkAt : Option Nat) : Jobs K :=
  setJob jobs table ⟨status, lastPrimaryKey, coalesceWatermark jobs table watermarkAt, false⟩

/-- The result is whether a row was written: a finished job is left alone. -/
def commitStateSnapshotCheckpoint (jobs : Jobs K) (table : String) (status : SnapshotJobStatus)
    (lastPrimaryKey : Option K) (watermarkAt : Option Nat) : Jobs K × Bool :=
  if (jobs table).any (·.finished) then (jobs, false)
  else
    let status := if status = .unset then .snapshotting else status
    (setJob jobs table ⟨status, lastPrimaryKey, coalesceWatermark jobs table watermarkAt, false⟩, true)

def markStateSnapshotFinished (jobs : Jobs K) (table : String) : Jobs K :=
  match jobs table with
  | none => jobs
  | some job => setJob jobs table { job with status := .finished, finished := true }

/-- `QueueSnapshotRequests`; the cursors are the last event ids. -/
def queueSnapshotRequests (tables : List String) (cursors : String → String) (jobs : Jobs K) :
    List (SnapshotRequest K) :=
  (tables.filter fun table => cursors table = "" && !(getStateSnapshotJob jobs table).finished).map
    fun table => ⟨table, (getStateSnapshotJob jobs table).lastPrimaryKey⟩

/-! ## Sessions -/

inductive Message (K : Type)
  | snapshotChunk (table : String) (chunk : SnapshotChunk K) (watermark : Option Nat)
  | snapshotComplete (table : String)
  /-- A batch of events, by table and event id. -/
  | batch (events : List (String × String))

/-- What `ApplyIncomingChunk` does next. -/
inductive Pending (K : Type)
  | idle
  /-- The rows are applied; the checkpoint at their last key is to be saved. -/
  | saveCheckpoint (table : String) (lastPrimaryKey : K) (last : Bool) (watermark : Option Nat)
  /-- The job was finished and has to be reset first. -/
  | ensureRequested (table : String) (lastPrimaryKey : K) (last : Bool) (watermark : Option Nat)
  | saveAgain (table : String) (lastPrimaryKey : K) (last : Bool) (watermark : Option Nat)
  /-- The last chunk had rows; `catching_up` is to be saved at their last key. -/
  | commitCatchingUp (table : String) (lastPrimaryKey : K) (watermark : Option Nat)
  /-- The last chunk was empty; the job is to be read, and then written. -/
  | loadJob (table : String) (watermark : Option Nat)
  | upsertCatchingUp (table : String) (lastPrimaryKey : Option K) (watermark : Option Nat)

structure Session (K : Type) where
  /-- Requests still to be served, the first one from the key `SendToPeer` has reached. -/
  requests : List (SnapshotRequest K)
  /-- Requested tables whose `SnapshotComplete` is still to be sent. -/
  completes : List String
  watermark : Option Nat
  /-- Messages sent and not yet taken by `recvLoop`. -/
  channel : List (Message K)
  pending : Pending K

structure System (K : Type) where
  source : String → List (TableRow K)
  jobs : Jobs K
  /-- The last event id of the peer's cursor, by table; empty without one. -/
  cursors : String → String
  /-- The rows passed to `ApplySnapshotChunk`. -/
  passed : List (String × K)
  session : Option (Session K)

inductive Action (K : Type)
  /-- Rows of other regions change at the source. -/
  | change (table : String) (rows : List (TableRow K))
  /-- A session opens, with the outbox watermark of the server. -/
  | connect (watermark : Option Nat)
  /-- The server reads and sends the next chunk. -/
  | sendChunk
  /-- The server sends a pending or live batch. -/
  | sendBatch (events : List (String × String))
  | sendComplete
  /-- The receiver takes a message; of a batch it accepts these events. -/
  | receive (accepted : List (String × String))
  /-- The next statement of `ApplyIncomingChunk`. -/
  | proceed
  /-- The session ends, by either side or by an error. -/
  | cut

def setCursors (cursors : String → String) (accepted : List (String × String)) : String → String :=
  accepted.foldl (fun cursors event table => if table = event.1 then event.2 else cursors table)
    cursors

/-- What `SendToPeer` still has to do after a chunk. -/
def nextRequests (request : SnapshotRequest K) (rest : List (SnapshotRequest K))
    (chunk : SnapshotChunk K) : List (SnapshotRequest K) :=
  match chunk.last, chunk.rows.getLast? with
  | false, some row => ⟨request.table, some row.primaryKey⟩ :: rest
  | _, _ => rest

section Step

variable [LinearOrder K]

/-- One iteration of `SendToPeer`. -/
def sendChunk (cfg : Config) (source : String → List (TableRow K)) (session : Session K) :
    Option (Session K) :=
  match session.requests with
  | [] => none
  | request :: rest =>
    let chunk := readSnapshotChunk (cfg.filtersRegion request.table) (source request.table)
      request.afterPrimaryKey cfg.chunkSize
    some { session with
      requests := nextRequests request rest chunk
      channel := session.channel ++ [.snapshotChunk request.table chunk session.watermark] }

/-- What `recvLoop` does with a message, up to the first statement on the job. -/
def receive (s : System K) (session : Session K) (accepted : List (String × String)) :
    Message K → Option (System K)
  | .snapshotChunk table chunk watermark =>
    some { s with
      passed := chunk.rows.map (fun row => (table, row.primaryKey)) ++ s.passed
      session := some { session with pending := match chunk.rows.getLast? with
        | some row => .saveCheckpoint table row.primaryKey chunk.last watermark
        | none => if chunk.last then .loadJob table watermark else .idle } }
  | .snapshotComplete table =>
    some { s with jobs := markStateSnapshotFinished s.jobs table, session := some session }
  | .batch events =>
    if ∀ event ∈ accepted, event ∈ events then
      some { s with cursors := setCursors s.cursors accepted, session := some session }
    else none

/-- After the checkpoint: the last chunk is marked, others are done. -/
def afterCheckpoint (table : String) (lastPrimaryKey : K) (last : Bool) (watermark : Option Nat) :
    Pending K :=
  if last then .commitCatchingUp table lastPrimaryKey watermark else .idle

def proceed (jobs : Jobs K) : Pending K → Option (Jobs K × Pending K)
  | .idle => none
  | .saveCheckpoint table key last watermark =>
    let (jobs, updated) := commitStateSnapshotCheckpoint jobs table .snapshotting (some key) watermark
    some (jobs, if updated then afterCheckpoint table key last watermark
      else .ensureRequested table key last watermark)
  | .ensureRequested table key last watermark =>
    some (upsertStateSnapshotJob jobs table .pending none none, .saveAgain table key last watermark)
  | .saveAgain table key last watermark =>
    let (jobs, _) := commitStateSnapshotCheckpoint jobs table .snapshotting (some key) watermark
    some (jobs, afterCheckpoint table key last watermark)
  | .commitCatchingUp table key watermark =>
    some ((commitStateSnapshotCheckpoint jobs table .catchingUp (some key) watermark).1, .idle)
  | .loadJob table watermark =>
    some (jobs, .upsertCatchingUp table (getStateSnapshotJob jobs table).lastPrimaryKey watermark)
  | .upsertCatchingUp table key watermark =>
    some (upsertStateSnapshotJob jobs table .catchingUp key watermark, .idle)

def step (cfg : Config) (s : System K) : Action K → Option (System K)
  | .change table rows =>
    if (rows.filter (·.own)).Perm ((s.source table).filter (·.own)) ∧
        (rows.map (·.primaryKey)).Nodup then
      some { s with source := fun t => if t = table then rows else s.source t }
    else none
  | .connect watermark =>
    match s.session with
    | some _ => none
    | none =>
      let requests := queueSnapshotRequests cfg.tables s.cursors s.jobs
      some { s with session := some ⟨requests, requests.map (·.table), watermark, [], .idle⟩ }
  | .sendChunk =>
    s.session.bind fun session => (sendChunk cfg s.source session).map fun session =>
      { s with session := some session }
  | .sendBatch events =>
    match s.session with
    | some session =>
      if session.requests.isEmpty then
        some { s with session := some { session with
          channel := session.channel ++ [.batch events] } }
      else none
    | none => none
  | .sendComplete =>
    match s.session with
    | some session =>
      match session.requests, session.completes with
      | [], table :: rest =>
        some { s with session := some { session with
          completes := rest, channel := session.channel ++ [.snapshotComplete table] } }
      | _, _ => none
    | none => none
  | .receive accepted =>
    match s.session with
    | some session =>
      match session.pending, session.channel with
      | .idle, message :: rest => receive s { session with channel := rest } accepted message
      | _, _ => none
    | none => none
  | .proceed =>
    s.session.bind fun session => (proceed s.jobs session.pending).map fun next =>
      { s with jobs := next.1, session := some { session with pending := next.2 } }
  | .cut => some { s with session := none }

end Step

/-- The keys of a table a message brings. -/
def Message.keys (table : String) : Message K → List K
  | .snapshotChunk t chunk _ => if t = table then chunk.rows.map (·.primaryKey) else []
  | _ => []

/-- The key a pending statement is about to save for a table. -/
def Pending.key (table : String) : Pending K → Option K
  | .saveCheckpoint t key _ _ | .ensureRequested t key _ _ | .saveAgain t key _ _
  | .commitCatchingUp t key _ => if t = table then some key else none
  | .upsertCatchingUp t key _ => if t = table then key else none
  | .idle | .loadJob _ _ => none

section Invariant

variable [LinearOrder K]

/-- What the messages of a session promise about one table, whose own rows are `own`, to
a receiver that has `seen` some keys: a chunk brings everything up to its last key that
was not seen before, and what finishes the snapshot comes after all rows. -/
def Message.Keeps (table : String) (own seen : K → Prop) : Message K → Prop
  | .snapshotChunk t chunk _ => t = table → ∀ last ∈ chunk.rows.getLast?, ∀ key, own key →
      key ≤ last.primaryKey → seen key ∨ ∃ row ∈ chunk.rows, row.primaryKey = key
  | .snapshotComplete t => t = table → ∀ key, own key → seen key
  | .batch events => (∃ event ∈ events, event.1 = table) → ∀ key, own key → seen key

def Orderly (table : String) (own : K → Prop) : (K → Prop) → List (Message K) → Prop
  | _, [] => True
  | seen, message :: rest => message.Keeps table own seen ∧
      Orderly table own (fun key => seen key ∨ key ∈ message.keys table) rest

/-- The key was passed or is on its way. -/
def Reached (table : String) (seen : K → Prop) (channel : List (Message K)) (key : K) : Prop :=
  seen key ∨ ∃ message ∈ channel, key ∈ message.keys table

structure SessionOk (table : String) (own passed : K → Prop) (session : Session K) : Prop where
  pending : ∀ bound ∈ session.pending.key table, ∀ key, own key → key ≤ bound → passed key
  orderly : Orderly table own passed session.channel
  requests : ∀ request ∈ session.requests, request.table = table →
    ∀ bound ∈ request.afterPrimaryKey, ∀ key, own key → key ≤ bound →
      Reached table passed session.channel key
  served : (∀ request ∈ session.requests, request.table ≠ table) →
    ∀ key, own key → Reached table passed session.channel key

/-- A finished job, and the key a job has reached, stand for rows passed. -/
structure JobOk (own passed : K → Prop) (job : StateSnapshotJob K) : Prop where
  finished : job.finished = true → ∀ key, own key → passed key
  checkpoint : ∀ bound ∈ job.lastPrimaryKey, ∀ key, own key → key ≤ bound → passed key

def System.Passed (s : System K) (table : String) (key : K) : Prop := (table, key) ∈ s.passed

/-- The invariant for one table with the own rows `own`. -/
structure Ok (table : String) (own : K → Prop) (s : System K) : Prop where
  source : ∀ key, ⟨key, true⟩ ∈ s.source table ↔ own key
  distinct : ((s.source table).map (·.primaryKey)).Nodup
  job : ∀ job, s.jobs table = some job → JobOk own (s.Passed table) job
  cursor : s.cursors table ≠ "" → ∀ key, own key → s.Passed table key
  session : ∀ session, s.session = some session → SessionOk table own (s.Passed table) session

variable {table : String} {own seen seen' : K → Prop} {channel : List (Message K)}

theorem Message.Keeps.mono {message : Message K} (keeps : message.Keeps table own seen)
    (more : ∀ key, seen key → seen' key) : message.Keeps table own seen' := by
  cases message with
  | snapshotChunk t chunk watermark =>
    intro same last ends key mine le
    exact (keeps same last ends key mine le).imp_left (more key)
  | snapshotComplete t => exact fun same key mine => more key (keeps same key mine)
  | batch events => exact fun about key mine => more key (keeps about key mine)

theorem Orderly.mono (orderly : Orderly table own seen channel)
    (more : ∀ key, seen key → seen' key) : Orderly table own seen' channel := by
  induction channel generalizing seen seen' with
  | nil => trivial
  | cons message rest ih =>
    exact ⟨orderly.1.mono more, ih orderly.2 fun key => Or.imp_left (more key)⟩

/-- A message may be sent when it keeps its promise to a receiver of the whole channel. -/
theorem Orderly.append (orderly : Orderly table own seen channel) {message : Message K}
    (keeps : message.Keeps table own (Reached table seen channel)) :
    Orderly table own seen (channel ++ [message]) := by
  induction channel generalizing seen with
  | nil =>
    refine ⟨keeps.mono fun key reached => ?_, trivial⟩
    exact reached.resolve_right fun ⟨_, mem, _⟩ => List.not_mem_nil mem
  | cons first rest ih =>
    refine ⟨orderly.1, ih orderly.2 (keeps.mono fun key reached => ?_)⟩
    rcases reached with early | ⟨m, mem, inside⟩
    · exact Or.inl (Or.inl early)
    · rcases List.mem_cons.mp mem with rfl | mem
      · exact Or.inl (Or.inr inside)
      · exact Or.inr ⟨m, mem, inside⟩

omit [LinearOrder K] in
theorem Reached.append {key : K} (reached : Reached table seen channel key) (message : Message K) :
    Reached table seen (channel ++ [message]) key :=
  reached.imp_right fun ⟨m, mem, inside⟩ => ⟨m, List.mem_append_left _ mem, inside⟩

omit [LinearOrder K] in
/-- Taking a message turns what it brings from on its way to passed. -/
theorem Reached.take {message : Message K} {key : K}
    (reached : Reached table seen (message :: channel) key) :
    Reached table (fun key => seen key ∨ key ∈ message.keys table) channel key := by
  rcases reached with early | ⟨m, mem, inside⟩
  · exact Or.inl (Or.inl early)
  · rcases List.mem_cons.mp mem with rfl | mem
    · exact Or.inl (Or.inr inside)
    · exact Or.inr ⟨m, mem, inside⟩

theorem Config.chunkSize_pos (cfg : Config) : 0 < cfg.chunkSize := by
  unfold chunkSize
  split
  · decide
  · omega

section Chunk

variable {filtersRegion : Bool} {rows : List (TableRow K)} {after : Option K} {limit : Nat} {key : K}

/-- The own rows behind the cursor, in the order of the query. -/
theorem mem_found (mem : ⟨key, true⟩ ∈ rows) (behind : ∀ bound ∈ after, bound < key) :
    (⟨key, true⟩ : TableRow K) ∈ (rows.filter fun row => (!filtersRegion || row.own) &&
      after.all (· < row.primaryKey)).insertionSort (·.primaryKey ≤ ·.primaryKey) := by
  rw [List.mem_insertionSort, List.mem_filter]
  refine ⟨mem, ?_⟩
  cases after with
  | none => simp
  | some bound => simpa using behind bound rfl

theorem mem_chunk_of_le_last (distinct : (rows.map (·.primaryKey)).Nodup) (mem : ⟨key, true⟩ ∈ rows)
    (behind : ∀ bound ∈ after, bound < key) {last : TableRow K}
    (ends : last ∈ (readSnapshotChunk filtersRegion rows after limit).rows.getLast?)
    (le : key ≤ last.primaryKey) :
    ⟨key, true⟩ ∈ (readSnapshotChunk filtersRegion rows after limit).rows := by
  let below (row row' : TableRow K) : Prop := row.primaryKey ≤ row'.primaryKey
  have sorted := List.pairwise_insertionSort below (rows.filter fun row =>
    (!filtersRegion || row.own) && after.all (· < row.primaryKey))
  refine Chunks.mem_take_of_le_last sorted ?_ ends (mem_found mem behind) le
  intro row inside row' inside' same
  rw [List.mem_insertionSort] at inside inside'
  exact List.inj_on_of_nodup_map distinct (List.mem_of_mem_filter inside)
    (List.mem_of_mem_filter inside') same

theorem mem_chunk_of_last (mem : ⟨key, true⟩ ∈ rows) (behind : ∀ bound ∈ after, bound < key)
    (last : (readSnapshotChunk filtersRegion rows after limit).last = true) :
    ⟨key, true⟩ ∈ (readSnapshotChunk filtersRegion rows after limit).rows := by
  have short := of_decide_eq_true last
  rw [List.length_take] at short
  change _ ∈ List.take limit _
  rw [List.take_of_length_le (by omega)]
  exact mem_found mem behind

theorem last_of_getLast?_none (positive : 0 < limit)
    (empty : (readSnapshotChunk filtersRegion rows after limit).rows.getLast? = none) :
    (readSnapshotChunk filtersRegion rows after limit).last = true := by
  apply decide_eq_true
  change (readSnapshotChunk filtersRegion rows after limit).rows.length < limit
  rw [List.getLast?_eq_none_iff.mp empty]
  exact positive

end Chunk

/-! ## Steps -/

section Steps

variable {cfg : Config} {s : System K} {session : Session K}

theorem Ok.ok_session (ok : Ok table own s) (next : SessionOk table own (s.Passed table) session) :
    Ok table own { s with session := some session } :=
  ⟨ok.source, ok.distinct, ok.job, ok.cursor, fun _ same => Option.some.inj same ▸ next⟩

theorem ok_cut (ok : Ok table own s) : Ok table own { s with session := none } :=
  ⟨ok.source, ok.distinct, ok.job, ok.cursor, nofun⟩

theorem ok_change (ok : Ok table own s) {t : String} {rows : List (TableRow K)}
    (same : (rows.filter (·.own)).Perm ((s.source t).filter (·.own)))
    (distinct : (rows.map (·.primaryKey)).Nodup) :
    Ok table own { s with source := fun t' => if t' = t then rows else s.source t' } := by
  refine ⟨fun key => ?_, ?_, ok.job, ok.cursor, ok.session⟩
  · rw [← ok.source key]
    by_cases here : table = t
    · subst here
      have mem := same.mem_iff (a := ⟨key, true⟩)
      simpa using mem
    · simp only [if_neg here]
  · by_cases here : table = t
    · simp only [if_pos here]
      exact distinct
    · simp only [if_neg here]
      exact ok.distinct

/-- A job without a row promises nothing. -/
theorem jobOk_get {passed : K → Prop} {jobs : Jobs K}
    (holds : ∀ job, jobs table = some job → JobOk own passed job) :
    JobOk own passed (getStateSnapshotJob jobs table) := by
  unfold getStateSnapshotJob
  cases stored : jobs table with
  | none => exact ⟨nofun, nofun⟩
  | some job => exact holds job stored

theorem ok_connect (configured : table ∈ cfg.tables) (ok : Ok table own s) (watermark : Option Nat) :
    Ok table own { s with session := some ⟨queueSnapshotRequests cfg.tables s.cursors s.jobs,
      (queueSnapshotRequests cfg.tables s.cursors s.jobs).map (·.table), watermark, [], .idle⟩ } := by
  apply ok.ok_session
  refine ⟨nofun, trivial, ?_, ?_⟩
  · intro request mem here bound reached key mine le
    obtain ⟨t, _, rfl⟩ := List.mem_map.mp mem
    change t = table at here
    subst here
    exact Or.inl ((jobOk_get ok.job).checkpoint bound reached key mine le)
  · -- a table that is not requested has a cursor or a finished job
    intro absent key mine
    refine Or.inl ?_
    by_cases started : s.cursors table = ""
    · by_cases finished : (getStateSnapshotJob s.jobs table).finished = true
      · exact (jobOk_get ok.job).finished finished key mine
      · refine absurd rfl (absent ⟨table, (getStateSnapshotJob s.jobs table).lastPrimaryKey⟩ ?_)
        exact List.mem_map.mpr ⟨table, List.mem_filter.mpr ⟨configured, by simp [started, finished]⟩, rfl⟩
    · exact ok.cursor started key mine

/-- Sending a message that keeps its promise, with what is requested after it. -/
theorem SessionOk.send {passed : K → Prop} (holds : SessionOk table own passed session)
    {message : Message K} (keeps : message.Keeps table own (Reached table passed session.channel))
    {requests : List (SnapshotRequest K)} {completes : List String}
    (reaches : ∀ request ∈ requests, request.table = table → ∀ bound ∈ request.afterPrimaryKey,
      ∀ key, own key → key ≤ bound → Reached table passed (session.channel ++ [message]) key)
    (served : (∀ request ∈ requests, request.table ≠ table) →
      ∀ key, own key → Reached table passed (session.channel ++ [message]) key) :
    SessionOk table own passed { session with
      requests, completes, channel := session.channel ++ [message] } :=
  ⟨holds.pending, holds.orderly.append keeps, reaches, served⟩

/-- After the requests are served, anything may follow. -/
theorem ok_sendLater (ok : Ok table own s) (running : s.session = some session)
    (none : session.requests = []) (message : Message K)
    (keeps : (∀ key, own key → Reached table (s.Passed table) session.channel key) →
      message.Keeps table own (Reached table (s.Passed table) session.channel))
    (completes : List String) :
    Ok table own { s with session := some { session with
      completes, channel := session.channel ++ [message] } } := by
  have holds := ok.session session running
  have all : ∀ key, own key → Reached table (s.Passed table) session.channel key := by
    apply holds.served
    rw [none]
    exact nofun
  apply ok.ok_session
  apply holds.send (keeps all)
  · rw [none]
    exact nofun
  · exact fun _ key mine => (all key mine).append message

section SendChunk

variable {request : SnapshotRequest K} {rest : List (SnapshotRequest K)} {chunk : SnapshotChunk K}

/-- The rows of the requested table up to the last key of a chunk are on their way with it. -/
theorem reached_or_mem_chunk (ok : Ok table own s) (running : s.session = some session)
    (queued : session.requests = request :: rest) (here : request.table = table)
    (read : readSnapshotChunk (cfg.filtersRegion request.table) (s.source request.table)
      request.afterPrimaryKey cfg.chunkSize = chunk) {key : K} (mine : own key)
    (inside : chunk.last = true ∨ ∃ last ∈ chunk.rows.getLast?, key ≤ last.primaryKey) :
    Reached table (s.Passed table) session.channel key ∨ ⟨key, true⟩ ∈ chunk.rows := by
  have first : request ∈ session.requests := by
    rw [queued]
    exact List.mem_cons_self
  by_cases early : ∃ bound ∈ request.afterPrimaryKey, key ≤ bound
  · obtain ⟨bound, is, le⟩ := early
    exact Or.inl ((ok.session session running).requests request first here bound is key mine le)
  · push Not at early
    subst here read
    have present := (ok.source key).mpr mine
    refine Or.inr ?_
    rcases inside with last | ⟨last, ends, le⟩
    · exact mem_chunk_of_last present early last
    · exact mem_chunk_of_le_last ok.distinct present early ends le

omit [LinearOrder K] in
theorem mem_nextRequests {request' : SnapshotRequest K}
    (mem : request' ∈ nextRequests request rest chunk) :
    request' ∈ rest ∨ ∃ row ∈ chunk.rows.getLast?, request' = ⟨request.table, some row.primaryKey⟩ := by
  unfold nextRequests at mem
  split at mem
  · next row _ ends =>
    exact (List.mem_cons.mp mem).elim (fun same => Or.inr ⟨row, ends, same⟩) Or.inl
  · exact Or.inl mem

/-- The requests only get fewer when the chunk was the last one. -/
theorem nextRequests_of_not_last {limit : Nat} (positive : 0 < limit) {filtersRegion : Bool}
    {rows : List (TableRow K)} {after : Option K}
    (read : readSnapshotChunk filtersRegion rows after limit = chunk) (more : chunk.last = false) :
    ∃ row, nextRequests request rest chunk = ⟨request.table, some row⟩ :: rest := by
  unfold nextRequests
  rw [more]
  cases ends : chunk.rows.getLast? with
  | some row => exact ⟨row.primaryKey, rfl⟩
  | none =>
    subst read
    rw [last_of_getLast?_none positive ends] at more
    cases more

theorem ok_sendChunk (ok : Ok table own s) (running : s.session = some session) {next : Session K}
    (sent : sendChunk cfg s.source session = some next) :
    Ok table own { s with session := some next } := by
  have holds := ok.session session running
  unfold sendChunk at sent
  split at sent
  · cases sent
  next request rest queued =>
  cases sent
  apply ok.ok_session
  generalize read : readSnapshotChunk (cfg.filtersRegion request.table) (s.source request.table)
    request.afterPrimaryKey cfg.chunkSize = chunk
  have rows : ∀ key, ⟨key, true⟩ ∈ chunk.rows → request.table = table →
      Reached table (s.Passed table)
        (session.channel ++ [.snapshotChunk request.table chunk session.watermark]) key := by
    intro key mem here
    refine Or.inr ⟨_, List.mem_append_right _ (List.mem_singleton_self _), ?_⟩
    simp only [Message.keys, if_pos here]
    exact List.mem_map.mpr ⟨_, mem, rfl⟩
  have later : ∀ r ∈ rest, r ∈ session.requests := by
    intro r mem
    rw [queued]
    exact List.mem_cons_of_mem _ mem
  apply holds.send
  · intro here last ends key mine le
    exact (reached_or_mem_chunk ok running queued here read mine (Or.inr ⟨last, ends, le⟩)).imp_right
      fun mem => ⟨_, mem, rfl⟩
  · intro r mem here bound reached key mine le
    rcases mem_nextRequests mem with inRest | ⟨last, ends, rfl⟩
    · exact (holds.requests r (later r inRest) here bound reached key mine le).append _
    · cases reached
      rcases reached_or_mem_chunk ok running queued here read mine (Or.inr ⟨last, ends, le⟩) with
        early | inside
      · exact early.append _
      · exact rows key inside here
  · intro absent key mine
    by_cases here : request.table = table
    · -- the table's request is gone, so the chunk was its last one
      have last : chunk.last = true := by
        by_contra more
        obtain ⟨row, same⟩ := @nextRequests_of_not_last _ _ request rest _ _ cfg.chunkSize_pos _ _ _
          read (Bool.eq_false_iff.mpr more)
        rw [same] at absent
        exact absent _ List.mem_cons_self here
      rcases reached_or_mem_chunk ok running queued here read mine (Or.inl last) with early | inside
      · exact early.append _
      · exact rows key inside here
    · refine (holds.served ?_ key mine).append _
      intro r mem
      rw [queued] at mem
      rcases List.mem_cons.mp mem with rfl | inRest
      · exact here
      · apply absent
        unfold nextRequests
        split
        · exact List.mem_cons_of_mem _ inRest
        · exact inRest

end SendChunk

section Receive

variable {message : Message K} {rest : List (Message K)}

theorem JobOk.mono {job : StateSnapshotJob K} (holds : JobOk own seen job)
    (more : ∀ key, seen key → seen' key) : JobOk own seen' job :=
  ⟨fun done key mine => more key (holds.finished done key mine),
    fun bound is key mine le => more key (holds.checkpoint bound is key mine le)⟩

/-- The session after a message was taken by a receiver that has then seen what it brings. -/
theorem SessionOk.take {passed : K → Prop} (holds : SessionOk table own passed session)
    (queued : session.channel = message :: rest)
    (more : ∀ key, passed key ∨ key ∈ message.keys table → seen key) {pending : Pending K}
    (saves : ∀ bound ∈ pending.key table, ∀ key, own key → key ≤ bound → seen key) :
    SessionOk table own seen { session with channel := rest, pending } := by
  have reached : ∀ key, Reached table passed session.channel key → Reached table seen rest key := by
    intro key reached
    rw [queued] at reached
    exact reached.take.imp_left (more key)
  have orderly := holds.orderly
  rw [queued] at orderly
  exact ⟨saves, orderly.2.mono more,
    fun request mem here bound is key mine le =>
      reached key (holds.requests request mem here bound is key mine le),
    fun absent key mine => reached key (holds.served absent key mine)⟩

theorem SessionOk.head_keeps {passed : K → Prop} (holds : SessionOk table own passed session)
    (queued : session.channel = message :: rest) : message.Keeps table own passed := by
  have orderly := holds.orderly
  rw [queued] at orderly
  exact orderly.1

theorem ok_receiveChunk (ok : Ok table own s) (running : s.session = some session) {t : String}
    {chunk : SnapshotChunk K} {watermark : Option Nat}
    (queued : session.channel = .snapshotChunk t chunk watermark :: rest)
    {accepted : List (String × String)} {next : System K}
    (received : receive s { session with channel := rest } accepted
      (.snapshotChunk t chunk watermark) = some next) : Ok table own next := by
  have holds := ok.session session running
  cases received
  have more : ∀ key, s.Passed table key ∨
      key ∈ (Message.snapshotChunk t chunk watermark).keys table →
      (table, key) ∈ chunk.rows.map (fun row => (t, row.primaryKey)) ++ s.passed := by
    intro key either
    rcases either with old | new
    · exact List.mem_append_right _ old
    · simp only [Message.keys] at new
      split at new
      · next same =>
        obtain ⟨row, mem, rfl⟩ := List.mem_map.mp new
        exact List.mem_append_left _ (List.mem_map.mpr ⟨row, mem, by rw [same]⟩)
      · cases new
  refine ⟨ok.source, ok.distinct, fun job is => (ok.job job is).mono fun key old => more key (Or.inl old),
    fun started key mine => more key (Or.inl (ok.cursor started key mine)), ?_⟩
  rintro _ ⟨⟩
  apply holds.take queued more
  intro bound is key mine le
  cases ends : chunk.rows.getLast? with
  | none =>
    rw [ends] at is
    change bound ∈ (if chunk.last = true then Pending.loadJob t watermark else .idle).key table at is
    by_cases last : chunk.last = true
    · rw [if_pos last] at is
      cases is
    · rw [if_neg last] at is
      cases is
  | some row =>
    rw [ends] at is
    by_cases same : t = table
    · simp only [Pending.key, if_pos same, Option.mem_some_iff] at is
      subst is
      rcases holds.head_keeps queued same row ends key mine le with old | ⟨row', mem, rfl⟩
      · exact more key (Or.inl old)
      · exact List.mem_append_left _ (List.mem_map.mpr ⟨row', mem, by rw [same]⟩)
    · simp only [Pending.key, if_neg same] at is
      cases is

theorem job_set {passed : K → Prop} {jobs : Jobs K}
    (holds : ∀ job, jobs table = some job → JobOk own passed job) {t : String}
    {job' : StateSnapshotJob K} (new : t = table → JobOk own passed job') :
    ∀ job, setJob jobs t job' table = some job → JobOk own passed job := by
  intro job is
  unfold setJob at is
  split at is
  · next same =>
    cases is
    exact new same.symm
  · exact holds job is

theorem ok_receiveComplete (ok : Ok table own s) (running : s.session = some session) {t : String}
    (queued : session.channel = .snapshotComplete t :: rest) (idle : session.pending = .idle) :
    Ok table own { s with
      jobs := markStateSnapshotFinished s.jobs t, session := some { session with channel := rest } } := by
  have holds := ok.session session running
  refine ⟨ok.source, ok.distinct, ?_, ok.cursor, ?_⟩
  · unfold markStateSnapshotFinished
    split
    · exact ok.job
    · next old is =>
      apply job_set ok.job
      rintro rfl
      exact ⟨fun _ => holds.head_keeps queued rfl, (ok.job old is).checkpoint⟩
  · rintro _ ⟨⟩
    refine holds.take queued (fun key either => either.resolve_right List.not_mem_nil) ?_
    rw [idle]
    exact nofun

/-- A cursor that gets an event id gets it from an accepted event. -/
theorem setCursors_eq {accepted : List (String × String)} {cursors : String → String}
    (other : ∀ event ∈ accepted, event.1 ≠ table) : setCursors cursors accepted table = cursors table := by
  induction accepted generalizing cursors with
  | nil => rfl
  | cons event accepted ih =>
    obtain ⟨head, tail⟩ := List.forall_mem_cons.mp other
    exact (ih tail).trans (if_neg head.symm)

theorem ok_receiveBatch (ok : Ok table own s) (running : s.session = some session)
    {events accepted : List (String × String)} (queued : session.channel = .batch events :: rest)
    (idle : session.pending = .idle) (sub : ∀ event ∈ accepted, event ∈ events) :
    Ok table own { s with
      cursors := setCursors s.cursors accepted, session := some { session with channel := rest } } := by
  have holds := ok.session session running
  refine ⟨ok.source, ok.distinct, ok.job, ?_, ?_⟩
  · intro started
    by_cases about : ∃ event ∈ accepted, event.1 = table
    · obtain ⟨event, mem, here⟩ := about
      exact holds.head_keeps queued ⟨event, sub event mem, here⟩
    · push Not at about
      exact ok.cursor fun empty => started ((setCursors_eq about).trans empty)
  · rintro _ ⟨⟩
    refine holds.take queued (fun key either => either.resolve_right List.not_mem_nil) ?_
    rw [idle]
    exact nofun

theorem ok_receive (ok : Ok table own s) (running : s.session = some session)
    (queued : session.channel = message :: rest) (idle : session.pending = .idle)
    {accepted : List (String × String)} {next : System K}
    (received : receive s { session with channel := rest } accepted message = some next) :
    Ok table own next := by
  cases message with
  | snapshotChunk t chunk watermark => exact ok_receiveChunk ok running queued received
  | snapshotComplete t =>
    cases received
    exact ok_receiveComplete ok running queued idle
  | batch events =>
    simp only [receive] at received
    split at received
    · next sub =>
      cases received
      exact ok_receiveBatch ok running queued idle sub
    · cases received

end Receive

section Proceed

variable {passed : K → Prop} {jobs : Jobs K} {t : String}

theorem job_upsert (holds : ∀ job, jobs table = some job → JobOk own passed job)
    {status : SnapshotJobStatus} {last : Option K} {watermark : Option Nat}
    (covered : t = table → ∀ bound ∈ last, ∀ key, own key → key ≤ bound → passed key) :
    ∀ job, upsertStateSnapshotJob jobs t status last watermark table = some job →
      JobOk own passed job :=
  job_set holds fun same => ⟨nofun, covered same⟩

theorem job_commit (holds : ∀ job, jobs table = some job → JobOk own passed job)
    {status : SnapshotJobStatus} {last : Option K} {watermark : Option Nat}
    (covered : t = table → ∀ bound ∈ last, ∀ key, own key → key ≤ bound → passed key) :
    ∀ job, (commitStateSnapshotCheckpoint jobs t status last watermark).1 table = some job →
      JobOk own passed job := by
  unfold commitStateSnapshotCheckpoint
  split
  · exact holds
  · exact job_set holds fun same => ⟨nofun, covered same⟩

/-- A pending statement that carries a key for this table carries a covered one. -/
def Pending.Covered (table : String) (own passed : K → Prop) (pending : Pending K) : Prop :=
  ∀ bound ∈ pending.key table, ∀ key, own key → key ≤ bound → passed key

theorem covered_of_key {pending : Pending K} {last : K}
    (key : ∀ t', pending.key t' = if t = t' then some last else none)
    (covered : pending.Covered table own passed) :
    t = table → ∀ bound ∈ some last, ∀ key, own key → key ≤ bound → passed key := by
  intro same
  have := covered
  unfold Pending.Covered at this
  rw [key, if_pos same] at this
  exact this

theorem afterCheckpoint_covered {last : Bool} {key : K} {watermark : Option Nat}
    (covered : t = table → ∀ bound ∈ some key, ∀ key, own key → key ≤ bound → passed key) :
    (afterCheckpoint t key last watermark).Covered table own passed := by
  unfold afterCheckpoint
  by_cases isLast : last = true
  · rw [if_pos isLast]
    intro bound is
    simp only [Pending.key] at is
    split at is
    · next same => exact covered same bound is
    · cases is
  · rw [if_neg isLast]
    exact nofun

theorem proceed_ok (holds : ∀ job, jobs table = some job → JobOk own passed job)
    {pending : Pending K} (covered : pending.Covered table own passed) {next : Jobs K × Pending K}
    (done : proceed jobs pending = some next) :
    (∀ job, next.1 table = some job → JobOk own passed job) ∧ next.2.Covered table own passed := by
  cases pending with
  | idle => cases done
  | saveCheckpoint t key last watermark =>
    have known := covered_of_key (fun _ => rfl) covered
    simp only [proceed, Option.some.injEq] at done
    subst done
    refine ⟨job_commit holds known, ?_⟩
    dsimp only
    split
    · exact afterCheckpoint_covered known
    · exact covered
  | ensureRequested t key last watermark =>
    cases done
    exact ⟨job_upsert holds fun _ => nofun, covered⟩
  | saveAgain t key last watermark =>
    have known := covered_of_key (fun _ => rfl) covered
    cases done
    exact ⟨job_commit holds known, afterCheckpoint_covered known⟩
  | commitCatchingUp t key watermark =>
    have known := covered_of_key (fun _ => rfl) covered
    cases done
    exact ⟨job_commit holds known, nofun⟩
  | loadJob t watermark =>
    cases done
    refine ⟨holds, fun bound is => ?_⟩
    simp only [Pending.key] at is
    split at is
    · next same =>
      subst same
      exact (jobOk_get holds).checkpoint bound is
    · cases is
  | upsertCatchingUp t key watermark =>
    cases done
    refine ⟨job_upsert holds fun same bound is => covered bound ?_, nofun⟩
    simp only [Pending.key, if_pos same]
    exact is

theorem ok_proceed (ok : Ok table own s) (running : s.session = some session)
    {next : Jobs K × Pending K} (done : proceed s.jobs session.pending = some next) :
    Ok table own { s with jobs := next.1, session := some { session with pending := next.2 } } := by
  have holds := ok.session session running
  obtain ⟨jobs, covered⟩ := proceed_ok ok.job holds.pending done
  refine ⟨ok.source, ok.distinct, jobs, ok.cursor, ?_⟩
  rintro _ ⟨⟩
  exact ⟨covered, holds.orderly, holds.requests, holds.served⟩

end Proceed

theorem step_ok (configured : table ∈ cfg.tables) {action : Action K} {next : System K}
    (ok : Ok table own s) (taken : step cfg s action = some next) : Ok table own next := by
  cases action with
  | change t rows =>
    simp only [step] at taken
    split at taken
    · next guard =>
      cases taken
      exact ok_change ok guard.1 guard.2
    · cases taken
  | connect watermark =>
    simp only [step] at taken
    split at taken
    · cases taken
    · cases taken
      exact ok_connect configured ok watermark
  | sendChunk =>
    obtain ⟨session, running, sent⟩ := Option.bind_eq_some_iff.mp taken
    obtain ⟨after, made, rfl⟩ := Option.map_eq_some_iff.mp sent
    exact ok_sendChunk ok running made
  | sendBatch events =>
    simp only [step] at taken
    split at taken
    · next session running =>
      split at taken
      · next none =>
        cases taken
        exact ok_sendLater ok running (List.isEmpty_iff.mp none) (.batch events) (fun all _ => all)
          session.completes
      · cases taken
    · cases taken
  | sendComplete =>
    simp only [step] at taken
    split at taken
    · next session running =>
      split at taken
      · next none _ =>
        cases taken
        exact ok_sendLater ok running none (.snapshotComplete _) (fun all _ => all) _
      · cases taken
    · cases taken
  | receive accepted =>
    simp only [step] at taken
    split at taken
    · next session running =>
      split at taken
      · next idle queued => exact ok_receive ok running queued idle taken
      · cases taken
    · cases taken
  | proceed =>
    obtain ⟨session, running, done⟩ := Option.bind_eq_some_iff.mp taken
    obtain ⟨after, made, rfl⟩ := Option.map_eq_some_iff.mp done
    exact ok_proceed ok running made
  | cut =>
    cases taken
    exact ok_cut ok

end Steps

/-- Bootstrap is complete: a table that is no longer requested has had all its own rows
passed to `ApplySnapshotChunk`, and at every moment so have the rows up to the key of the
stored checkpoint. -/
theorem bootstrap_is_complete {cfg : Config} {s t : System K} {actions : List (Action K)}
    (configured : table ∈ cfg.tables) (distinct : ((s.source table).map (·.primaryKey)).Nodup)
    (noJob : s.jobs table = none) (noCursor : s.cursors table = "") (noSession : s.session = none)
    (ran : Machine.run (step cfg) s actions = some t) :
    ((getStateSnapshotJob t.jobs table).finished = true ∨ t.cursors table ≠ "" →
      ∀ row ∈ s.source table, row.own = true → (table, row.primaryKey) ∈ t.passed) ∧
    ∀ bound ∈ (getStateSnapshotJob t.jobs table).lastPrimaryKey, ∀ row ∈ s.source table,
      row.own = true → row.primaryKey ≤ bound → (table, row.primaryKey) ∈ t.passed := by
  have start : Ok table (fun key => ⟨key, true⟩ ∈ s.source table) s := by
    refine ⟨fun _ => Iff.rfl, distinct, ?_, fun started => absurd noCursor started, ?_⟩
    · rw [noJob]
      exact nofun
    · rw [noSession]
      exact nofun
  have ok := Machine.invariant_of_steps (fun _ _ _ holds taken => step_ok configured holds taken)
    start ran
  have own : ∀ row ∈ s.source table, row.own = true →
      (⟨row.primaryKey, true⟩ : TableRow K) ∈ s.source table := by
    rintro ⟨key, _⟩ mem rfl
    exact mem
  have holds := jobOk_get ok.job
  refine ⟨fun either row mem mine => ?_, fun bound is row mem mine le => ?_⟩
  · exact either.elim (fun done => holds.finished done _ (own row mem mine))
      fun started => ok.cursor started _ (own row mem mine)
  · exact holds.checkpoint bound is _ (own row mem mine) le

end Invariant

/-! Three users read in chunks of two: the first session is cut before its checkpoint,
the second one after it, and the third one completes. -/

def users : System Nat where
  source table := if table = "users" then [⟨1, true⟩, ⟨2, true⟩, ⟨3, true⟩, ⟨4, false⟩] else []
  jobs _ := none
  cursors _ := ""
  passed := []
  session := none

def cutTwice : List (Action Nat) :=
  [.connect none, .sendChunk, .receive [], .cut,
    .connect none, .sendChunk, .receive [], .proceed, .cut,
    .connect none, .sendChunk, .sendBatch [("users", "event")], .sendComplete,
    .receive [], .proceed, .proceed, .receive [("users", "event")], .receive []]

theorem bootstrap_is_complete_users :
    ∃ t, Machine.run (step ⟨["users"], 2, fun _ => true⟩) users cutTwice = some t ∧
      (getStateSnapshotJob t.jobs "users").finished = true ∧
      ∀ row ∈ users.source "users", row.own = true → ("users", row.primaryKey) ∈ t.passed := by
  have ran : Machine.run (step ⟨["users"], 2, fun _ => true⟩) users cutTwice = some _ := rfl
  refine ⟨_, ran, rfl, ?_⟩
  exact (bootstrap_is_complete List.mem_cons_self (by decide) rfl rfl rfl ran).1 (Or.inl rfl)

end Transmogr.Bootstrap
