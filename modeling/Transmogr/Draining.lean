import Transmogr.OutboxProtocol

/-! What a `Consume` session does to the outbox when nothing new is enqueued: its work ends, and a
session that has nothing left to do leaves no row behind. A row that a forwarding session has missed
waits for the next session. -/
namespace Transmogr.Consume

variable {c c' : Consume} {live now : Nat} {rows waiting : List OutboxBatch}

theorem watermark_advance (taken : c.advance now rows = some c')
    (read : c'.watermark = some live) : c.watermark = some live ∨ live = now := by
  obtain ⟨peer, requested, stage, channel, queue⟩ := c
  cases stage with
  | opened | snapshotted =>
    cases taken
    cases read
  | subscribed w =>
    cases taken
    cases read
    exact .inr rfl
  | replaying windows afterID live' =>
    left
    cases windows with
    | nil =>
      cases taken
      exact read
    | cons window windows =>
      simp only [advance] at taken
      split at taken <;> cases taken <;> exact read
  | forwarding live' =>
    left
    cases channel with
    | nil => cases taken
    | cons batch channel =>
      simp only [advance] at taken
      split at taken <;> cases taken <;> exact read

/-- With everything stamped up to the watermark the pipeline is the queue and the replay. -/
theorem pipeline_eq_of_seen (seen : ∀ b ∈ c.channel ++ waiting, b.createdAt ≤ live) :
    c.pipeline live rows waiting = c.queue ++ c.remaining rows := by
  have none : (c.channel ++ waiting).filter (live < ·.createdAt) = [] := by
    apply List.filter_eq_nil_iff.mpr
    intro b mem
    have := seen b mem
    simp only [decide_eq_true_eq]
    omega
  rw [pipeline, none, List.append_nil]

theorem mem_remaining_of_kept {rows' : List OutboxBatch} {b : OutboxBatch}
    (mem : b ∈ c.remaining rows) (kept : b ∈ rows') : b ∈ c.remaining rows' := by
  unfold remaining at mem ⊢
  split at mem
  · exact mem_pendings_of_mem mem kept
  · cases mem

end Transmogr.Consume

namespace Transmogr.OutboxProtocol

open Sql

section Definitions

variable {V : Type}

/-- The ack of an enqueued batch names the table its row is stored under. -/
def named (_ : State V) : Action → Bool
  | .enqueue _ batch => (ackOf batch).1 = batch.table
  | _ => true

/-- The session is served: nothing is enqueued, and no other session is opened. -/
def calm : Action → Bool
  | .tick | .publish _ | .consume | .receive | .ack _ => true
  | _ => false

/-- What the session and its receiver do. -/
def isWork : Action → Bool
  | .consume | .receive | .ack _ => true
  | _ => false

/-- Steps of `Consume` from a stage on, and what becomes of the rows it still replays: each is read,
received and acked. -/
def stageWork (peerRegion : String) (rows : List OutboxBatch) : Stage → Nat
  | .opened => 3 * rows.length + 6
  | .snapshotted _ => 3 * rows.length + 5
  | .subscribed _ => 3 * rows.length + 4
  | .replaying windows afterID _ =>
    3 * (pendings rows peerRegion windows afterID).length + windows.length + 1
  | .forwarding _ => 0

def sessionWork (rows : List OutboxBatch) (c : Consume) : Nat :=
  2 * c.queue.length + c.channel.length + stageWork c.peerRegion rows c.stage

/-- An upper bound for the work that is left. -/
def work (s : State V) : Nat :=
  s.acks.length + s.waiting.length + (s.session.map fun (_, c) => sessionWork s.rows c).getD 0

end Definitions

section Sound

variable {V : Type}

/-- Every ack finds the row it is for. -/
structure Sound (peerRegion : String) (s : State V) : Prop extends Recorded peerRegion s where
  named : ∀ b ∈ s.history, (ackOf b).1 = b.table

variable [DecidableEq V] {repo : Repository} {server : Server V} {mode : ReplicationApplyMode}
  {peerRegion : String} {s t : State V} {action : Action}

omit [DecidableEq V] in
theorem Sound.insert (sound : Sound peerRegion s) {batch : OutboxBatch} (pod : Nat)
    (peer : batch.peerRegion = peerRegion) (table : (ackOf batch).1 = batch.table) :
    Sound peerRegion (s.insert pod (batch.stamped s.nextID s.clock)) where
  toRecorded := @Recorded.insert _ _ _ (batch.stamped s.nextID s.clock) sound.toRecorded peer rfl rfl pod
  named a mem := by
    rcases List.mem_append.mp mem with mem | mem
    · exact sound.named a mem
    · rw [List.mem_singleton.mp mem]
      exact table

theorem sound_moves (sound : Sound peerRegion s) (addressed : named s action = true)
    (moves : Moves repo server mode peerRegion s action t) : Sound peerRegion t := by
  cases moves with
  | tick => exact { sound with
      clock := Nat.succ_pos _
      history := sound.history.later (Nat.le_succ _) }
  | skipID | conflict => exact { sound with
      nextID := Nat.succ_pos _
      ids := fun b mem => Nat.lt_succ_of_lt (sound.ids b mem) }
  | enqueue _ _ peer _ => exact sound.insert _ peer (of_decide_eq_true addressed)
  | publish => exact { sound with waiting := (List.filter_sublist.map _).trans sound.waiting }
  | ack => exact { sound with rows := List.filter_sublist.trans sound.rows }
  | connect | consume | refuse | receive | disconnect => exact { sound with }

theorem sound_run {tables : Tables V} {actions : List Action}
    (addressed : Machine.Meets (step repo server mode peerRegion) (named · ·) (initial tables) actions)
    (ran : Machine.run (step repo server mode peerRegion) (initial tables) actions = some s) :
    Sound peerRegion s := by
  apply Machine.invariant _ ⟨recorded_initial tables, nofun⟩ addressed ran
  exact fun _ _ _ sound meets taken => sound_moves sound meets (step_moves taken)

end Sound

section Served

variable {V : Type} {repo : Repository} {server : Server V} {mode : ReplicationApplyMode}
  {peerRegion : String} {s t : State V} {action : Action} {c c' : Consume} {live now : Nat}

/-- Once the watermark is read it is at or after everything inserted, and every row is queued, still
to be replayed, or has its ack on the way. -/
structure Served (peerRegion : String) (s : State V) (c : Consume) : Prop
    extends Tracks peerRegion s c where
  seen : ∀ live, c.watermark = some live → ∀ b ∈ s.history, b.createdAt ≤ live
  covers : ∀ live, c.watermark = some live → ∀ b ∈ s.rows,
    b ∈ c.queue ++ c.remaining s.rows ∨ ackOf b ∈ s.acks

/-- The run since `pending` were the rows: each of them is still there or was acked. -/
structure Attended (peerRegion : String) (pending : List OutboxBatch) (s : State V) : Prop where
  sound : Sound peerRegion s
  kept : ∀ b ∈ pending, b ∈ s.rows ∨ b ∈ s.acked
  session : ∀ pod c, s.session = some (pod, c) → Served peerRegion s c

theorem Served.advance (served : Served peerRegion s c) (sound : Sound peerRegion s)
    (taken : c.advance s.clock s.rows = some c') : Served peerRegion s c' := by
  have recorded := sound.toRecorded
  obtain ⟨tracks, pipeline⟩ := served.toTracks.advance recorded taken
  have seen : ∀ live, c'.watermark = some live → ∀ b ∈ s.history, b.createdAt ≤ live := by
    intro live read b mem
    rcases Consume.watermark_advance taken read with before | rfl
    · exact served.seen live before b mem
    · exact (sound.history.stamps b mem).2.2
  refine ⟨tracks, seen, fun live read b mem => ?_⟩
  have line : c'.pipeline live s.rows s.unpublished = c'.queue ++ c'.remaining s.rows :=
    Consume.pipeline_eq_of_seen fun b mem => seen live read b (tracks.inHistory recorded b mem)
  rw [← line]
  rcases pipeline live read with whole | ⟨before, same⟩
  · rw [whole]
    exact .inl mem
  · rw [same, Consume.pipeline_eq_of_seen fun b mem =>
      served.seen live before b (served.toTracks.inHistory recorded b mem)]
    exact served.covers live before b mem

theorem Served.publish (served : Served peerRegion s c) {batch : OutboxBatch}
    (inHistory : batch ∈ s.history) (serving pod : Nat) :
    Served peerRegion s (if serving = pod then c.publish batch else c) := by
  refine ⟨served.toTracks.publish inHistory serving pod, ?_, ?_⟩
  · rw [watermark_published]
    exact served.seen
  · rw [watermark_published]
    split
    · rw [Consume.publish_queue, Consume.publish_remaining]
      exact served.covers
    · exact served.covers

/-- A batch is queued only once the watermark is read. -/
theorem Served.receive (served : Served peerRegion s c) {batch : OutboxBatch}
    {queue : List OutboxBatch} (next : c.queue = batch :: queue) (history : t.history = s.history)
    (rows : t.rows = s.rows) (nextID : t.nextID = s.nextID)
    (acks : t.acks = s.acks ++ [ackOf batch]) : Served peerRegion t { c with queue } where
  peer := served.peer
  channel := history ▸ served.channel
  early unread := by
    rw [(served.early unread).1] at next
    cases next
  replay := nextID ▸ served.replay
  seen := history ▸ served.seen
  covers live read b mem := by
    rw [rows] at mem
    rw [rows, acks]
    rcases served.covers live read b mem with mem | mem
    · rw [next] at mem
      rcases List.mem_cons.mp mem with rfl | mem
      · exact .inr (List.mem_append_right _ List.mem_cons_self)
      · exact .inl mem
    · exact .inr (List.mem_append_left _ mem)

theorem Served.ack (served : Served peerRegion s c) (sound : Sound peerRegion s) {index : Nat}
    {table lastEventID : String} (found : s.acks[index]? = some (table, lastEventID))
    (history : t.history = s.history) (clock : t.clock = s.clock) (nextID : t.nextID = s.nextID)
    (rows : t.rows = ackPending s.rows peerRegion table lastEventID)
    (acks : t.acks = s.acks.eraseIdx index) : Served peerRegion t c where
  peer := served.peer
  channel := history ▸ served.channel
  early := clock ▸ served.early
  replay := nextID ▸ served.replay
  seen := history ▸ served.seen
  covers live read b mem := by
    rw [rows] at mem ⊢
    obtain ⟨inRows, other⟩ := List.mem_filter.mp mem
    rcases served.covers live read b inRows with inLine | underWay
    · left
      rcases List.mem_append.mp inLine with inLine | inLine
      · exact List.mem_append_left _ inLine
      · exact List.mem_append_right _ (Consume.mem_remaining_of_kept inLine mem)
    · right
      rw [acks]
      -- The row is still there, so the ack just handled was not its own.
      obtain ⟨at_, is⟩ := List.mem_iff_getElem?.mp underWay
      apply List.mem_eraseIdx_iff_getElem?.mpr
      refine ⟨at_, ?_, is⟩
      rintro rfl
      have inHistory := sound.rows.subset inRows
      have own : ackOf b = (table, lastEventID) := Option.some.inj (is.symm.trans found)
      apply of_decide_eq_true other
      refine ⟨sound.history.peer b inHistory, ?_, congrArg Prod.snd own⟩
      rw [← sound.named b inHistory, own]

variable [DecidableEq V]

theorem attended_moves {pending : List OutboxBatch} (attended : Attended peerRegion pending s)
    (quiet : calm action = true) (moves : Moves repo server mode peerRegion s action t) :
    Attended peerRegion pending t := by
  have sound : Sound peerRegion t := by
    apply sound_moves attended.sound _ moves
    cases action <;> first | rfl | cases quiet
  cases moves with
  | tick =>
    refine ⟨sound, attended.kept, fun pod c here => ?_⟩
    have served := attended.session pod c here
    exact { served with early := fun unread => (served.early unread).later (Nat.le_succ _) }
  | publish pod batch found =>
    have mem := List.mem_of_find?_eq_some found
    refine ⟨sound, attended.kept, fun serving c here => ?_⟩
    obtain ⟨⟨serving', d⟩, before, same⟩ := Option.map_eq_some_iff.mp here
    have served := attended.session serving' d before
    have inHistory := attended.sound.waiting.subset (List.mem_map_of_mem mem)
    cases same
    exact { served.publish inHistory serving pod with }
  | consume before taken =>
    refine ⟨sound, attended.kept, fun pod c here => ?_⟩
    cases here
    exact { (attended.session _ _ before).advance attended.sound taken with }
  | refuse => exact ⟨sound, attended.kept, nofun⟩
  | receive before next handled =>
    refine ⟨sound, attended.kept, fun pod c here => ?_⟩
    cases here
    exact (attended.session _ _ before).receive next rfl rfl rfl rfl
  | ack index table lastEventID found =>
    refine ⟨sound, fun b mem => ?_, fun pod c here => ?_⟩
    · rcases attended.kept b mem with inRows | acked
      · by_cases still : b ∈ ackPending s.rows peerRegion table lastEventID
        · exact .inl still
        · right
          apply List.mem_append_right
          exact List.mem_filter.mpr ⟨inRows, decide_eq_true still⟩
      · exact .inr (List.mem_append_left _ acked)
    · exact (attended.session pod c here).ack attended.sound found rfl rfl rfl rfl rfl
  | skipID | conflict | enqueue | connect | disconnect => cases quiet

end Served

/-! ## The work left -/

section Work

variable {V : Type} {peerRegion : String} {s t : State V} {c c' : Consume} {now live : Nat}
  {rows rows' : List OutboxBatch}

theorem stageWork_sublist (peerRegion : String) (sub : rows'.Sublist rows) (stage : Stage) :
    stageWork peerRegion rows' stage ≤ stageWork peerRegion rows stage := by
  have shorter := sub.length_le
  cases stage with
  | opened | snapshotted | subscribed =>
    simp only [stageWork]
    omega
  | replaying windows afterID live =>
    have fewer : (pendings rows' peerRegion windows afterID).length ≤
        (pendings rows peerRegion windows afterID).length := (pendings_sublist sub).length_le
    simp only [stageWork]
    omega
  | forwarding => exact Nat.le_refl _

/-- Each step of `Consume` uses up work, unless it forwards a batch from after the watermark. -/
theorem sessionWork_advance (chronicle : Chronicle c.peerRegion now rows) (clock : 0 < now)
    (early : c.watermark = none → c.EarlyOk now)
    (stamps : ∀ b ∈ c.channel, 0 < b.createdAt ∧ b.createdAt ≤ now)
    (seen : ∀ live, c.watermark = some live → ∀ b ∈ c.channel, b.createdAt ≤ live)
    (taken : c.advance now rows = some c') : sessionWork rows c' + 1 ≤ sessionWork rows c := by
  obtain ⟨peer, requested, stage, channel, queue⟩ := c
  cases stage with
  | opened | snapshotted =>
    cases taken
    simp only [sessionWork, stageWork]
    omega
  | subscribed w =>
    obtain ⟨noQueue, snapshot⟩ := early rfl
    have started : c'.peerRegion = peer ∧ c'.watermark = some now ∧ c'.ReplayOk 1 ∧
        c'.pipeline now rows [] = rows := Consume.pipeline_start chronicle clock rfl noQueue
      (snapshot w (.inr rfl)) (by simpa using fun b mem => (stamps b mem).2) Nat.one_pos taken
    have whole := congrArg List.length started.2.2.2
    cases taken
    have two : (Consume.windows ⟨peer, requested, .subscribed w, channel, queue⟩ w now).length ≤ 2 := by
      unfold Consume.windows
      split <;> simp
    simp only [Consume.pipeline, Consume.remaining, List.length_append] at whole
    simp only [sessionWork, stageWork]
    omega
  | replaying windows afterID live =>
    cases windows with
    | nil =>
      cases taken
      simp only [sessionWork, stageWork, List.length_nil]
      omega
    | cons window windows =>
      simp only [Consume.advance, listPendingWindow_eq chronicle] at taken
      split at taken
      · next none =>
        cases taken
        simp only [sessionWork, stageWork, pendings, List.length_append, List.length_cons]
        omega
      · next last page =>
        cases taken
        have nonempty : 0 < ((pendingWindow rows peer window afterID).take replayPendingPageSize).length :=
          List.length_pos_of_mem (List.mem_of_getLast? page)
        have split : ((pendingWindow rows peer window afterID).take replayPendingPageSize).length +
            (pendingWindow rows peer window last.id).length =
              (pendingWindow rows peer window afterID).length := by
          rw [pendingWindow_after_page chronicle page, ← List.length_append, List.take_append_drop]
        simp only [sessionWork, stageWork, pendings, List.length_append, List.length_cons]
        omega
  | forwarding live =>
    cases channel with
    | nil => cases taken
    | cons batch channel =>
      have positive := (stamps batch List.mem_cons_self).1
      have old := seen live rfl batch List.mem_cons_self
      simp only [Consume.advance, if_pos (show batch.createdAt ≠ 0 ∧ batch.createdAt ≤ live by omega)]
        at taken
      cases taken
      simp only [sessionWork, List.length_cons]
      omega

/-- `publishLive` puts at most one batch into the channel. -/
theorem sessionWork_publish (batch : OutboxBatch) :
    sessionWork rows (c.publish batch) ≤ sessionWork rows c + 1 := by
  have added : (c.publish batch).channel.length ≤ c.channel.length + 1 := by
    unfold Consume.publish
    split <;> simp
  simp only [sessionWork, Consume.publish_queue, Consume.publish_stage, Consume.publish_peerRegion]
  omega

theorem length_filter_waiting {waiting : List (Nat × OutboxBatch)} {pod : Nat} {batch : OutboxBatch}
    (mem : (pod, batch) ∈ waiting) :
    (waiting.filter (·.2.id ≠ batch.id)).length + 1 ≤ waiting.length :=
  List.length_filter_lt_length_iff_exists.mpr ⟨(pod, batch), mem, by simp⟩

variable [DecidableEq V] {repo : Repository} {server : Server V} {mode : ReplicationApplyMode}
  {action : Action}

theorem work_moves {pending : List OutboxBatch} (attended : Attended peerRegion pending s)
    (quiet : calm action = true) (moves : Moves repo server mode peerRegion s action t) :
    work t + (isWork action).toNat ≤ work s := by
  have sound := attended.sound
  cases moves with
  | tick => exact Nat.le_refl _
  | publish pod batch found =>
    have mem := List.mem_of_find?_eq_some found
    have fewer := length_filter_waiting mem
    cases here : s.session with
    | none =>
      simp only [work, here, Option.map_none, isWork, Bool.toNat_false]
      omega
    | some entry =>
      obtain ⟨serving, c⟩ := entry
      have added : sessionWork s.rows (if serving = pod then c.publish batch else c) ≤
          sessionWork s.rows c + 1 := by
        split
        · exact sessionWork_publish _
        · exact Nat.le_succ _
      simp only [work, here, Option.map_some, Option.getD_some, isWork, Bool.toNat_false]
      omega
  | consume here taken =>
    have served := attended.session _ _ here
    have stamps := fun b mem => (sound.history.stamps b (served.channel b mem)).2
    have used := sessionWork_advance (served.peer.symm ▸ sound.history.sublist sound.rows) sound.clock
      served.early stamps (fun live read b mem => served.seen live read b (served.channel b mem)) taken
    simp only [work, here, Option.map_some, Option.getD_some, isWork, Bool.toNat_true]
    omega
  | refuse here next =>
    simp only [work, here, next, sessionWork, Option.map_some, Option.map_none, Option.getD_some,
      Option.getD_none, isWork, Bool.toNat_true, List.length_cons]
    omega
  | receive here next handled =>
    simp only [work, here, next, sessionWork, Option.map_some, Option.getD_some, isWork,
      Bool.toNat_true, List.length_cons, List.length_append, List.length_nil]
    omega
  | ack index table lastEventID found =>
    obtain ⟨inRange, _⟩ := List.getElem?_eq_some_iff.mp found
    have fewer := List.length_eraseIdx_of_lt inRange
    have sub : (ackPending s.rows peerRegion table lastEventID).Sublist s.rows := List.filter_sublist
    cases here : s.session with
    | none =>
      simp only [work, here, Option.map_none, Option.getD_none, isWork, Bool.toNat_true]
      omega
    | some entry =>
      obtain ⟨serving, c⟩ := entry
      have stage := stageWork_sublist c.peerRegion sub c.stage
      simp only [work, here, sessionWork, Option.map_some, Option.getD_some, isWork, Bool.toNat_true]
      omega
  | skipID | conflict | enqueue | connect | disconnect => cases quiet

theorem attended_run {pending : List OutboxBatch} {actions : List Action}
    (start : Attended peerRegion pending s) (quiet : ∀ action ∈ actions, calm action = true)
    (ran : Machine.run (step repo server mode peerRegion) s actions = some t) :
    Attended peerRegion pending t ∧ work t + actions.countP isWork ≤ work s := by
  have keeps : ∀ s action t, Attended peerRegion pending s → calm action = true →
      step repo server mode peerRegion s action = some t → Attended peerRegion pending t :=
    fun _ _ _ attended quiet taken => attended_moves attended quiet (step_moves taken)
  have uses : ∀ s action t, Attended peerRegion pending s → calm action = true →
      step repo server mode peerRegion s action = some t →
        work t + (isWork action).toNat ≤ work s :=
    fun _ _ _ attended quiet taken => work_moves attended quiet (step_moves taken)
  have meets : Machine.Meets (step repo server mode peerRegion) (fun _ action => calm action = true)
      s actions := Machine.meets_of_forall quiet s
  exact ⟨Machine.invariant keeps start meets ran, Machine.countP_le_of_meets keeps uses start meets ran⟩

/-- A session with nothing left to do has forwarded everything, and every ack was handled. -/
theorem rows_eq_nil_of_rest {pending : List OutboxBatch} {pod : Nat}
    (attended : Attended peerRegion pending t) (up : t.session = some (pod, c))
    (rest : ∀ action, isWork action = true → step repo server mode peerRegion t action = none) :
    t.rows = [] := by
  have served := attended.session pod c up
  have noAcks : t.acks = [] := by
    cases acks : t.acks with
    | nil => rfl
    | cons first others =>
      have := rest (.ack 0) rfl
      simp [step, acks] at this
  have noQueue : c.queue = [] := by
    cases queue : c.queue with
    | nil => rfl
    | cons batch others =>
      have stuck := rest .receive rfl
      simp only [step, up, queue] at stuck
      split at stuck <;> cases stuck
  have waiting : c.advance t.clock t.rows = none := by
    have stuck := rest .consume rfl
    simpa only [step, up, Option.map_eq_none_iff] using stuck
  obtain ⟨live, forwarding⟩ : ∃ live, c.stage = .forwarding live := by
    cases stage : c.stage with
    | forwarding live => exact ⟨live, rfl⟩
    | opened | snapshotted | subscribed => simp [Consume.advance, stage] at waiting
    | replaying windows afterID live =>
      cases windows with
      | nil => simp [Consume.advance, stage] at waiting
      | cons window windows =>
        simp only [Consume.advance, stage] at waiting
        split at waiting <;> cases waiting
  apply List.eq_nil_iff_forall_not_mem.mpr
  intro b mem
  have covered := served.covers live (by simp [Consume.watermark, forwarding]) b mem
  simp [noAcks, noQueue, Consume.remaining, forwarding] at covered

end Work

/-- Once nothing more is enqueued, a new session empties the outbox, whatever was missed before and
in whatever order the session, the receiver and the acks take turns: they take a bounded number of
steps, and when they have none left to take and the receiver has not refused a batch, every row that
was pending is acked. -/
theorem new_session_drains_outbox {V : Type} [DecidableEq V] {repo : Repository} {server : Server V}
    {mode : ReplicationApplyMode} {peerRegion : String} {tables : Tables V}
    {earlier later : List Action} {s t : State V} {pod : Nat} {snapshotRequested : Bool}
    (addressed : Machine.Meets (step repo server mode peerRegion) (named · ·) (initial tables) earlier)
    (reached : Machine.run (step repo server mode peerRegion) (initial tables) earlier = some s)
    (idle : s.session = none) (quiet : ∀ action ∈ later, calm action = true)
    (ran : Machine.run (step repo server mode peerRegion) s (.connect pod snapshotRequested :: later) =
      some t) :
    later.countP isWork ≤ 3 * s.rows.length + s.acks.length + s.waiting.length + 6 ∧
      (t.session.isSome = true →
        (∀ action, isWork action = true → step repo server mode peerRegion t action = none) →
          t.rows = [] ∧ ∀ b ∈ s.rows, b ∈ t.acked) := by
  have sound := sound_run addressed reached
  obtain ⟨opened, taken, rest⟩ := Option.bind_eq_some_iff.mp ran
  simp only [step, idle] at taken
  cases taken
  have start : Attended peerRegion s.rows
      { s with session := some (pod, .start peerRegion snapshotRequested) } := by
    refine ⟨{ sound with }, fun b => .inl, fun pod c here => ?_⟩
    cases here
    refine ⟨tracks_start _ _, ?_, ?_⟩
    · rintro live ⟨⟩
    · rintro live ⟨⟩
  obtain ⟨attended, bound⟩ := attended_run start quiet rest
  constructor
  · simp only [work, sessionWork, stageWork, Consume.start, Option.map_some, Option.getD_some,
      List.length_nil] at bound
    omega
  · intro up idle
    obtain ⟨⟨pod, c⟩, up⟩ := Option.isSome_iff_exists.mp up
    have drained := rows_eq_nil_of_rest attended up idle
    refine ⟨drained, fun b mem => ?_⟩
    rcases attended.kept b mem with still | acked
    · rw [drained] at still
      cases still
    · exact acked

/-- The batch enqueued on the other pod is missed by the first session and acked after the second. -/
theorem new_session_drains_outbox_users :
    ∃ s t, Machine.run (step usersRepository usersServer .fullSync "us")
        (initial (Store.empty String).tables) (enqueueOnTwoPods ++ [.disconnect]) = some s ∧
      Machine.run (step usersRepository usersServer .fullSync "us") s
        (.connect 1 false :: [.consume, .consume, .consume, .consume, .consume, .consume, .receive,
          .ack 0]) = some t ∧
      s.rows.map (·.lastEventID) = ["a"] ∧ t.rows = [] ∧ ∀ b ∈ s.rows, b ∈ t.acked := by
  have runs : ∃ s t, Machine.run (step usersRepository usersServer .fullSync "us")
        (initial (Store.empty String).tables) (enqueueOnTwoPods ++ [.disconnect]) = some s ∧
      Machine.run (step usersRepository usersServer .fullSync "us") s
        (.connect 1 false :: [.consume, .consume, .consume, .consume, .consume, .consume, .receive,
          .ack 0]) = some t ∧
      s.rows.map (·.lastEventID) = ["a"] ∧ s.session = none ∧ t.session.isSome = true ∧
      ∀ action, isWork action = true → step usersRepository usersServer .fullSync "us" t action = none := by
    refine ⟨_, _, rfl, rfl, by decide, rfl, rfl, ?_⟩
    intro action work
    cases action with
    | consume | receive | ack => rfl
    | tick | skipID | enqueue | publish | connect | disconnect => cases work
  obtain ⟨s, t, reached, ran, missed, idle, up, rest⟩ := runs
  have drained := new_session_drains_outbox (by decide) reached idle (by decide) ran
  exact ⟨s, t, reached, ran, missed, drained.2 up rest⟩

section Missed

variable {V : Type} {peerRegion : String} {s t : State V}

/-- The row is pending, and nothing that names it is on the way. -/
structure Missed (peerRegion : String) (row : OutboxBatch) (s : State V) : Prop where
  pending : row ∈ s.rows
  peer : row.peerRegion = peerRegion
  named : (ackOf row).1 = row.table
  acks : ackOf row ∉ s.acks
  waiting : ∀ b ∈ s.unpublished, ackOf b ≠ ackOf row
  session : ∀ pod c, s.session = some (pod, c) → (∃ live, c.stage = .forwarding live) ∧
    ∀ b ∈ c.queue ++ c.channel, ackOf b ≠ ackOf row

/-- A forwarding session only moves batches from its channel to its queue. -/
theorem advance_forwarding {c c' : Consume} {now live : Nat} {rows : List OutboxBatch}
    (stage : c.stage = .forwarding live) (taken : c.advance now rows = some c') :
    c'.stage = .forwarding live ∧ ∀ b ∈ c'.queue ++ c'.channel, b ∈ c.queue ++ c.channel := by
  obtain ⟨peer, requested, _, channel, queue⟩ := c
  cases stage
  cases channel with
  | nil => cases taken
  | cons batch channel =>
    simp only [Consume.advance] at taken
    split at taken <;> cases taken
    · exact ⟨rfl, fun b mem => by simp at mem ⊢; tauto⟩
    · exact ⟨rfl, fun b mem => by simp at mem ⊢; tauto⟩

theorem Missed.published {row batch : OutboxBatch} {c : Consume}
    (missed : (∃ live, c.stage = .forwarding live) ∧ ∀ b ∈ c.queue ++ c.channel, ackOf b ≠ ackOf row)
    (other : ackOf batch ≠ ackOf row) : (∃ live, (c.publish batch).stage = .forwarding live) ∧
      ∀ b ∈ (c.publish batch).queue ++ (c.publish batch).channel, ackOf b ≠ ackOf row := by
  rw [Consume.publish_stage, Consume.publish_queue]
  refine ⟨missed.1, fun b mem => ?_⟩
  rcases List.mem_append.mp mem with mem | mem
  · exact missed.2 b (List.mem_append_left _ mem)
  · rcases Consume.mem_publish_channel mem with mem | rfl
    · exact missed.2 b (List.mem_append_right _ mem)
    · exact other

variable [DecidableEq V] {repo : Repository} {server : Server V} {mode : ReplicationApplyMode}
  {action : Action}

/-- Any step but a new session. -/
def noConnect (s : State V) (action : Action) : Bool :=
  named s action && match action with
    | .connect _ _ => false
    | _ => true

theorem missed_moves {row : OutboxBatch} (missed : Missed peerRegion row s)
    (kept : noConnect s action = true) (moves : Moves repo server mode peerRegion s action t) :
    Missed peerRegion row t := by
  cases moves with
  | tick | skipID | conflict => exact { missed with }
  | disconnect => exact { missed with session := nofun }
  | connect => cases kept
  | enqueue pod batch peer fresh =>
    -- A second row with the ack of the pending one would break the unique constraint.
    have other : ackOf (batch.stamped s.nextID s.clock) ≠ ackOf row := by
      intro same
      have addressed : (ackOf batch).1 = batch.table :=
        of_decide_eq_true (Bool.and_eq_true_iff.mp kept).1
      have conflicts : row.conflicts batch = true := by
        apply decide_eq_true
        refine ⟨missed.peer.trans peer.symm, ?_, (congrArg Prod.snd same).symm⟩
        rw [← missed.named, ← addressed]
        exact (congrArg Prod.fst same).symm
      rw [fresh row missed.pending] at conflicts
      cases conflicts
    refine { missed with
      pending := List.mem_append_left _ missed.pending
      waiting := fun b mem => ?_ }
    rw [unpublished_insert] at mem
    rcases List.mem_append.mp mem with mem | mem
    · exact missed.waiting b mem
    · rw [List.mem_singleton.mp mem]
      exact other
  | publish pod batch found =>
    have mem := List.mem_of_find?_eq_some found
    refine { missed with
      waiting := fun b memB => missed.waiting b ((List.filter_sublist.map _).subset memB)
      session := fun serving c here => ?_ }
    obtain ⟨⟨serving', d⟩, before, same⟩ := Option.map_eq_some_iff.mp here
    have forwarding := missed.session serving' d before
    cases same
    split
    · exact Missed.published forwarding (missed.waiting batch (List.mem_map_of_mem mem))
    · exact forwarding
  | consume here taken =>
    refine { missed with session := fun pod c same => ?_ }
    cases same
    obtain ⟨⟨live, stage⟩, others⟩ := missed.session _ _ here
    obtain ⟨stage', from_⟩ := advance_forwarding stage taken
    exact ⟨⟨live, stage'⟩, fun b mem => others b (from_ b mem)⟩
  | refuse => exact { missed with session := nofun }
  | receive here next handled =>
    obtain ⟨forwarding, others⟩ := missed.session _ _ here
    rw [next] at others
    refine { missed with
      acks := fun mem => ?_
      session := fun pod c same => ?_ }
    · rcases List.mem_append.mp mem with mem | mem
      · exact missed.acks mem
      · exact others _ List.mem_cons_self (List.mem_singleton.mp mem).symm
    · cases same
      exact ⟨forwarding, fun b mem => others b (List.mem_cons_of_mem _ mem)⟩
  | ack index table lastEventID found =>
    refine { missed with
      pending := List.mem_filter.mpr ⟨missed.pending, decide_eq_true ?_⟩
      acks := fun mem => missed.acks (List.mem_of_mem_eraseIdx mem) }
    rintro ⟨_, sameTable, sameLast⟩
    have own : ackOf row = (table, lastEventID) := Prod.ext (missed.named.trans sameTable) sameLast
    exact missed.acks (own ▸ List.mem_of_getElem? found)

end Missed

/-- A row that nothing on the way names, in the channel, the queue, the acks or still to be published,
stays pending behind a forwarding session: until a new session is opened no step of the pods, the
session or the receiver delivers it. -/
theorem missed_batch_waits_for_new_session {V : Type} [DecidableEq V] {repo : Repository}
    {server : Server V} {mode : ReplicationApplyMode} {peerRegion : String} {tables : Tables V}
    {earlier later : List Action} {s t : State V} {row : OutboxBatch} {pod live : Nat} {c : Consume}
    (addressed : Machine.Meets (step repo server mode peerRegion) (named · ·) (initial tables) earlier)
    (reached : Machine.run (step repo server mode peerRegion) (initial tables) earlier = some s)
    (pending : row ∈ s.rows) (up : s.session = some (pod, c)) (forwarding : c.stage = .forwarding live)
    (missed : ackOf row ∉ s.acks ++ (c.queue ++ c.channel ++ s.unpublished).map ackOf)
    (noSession : Machine.Meets (step repo server mode peerRegion) (noConnect · ·) s later)
    (ran : Machine.run (step repo server mode peerRegion) s later = some t) : row ∈ t.rows := by
  have sound := sound_run addressed reached
  have inHistory := sound.rows.subset pending
  have others : ∀ b ∈ c.queue ++ c.channel ++ s.unpublished, ackOf b ≠ ackOf row := by
    intro b mem same
    exact missed (List.mem_append_right _ (List.mem_map.mpr ⟨b, mem, same⟩))
  have start : Missed peerRegion row s := by
    refine ⟨pending, sound.history.peer row inHistory, sound.named row inHistory,
      fun mem => missed (List.mem_append_left _ mem),
      fun b mem => others b (List.mem_append_right _ mem), fun pod' d here => ?_⟩
    cases up.symm.trans here
    exact ⟨⟨live, forwarding⟩, fun b mem => others b (List.mem_append_left _ mem)⟩
  have kept : Missed peerRegion row t := Machine.invariant
    (fun _ _ _ missed meets taken => missed_moves missed meets (step_moves taken)) start noSession ran
  exact kept.pending

/-- The session on pod 1 delivers and acks a third batch, and the row from pod 0 is still there. -/
theorem missed_batch_waits_for_new_session_users :
    ∃ s t row, Machine.run (step usersRepository usersServer .fullSync "us")
        (initial (Store.empty String).tables) enqueueOnTwoPods = some s ∧
      Machine.run (step usersRepository usersServer .fullSync "us") s
        [.tick, .enqueue 1 (userBatch "c" 3), .publish 3, .consume, .receive, .ack 0] = some t ∧
      row.lastEventID = "a" ∧ t.acked.map (·.lastEventID) = ["b", "c"] ∧ row ∈ t.rows := by
  have runs : ∃ s t row pod live c, Machine.run (step usersRepository usersServer .fullSync "us")
        (initial (Store.empty String).tables) enqueueOnTwoPods = some s ∧
      Machine.run (step usersRepository usersServer .fullSync "us") s
        [.tick, .enqueue 1 (userBatch "c" 3), .publish 3, .consume, .receive, .ack 0] = some t ∧
      row.lastEventID = "a" ∧ t.acked.map (·.lastEventID) = ["b", "c"] ∧ row ∈ s.rows ∧
      s.session = some (pod, c) ∧ c.stage = .forwarding live ∧
      ackOf row ∉ s.acks ++ (c.queue ++ c.channel ++ s.unpublished).map ackOf ∧
      Machine.Meets (step usersRepository usersServer .fullSync "us") (noConnect · ·) s
        [.tick, .enqueue 1 (userBatch "c" 3), .publish 3, .consume, .receive, .ack 0] :=
    ⟨_, _, (userBatch "a" 1).stamped 1 2, _, _, _, rfl, rfl, by decide, by decide, by decide, rfl, rfl,
      by decide, by decide⟩
  obtain ⟨s, t, row, pod, live, c, reached, ran, isA, acked, pending, up, forwarding, missed, noSession⟩ :=
    runs
  exact ⟨s, t, row, reached, ran, isA, acked, missed_batch_waits_for_new_session (by decide) reached
    pending up forwarding missed noSession ran⟩

end Transmogr.OutboxProtocol
