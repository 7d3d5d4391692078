import Transmogr.Machine
import Transmogr.Pipeline

/-! The handover from replay to live batches in one `Consume` session, against
the enqueuer of its peer. The insert stamps its row when its transaction starts,
the row is visible once that commits, and `publishLive` runs after that. -/
namespace Transmogr.Handover

/-- Where the enqueuer of the peer stands in `Enqueue`. -/
inductive Enqueuer where
  | idle
  | inserting (batch : OutboxBatch)
  | inserted (batch : OutboxBatch)

/-- The committed rows that `publishLive` has not seen. -/
def Enqueuer.waiting : Enqueuer → List OutboxBatch
  | inserted batch => [batch]
  | _ => []

structure State where
  clock : Nat
  nextID : Nat
  rows : List OutboxBatch
  /-- The batches whose `publishLive` has run. -/
  published : List OutboxBatch
  enqueuer : Enqueuer
  session : Consume

inductive Action where
  | tick
  /-- A row of another peer takes the next id. -/
  | skipID
  | stamp (batch : OutboxBatch)
  | commit
  | abort
  | publish
  | consume

def initial (peerRegion : String) (snapshotRequested : Bool) : State :=
  ⟨1, 1, [], [], .idle, .start peerRegion snapshotRequested⟩

def step (s : State) : Action → Option State
  | .tick => some { s with clock := s.clock + 1 }
  | .skipID => some { s with nextID := s.nextID + 1 }
  | .stamp batch =>
    match s.enqueuer, batch.validate with
    | .idle, .ok () =>
      if batch.peerRegion = s.session.peerRegion then some { s with
        nextID := s.nextID + 1
        enqueuer := .inserting (batch.stamped s.nextID s.clock) }
      else none
    | _, _ => none
  | .commit =>
    match s.enqueuer with
    | .inserting batch =>
      match insertPending s.rows batch with
      | none => some { s with enqueuer := .idle }
      | some rows => some { s with rows, enqueuer := .inserted batch }
    | _ => none
  | .abort =>
    match s.enqueuer with
    | .inserting _ => some { s with enqueuer := .idle }
    | _ => none
  | .publish =>
    match s.enqueuer with
    | .inserted batch => some { s with
        published := s.published ++ [batch]
        enqueuer := .idle
        session := s.session.publish batch }
    | _ => none
  | .consume => (s.session.advance s.clock s.rows).map fun session => { s with session }

/-- Live channels never fill. -/
def neverFull (s : State) : Action → Bool
  | .publish => s.session.channel.length < liveReplicationBufferSize
  | _ => true

/-- A row commits before the session has read its live watermark, is stamped
after that watermark, or is in a window the session has not finished. -/
def inTime (s : State) : Action → Bool
  | .commit =>
    match s.enqueuer with
    | .inserting batch => s.session.willDeliver batch
    | _ => true
  | _ => true

/-- Every id still to be inserted is at least this. -/
def State.frontier (s : State) : Nat :=
  match s.enqueuer with
  | .inserting batch => batch.id
  | _ => s.nextID

/-- A batch on its way into the table. -/
structure Arriving (s : State) (batch : OutboxBatch) : Prop where
  peer : batch.peerRegion = s.session.peerRegion
  id : 0 < batch.id ∧ batch.id < s.nextID
  time : 0 < batch.createdAt ∧ batch.createdAt ≤ s.clock
  last : ∀ a ∈ s.rows, a.createdAt ≤ batch.createdAt

structure Ok (s : State) : Prop where
  clock : 0 < s.clock
  frontier : 0 < s.frontier ∧ s.frontier ≤ s.nextID
  rows : Chronicle s.session.peerRegion s.clock s.rows
  ids : ∀ b ∈ s.rows, b.id < s.frontier
  arriving : ∀ batch, s.enqueuer = .inserting batch → Arriving s batch
  log : s.rows = s.published ++ s.enqueuer.waiting
  channel : ∀ b ∈ s.session.channel, b ∈ s.published
  early : s.session.watermark = none → s.session.EarlyOk s.clock
  replay : s.session.ReplayOk s.frontier
  live : ∀ live, s.session.watermark = some live →
    s.session.pipeline live s.rows s.enqueuer.waiting = s.rows

section Steps

variable {s t : State}

theorem ok_tick (ok : Ok s) : Ok { s with clock := s.clock + 1 } where
  clock := Nat.succ_pos _
  frontier := ok.frontier
  rows := ok.rows.later (Nat.le_succ _)
  ids := ok.ids
  arriving batch eq := by
    have arriving := ok.arriving batch eq
    exact ⟨arriving.peer, arriving.id, ⟨arriving.time.1, Nat.le_succ_of_le arriving.time.2⟩,
      arriving.last⟩
  log := ok.log
  channel := ok.channel
  early none := (ok.early none).later (Nat.le_succ _)
  replay := ok.replay
  live := ok.live

theorem ok_skipID (ok : Ok s) : Ok { s with nextID := s.nextID + 1 } := by
  have grows : s.frontier ≤ State.frontier { s with nextID := s.nextID + 1 } := by
    unfold State.frontier
    cases s.enqueuer with
    | inserting batch => exact Nat.le_refl _
    | idle | inserted => exact Nat.le_succ _
  have bounded : State.frontier { s with nextID := s.nextID + 1 } ≤ s.nextID + 1 := by
    have := ok.frontier.2
    unfold State.frontier at this ⊢
    cases enqueuer : s.enqueuer with
    | inserting batch => rw [enqueuer] at this; exact Nat.le_succ_of_le this
    | idle | inserted => exact Nat.le_refl _
  refine { ok with
    frontier := ⟨ok.frontier.1.trans_le grows, bounded⟩
    ids := fun b mem => (ok.ids b mem).trans_le grows
    arriving := fun batch eq => ?_
    replay := ok.replay.mono grows }
  have arriving := ok.arriving batch eq
  exact ⟨arriving.peer, ⟨arriving.id.1, Nat.lt_succ_of_lt arriving.id.2⟩, arriving.time, arriving.last⟩

theorem ok_stamp {batch : OutboxBatch} (ok : Ok s) (idle : s.enqueuer = .idle)
    (peer : batch.peerRegion = s.session.peerRegion) :
    Ok { s with nextID := s.nextID + 1, enqueuer := .inserting (batch.stamped s.nextID s.clock) } := by
  have same : s.frontier = s.nextID := by rw [State.frontier, idle]
  have waiting : s.enqueuer.waiting = [] := by rw [idle]; rfl
  have log := ok.log
  have live := ok.live
  rw [waiting] at log live
  refine ⟨ok.clock, ⟨same ▸ ok.frontier.1, Nat.le_succ _⟩, ok.rows, same ▸ ok.ids,
    fun b eq => ?_, log, ok.channel, ok.early, same ▸ ok.replay, live⟩
  cases eq
  exact ⟨peer, ⟨same ▸ ok.frontier.1, Nat.lt_succ_self _⟩, ⟨ok.clock, Nat.le_refl _⟩,
    fun a mem => (ok.rows.stamps a mem).2.2⟩

/-- The insert failed, or a pending batch has the same last event. -/
theorem ok_withdraw {batch : OutboxBatch} (ok : Ok s) (inserting : s.enqueuer = .inserting batch) :
    Ok { s with enqueuer := .idle } := by
  have waiting : s.enqueuer.waiting = [] := by rw [inserting]; rfl
  have grows := ok.frontier.2
  have log := ok.log
  have live := ok.live
  rw [waiting] at log live
  exact ⟨ok.clock, ⟨ok.frontier.1.trans_le grows, Nat.le_refl _⟩, ok.rows,
    fun b mem => (ok.ids b mem).trans_le grows, nofun, log, ok.channel, ok.early,
    ok.replay.mono grows, live⟩

theorem ok_commit {batch : OutboxBatch} (ok : Ok s) (inserting : s.enqueuer = .inserting batch)
    (committed : inTime s .commit = true) :
    Ok { s with rows := s.rows ++ [batch], enqueuer := .inserted batch } := by
  have waiting : s.enqueuer.waiting = [] := by rw [inserting]; rfl
  have frontier : s.frontier = batch.id := by rw [State.frontier, inserting]
  have grows := ok.frontier.2
  have arriving := ok.arriving batch inserting
  have log := ok.log
  have live := ok.live
  have ids := ok.ids
  have replay := ok.replay
  rw [waiting, List.append_nil] at log
  rw [frontier] at ids replay
  have chronicle : Chronicle s.session.peerRegion s.clock (s.rows ++ [batch]) :=
    ok.rows.snoc arriving.peer ids arriving.last ⟨arriving.id.1, arriving.time⟩
  refine ⟨ok.clock, ⟨ok.frontier.1.trans_le grows, Nat.le_refl _⟩, chronicle, fun b mem => ?_, nofun,
    by rw [← log]; rfl, ok.channel, ok.early, ok.replay.mono grows, fun mark read => ?_⟩
  · rcases List.mem_append.mp mem with mem | mem
    · exact (ids b mem).trans arriving.id.2
    · rw [List.mem_singleton.mp mem]
      exact arriving.id.2
  · have before := live mark read
    rw [waiting] at before
    have times : ∀ a ∈ s.session.channel ++ [], a.createdAt ≤ batch.createdAt := by
      intro a mem
      rw [List.append_nil] at mem
      exact arriving.last a (log ▸ ok.channel a mem)
    have reaches : s.session.willDeliver batch = true := by
      simpa only [inTime, inserting] using committed
    have inserted := Consume.pipeline_insert arriving.peer read replay arriving.last times reaches
    rw [before] at inserted
    exact inserted

theorem ok_publish {batch : OutboxBatch} (ok : Ok s) (inserted : s.enqueuer = .inserted batch)
    (notFull : neverFull s .publish = true) :
    Ok { s with
      published := s.published ++ [batch]
      enqueuer := .idle
      session := s.session.publish batch } := by
  have log := ok.log
  have live := ok.live
  have same : s.frontier = s.nextID := by rw [State.frontier, inserted]
  rw [inserted] at log live
  have peer : batch.peerRegion = s.session.peerRegion := by
    apply ok.rows.peer
    rw [log]
    exact List.mem_append_right _ List.mem_cons_self
  refine ⟨ok.clock, ⟨same ▸ ok.frontier.1, Nat.le_refl _⟩, by simpa using ok.rows, same ▸ ok.ids, nofun,
    by rw [log]; simp [Enqueuer.waiting], fun b mem => ?_, fun none => ?_,
    Consume.publish_replayOk (same ▸ ok.replay), fun mark read => ?_⟩
  · rcases Consume.mem_publish_channel mem with mem | rfl
    · exact List.mem_append_left _ (ok.channel b mem)
    · exact List.mem_append_right _ List.mem_cons_self
  · rw [Consume.publish_watermark] at none
    simpa [Consume.EarlyOk] using ok.early none
  · rw [Consume.publish_watermark] at read
    have room : s.session.channel.length < liveReplicationBufferSize := of_decide_eq_true notFull
    exact (Consume.pipeline_publish peer read room).trans (live mark read)

theorem ok_consume {c : Consume} (ok : Ok s) (taken : s.session.advance s.clock s.rows = some c) :
    Ok { s with session := c } := by
  have inLog : ∀ b ∈ s.session.channel ++ s.enqueuer.waiting, b ∈ s.rows := by
    intro b mem
    rw [ok.log]
    rcases List.mem_append.mp mem with mem | mem
    · exact List.mem_append_left _ (ok.channel b mem)
    · exact List.mem_append_right _ mem
  have stamps : ∀ b ∈ s.session.channel ++ s.enqueuer.waiting,
      0 < b.createdAt ∧ b.createdAt ≤ s.clock := fun b mem => (ok.rows.stamps b (inLog b mem)).2
  obtain ⟨peer, requested, channel⟩ := Consume.advance_frame taken
  have rows : Chronicle c.peerRegion s.clock s.rows := peer ▸ ok.rows
  have arriving : ∀ batch, s.enqueuer = .inserting batch → Arriving { s with session := c } batch :=
    fun batch eq => by
      have arriving := ok.arriving batch eq
      exact ⟨arriving.peer.trans peer.symm, arriving.id, arriving.time, arriving.last⟩
  obtain ⟨early, replay, pipeline⟩ := Consume.advance_session ok.rows ok.clock stamps ok.ids
    ok.frontier.1 ok.early ok.replay taken
  refine ⟨ok.clock, ok.frontier, rows, ok.ids, arriving, ok.log,
    fun b mem => ok.channel b (channel b mem), early, replay, fun live mark => ?_⟩
  rcases pipeline live mark with whole | ⟨before, same⟩
  · exact whole
  · exact same.trans (ok.live live before)

theorem step_ok {action : Action} (ok : Ok s) (notFull : neverFull s action = true)
    (committed : inTime s action = true) (taken : step s action = some t) : Ok t := by
  cases action with
  | tick => cases taken; exact ok_tick ok
  | skipID => cases taken; exact ok_skipID ok
  | stamp batch =>
    simp only [step] at taken
    split at taken
    · next idle _ =>
      split at taken
      · next peer =>
        cases taken
        exact ok_stamp ok idle peer
      · cases taken
    · cases taken
  | commit =>
    simp only [step] at taken
    split at taken
    · next batch inserting =>
      unfold insertPending at taken
      split at taken
      · cases taken
        exact ok_withdraw ok inserting
      · next rows inserted =>
        cases taken
        split at inserted <;> cases inserted
        exact ok_commit ok inserting committed
    · cases taken
  | abort =>
    simp only [step] at taken
    split at taken
    · next batch inserting =>
      cases taken
      exact ok_withdraw ok inserting
    · cases taken
  | publish =>
    simp only [step] at taken
    split at taken
    · next batch inserted =>
      cases taken
      exact ok_publish ok inserted notFull
    · cases taken
  | consume =>
    obtain ⟨c, advanced, rfl⟩ := Option.map_eq_some_iff.mp taken
    exact ok_consume ok advanced

theorem ok_initial (peerRegion : String) (snapshotRequested : Bool) :
    Ok (initial peerRegion snapshotRequested) where
  clock := Nat.one_pos
  frontier := ⟨Nat.one_pos, Nat.le_refl _⟩
  rows := ⟨nofun, .nil, .nil, nofun⟩
  ids := nofun
  arriving := nofun
  log := rfl
  channel := nofun
  early := fun _ => ⟨rfl, by simp [initial, Consume.start]⟩
  replay := trivial
  live := nofun

end Steps

/-- As long as every row commits in time for the session that reads it: batches
are queued in increasing id order, and once the session forwards live batches
and its channel is drained, every published batch was queued exactly once. -/
theorem handover_queues_each_batch_once {peerRegion : String} {snapshotRequested : Bool}
    {actions : List Action} {s : State}
    (notFull : Machine.Meets step (neverFull · ·) (initial peerRegion snapshotRequested) actions)
    (committed : Machine.Meets step (inTime · ·) (initial peerRegion snapshotRequested) actions)
    (ran : Machine.run step (initial peerRegion snapshotRequested) actions = some s) :
    s.session.queue.Pairwise (·.id < ·.id) ∧
      ∀ live, s.session.stage = .forwarding live → s.session.channel = [] →
        ∀ batch ∈ s.published, s.session.queue.count batch = 1 := by
  have ok : Ok s := Machine.invariant
    (fun _ _ _ ok meets taken => step_ok ok meets.1 meets.2 taken)
    (ok_initial peerRegion snapshotRequested) (notFull.and committed) ran
  have queued : s.session.queue.Sublist s.rows := by
    cases mark : s.session.watermark with
    | none => rw [(ok.early mark).1]; exact List.nil_sublist _
    | some live =>
      rw [← ok.live live mark, Consume.pipeline, List.append_assoc]
      exact List.sublist_append_left _ _
  have ordered := ok.rows.ids.sublist queued
  refine ⟨ordered, fun live stage drained batch mem => ?_⟩
  have whole := ok.live live (by rw [Consume.watermark, stage])
  have log := ok.log
  have ids := ok.rows.ids
  simp only [Consume.pipeline, Consume.remaining, stage, drained, List.append_nil, List.nil_append]
    at whole
  have nodup : s.session.queue.Nodup := ordered.imp fun lt eq => by rw [eq] at lt; exact lt.false
  apply List.count_eq_one_of_mem nodup
  have inRows : batch ∈ s.rows := log ▸ List.mem_append_left _ mem
  rw [← whole] at inRows
  rcases List.mem_append.mp inRows with inQueue | unpublished
  · exact inQueue
  · -- A batch is not both published and waiting for it.
    rw [log] at ids
    have lt := (List.pairwise_append.mp ids).2.2 batch mem batch (List.mem_filter.mp unpublished).1
    exact absurd lt (Nat.lt_irrefl _)

/-- The row is stamped before the live watermark and commits after the replay:
it is in no page, and the live filter drops it. -/
theorem late_commit_not_queued :
    ∃ s, Machine.run step (initial "us" false)
        [.stamp (userBatch "a" 1), .consume, .consume, .consume, .consume, .consume, .commit, .publish,
          .consume] = some s ∧
      s.session.stage = .forwarding 1 ∧ s.session.channel = [] ∧ s.session.queue = [] ∧
      s.published = [(userBatch "a" 1).stamped 1 1] :=
  ⟨_, rfl, rfl, rfl, rfl, rfl⟩

/-- One row from before the snapshot, one committed while the session replays,
and one stamped after its watermark. -/
def userHandover : List Action :=
  [.stamp (userBatch "a" 1), .commit, .consume, .publish, .consume, .tick,
    .stamp (userBatch "b" 2), .consume, .commit, .publish, .tick, .stamp (userBatch "c" 3), .consume,
    .commit, .consume, .publish, .consume, .consume, .consume, .consume, .consume]

theorem handover_queues_each_batch_once_users :
    ∃ s, Machine.run step (initial "us" true) userHandover = some s ∧
      s.session.stage = .forwarding 2 ∧ s.session.channel = [] ∧ s.published.map (·.id) = [1, 2, 3] ∧
      s.session.queue.Pairwise (·.id < ·.id) ∧
      ∀ live, s.session.stage = .forwarding live → s.session.channel = [] →
        ∀ batch ∈ s.published, s.session.queue.count batch = 1 := by
  have ran : Machine.run step (initial "us" true) userHandover = some _ := rfl
  exact ⟨_, ran, rfl, rfl, rfl, handover_queues_each_batch_once (by decide) (by decide) ran⟩

end Transmogr.Handover
