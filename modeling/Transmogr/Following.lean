import Transmogr.Draining
import Transmogr.Redelivery

/-! What the outbox protocol is for: a receiver that applies the inserted batches in the order of
insertion, each once. Sessions that break, replays and acks on the way are not seen in its tables and
cursors. -/
namespace Transmogr.OutboxProtocol

open Sql

/-- The batch as the receiver handles it. -/
def delivery (batch : OutboxBatch) : Batch := ⟨kind batch, received batch⟩

section Follows

variable {V : Type} [DecidableEq V] (repo : Repository) (server : Server V)
  (mode : ReplicationApplyMode) (tables : Tables V)

/-- The receiver is where it would be had it been handed the first `k` inserted batches once each;
no later one is deleted, and the open session still delivers all of them. -/
structure Follows (s : State V) (k : Nat) : Prop where
  bound : k ≤ s.history.length
  store : deliver repo server mode ((s.history.take k).map delivery) ⟨tables, fun _ _ => none⟩ =
    .ok s.store
  pending : ∀ b ∈ s.history.drop k, b ∈ s.rows
  acks : ∀ a ∈ s.acks, ∃ b ∈ s.history.take k, b.lastEventID = a.2
  acked : ∀ b ∈ s.acked, b ∈ s.history.take k
  session : ∀ pod c, s.session = some (pod, c) → ∀ live, c.watermark = some live →
    ∀ b ∈ s.history.drop k, b ∈ c.pipeline live s.rows s.unpublished

end Follows

section Log

variable {V : Type} {mode : ReplicationApplyMode} {peerRegion : String} {s : State V} {k : Nat}

theorem LogOk.not_mem_drop (log : LogOk mode peerRegion s) {b : OutboxBatch}
    (early : b ∈ s.history.take k) : b ∉ s.history.drop k := by
  intro late
  have ids := log.history.ids
  rw [← List.take_append_drop k s.history] at ids
  exact Nat.lt_irrefl _ ((List.pairwise_append.mp ids).2.2 b early b late)

/-- The first batch in line that the receiver has not applied is the next one inserted. -/
theorem drop_eq_cons_of_first (log : LogOk mode peerRegion s) {batch : OutboxBatch}
    {line : List OutboxBatch} (inOrder : (batch :: line).Sublist s.history)
    (covers : ∀ b ∈ s.history.drop k, b ∈ batch :: line) (late : batch ∈ s.history.drop k) :
    ∃ others, s.history.drop k = batch :: others := by
  cases rest : s.history.drop k with
  | nil =>
    rw [rest] at late
    cases late
  | cons next others =>
    rw [rest] at late covers
    rcases List.mem_cons.mp late with rfl | later
    · exact ⟨others, rfl⟩
    · -- The next batch is in the line behind one inserted after it.
      have inserted : next.id < batch.id := by
        have ids := log.history.ids.sublist (List.drop_sublist k s.history)
        rw [rest] at ids
        exact (List.pairwise_cons.mp ids).1 batch later
      have ids := log.history.ids.sublist inOrder
      rcases List.mem_cons.mp (covers next List.mem_cons_self) with rfl | behind
      · exact absurd inserted (Nat.lt_irrefl _)
      · exact absurd inserted (Nat.lt_asymm ((List.pairwise_cons.mp ids).1 next behind))

theorem keyed_delivery (log : LogOk mode peerRegion s) {b : OutboxBatch} (mem : b ∈ s.history) :
    Redelivery.KeyedBatch (delivery b) :=
  fun _ inside => ⟨received_typed inside, log.kept b mem _ inside⟩

end Log

section Proofs

variable {V : Type} [DecidableEq V] {repo : Repository} {server : Server V}
  {mode : ReplicationApplyMode} {peerRegion : String} {tables : Tables V} {s t : State V} {k : Nat}

theorem follows_initial : Follows repo server mode tables (initial tables) 0 :=
  ⟨Nat.le_refl _, rfl, nofun, nofun, nofun, nofun⟩

/-- A batch the receiver has applied before changes nothing. -/
theorem applyBatch_again (log : LogOk mode peerRegion s) (follows : Follows repo server mode tables s k)
    {batch : OutboxBatch} (early : batch ∈ s.history.take k) :
    applyBatch repo server mode (kind batch) (received batch) s.store = .ok s.store := by
  apply @Redelivery.applyBatch_of_settled _ _ _ _ _ _ (delivery batch)
  apply Redelivery.deliver_settles _ _ _ follows.store (.inl (List.mem_map_of_mem early))
  · intro r t cursor stored
    cases stored
  · intro b mem
    obtain ⟨inserted, early, rfl⟩ := List.mem_map.mp mem
    exact keyed_delivery log (List.mem_of_mem_take early)
  · exact keyed_delivery log (List.mem_of_mem_take early)

variable {pod : Nat} {c : Consume} {batch : OutboxBatch} {queue : List OutboxBatch} {store : Store V}
  {applied : List ReplicationEvent}

/-- The batch at the front of the queue stands before everything the session still delivers. -/
theorem Follows.front (follows : Follows repo server mode tables s k)
    (session : SessionOk mode peerRegion s c) (here : s.session = some (pod, c))
    (next : c.queue = batch :: queue) :
    ∃ live, c.watermark = some live ∧
      let line := Consume.pipeline { c with queue } live s.rows s.unpublished
      (batch :: line).Sublist s.history ∧ ∀ b ∈ s.history.drop k, b ∈ batch :: line := by
  obtain ⟨live, mark, line⟩ := session.toTracks.line next
  have inOrder := session.inOrder live mark
  have covers := follows.session pod c here live mark
  rw [line] at inOrder covers
  exact ⟨live, mark, inOrder, covers⟩

section Steps

variable (ok : Ok mode peerRegion s) (follows : Follows repo server mode tables s k)

include ok follows

/-- A batch that is delivered again leaves the receiver where it is. -/
theorem follows_again (here : s.session = some (pod, c)) (next : c.queue = batch :: queue)
    (early : batch ∈ s.history.take k) :
    Follows repo server mode tables { s with
      session := some (pod, { c with queue })
      applied
      acks := s.acks ++ [ackOf batch] } k := by
  obtain ⟨live, mark, _, covers⟩ := follows.front (ok.session pod c here) here next
  refine { follows with acks := fun a mem => ?_, session := fun pod' c' same live' read b late => ?_ }
  · rcases List.mem_append.mp mem with mem | mem
    · exact follows.acks a mem
    · rw [List.mem_singleton.mp mem]
      exact ⟨batch, early, rfl⟩
  · cases same
    cases mark.symm.trans read
    rcases List.mem_cons.mp (covers b late) with rfl | behind
    · exact absurd late (ok.log.not_mem_drop early)
    · exact behind

/-- The next batch inserted takes the receiver one further. -/
theorem follows_next (here : s.session = some (pod, c)) (next : c.queue = batch :: queue)
    {others : List OutboxBatch} (rest : s.history.drop k = batch :: others)
    (handled : applyBatch repo server mode (kind batch) (received batch) s.store = .ok store) :
    Follows repo server mode tables { s with
      session := some (pod, { c with queue })
      store
      applied
      acks := s.acks ++ [ackOf batch] } (k + 1) := by
  obtain ⟨live, mark, _, covers⟩ := follows.front (ok.session pod c here) here next
  obtain ⟨within, more, fewer⟩ := Chunks.take_drop_of_drop_eq_cons rest
  have newest : batch ∈ s.history.take (k + 1) := by
    rw [more]
    exact List.mem_append_right _ List.mem_cons_self
  have older : ∀ b ∈ s.history.take k, b ∈ s.history.take (k + 1) := by
    intro b mem
    rw [more]
    exact List.mem_append_left _ mem
  have younger : ∀ b ∈ s.history.drop (k + 1), b ∈ s.history.drop k := by
    intro b mem
    rw [rest, ← fewer]
    exact List.mem_cons_of_mem _ mem
  constructor
  · exact within
  · change deliver repo server mode ((s.history.take (k + 1)).map delivery) _ = .ok store
    rw [more, List.map_append]
    exact deliver_append.mpr ⟨s.store, follows.store, Fallible.bind_eq_ok.mpr ⟨store, handled, rfl⟩⟩
  · exact fun b mem => follows.pending b (younger b mem)
  · intro a mem
    rcases List.mem_append.mp mem with mem | mem
    · obtain ⟨b, early, last⟩ := follows.acks a mem
      exact ⟨b, older b early, last⟩
    · rw [List.mem_singleton.mp mem]
      exact ⟨batch, newest, rfl⟩
  · exact fun b mem => older b (follows.acked b mem)
  · intro pod' c' same live' read b mem
    cases same
    cases mark.symm.trans read
    rcases List.mem_cons.mp (covers b (younger b mem)) with rfl | behind
    · exact absurd mem (ok.log.not_mem_drop newest)
    · exact behind

theorem follows_receive (here : s.session = some (pod, c)) (next : c.queue = batch :: queue)
    (handled : handleBatch repo server mode batch s.store = .ok store) :
    ∃ k', Follows repo server mode tables { s with
      session := some (pod, { c with queue })
      store
      applied
      acks := s.acks ++ [ackOf batch] } k' := by
  rw [handleBatch_eq] at handled
  obtain ⟨live, _, inOrder, covers⟩ := follows.front (ok.session pod c here) here next
  have inHistory : batch ∈ s.history := inOrder.subset List.mem_cons_self
  rw [← List.take_append_drop k s.history] at inHistory
  rcases List.mem_append.mp inHistory with early | late
  · rw [applyBatch_again ok.log follows early] at handled
    cases handled
    exact ⟨k, follows_again ok follows here next early⟩
  · obtain ⟨others, rest⟩ := drop_eq_cons_of_first ok.log inOrder covers late
    exact ⟨k + 1, follows_next ok follows here next rest handled⟩

/-- An ack only deletes a batch that was applied. -/
theorem follows_ack {index : Nat} {table lastEventID : String}
    (found : s.acks[index]? = some (table, lastEventID)) :
    Follows repo server mode tables { s with
      rows := ackPending s.rows peerRegion table lastEventID
      acked := s.acked ++ s.rows.filter fun b =>
        b ∉ ackPending s.rows peerRegion table lastEventID
      acks := s.acks.eraseIdx index } k := by
  have log := ok.log
  obtain ⟨acked, early, last⟩ := follows.acks _ (List.mem_of_getElem? found)
  have deleted : ∀ b ∈ s.rows, b ∉ ackPending s.rows peerRegion table lastEventID → b = acked :=
    fun _ => log.eq_of_deleted (List.mem_of_mem_take early) last
  have kept : ∀ b ∈ s.history.drop k, b ∈ s.rows →
      b ∈ ackPending s.rows peerRegion table lastEventID := by
    intro b late mem
    by_contra gone
    rw [deleted b mem gone] at late
    exact log.not_mem_drop early late
  refine { follows with
    pending := fun b late => kept b late (follows.pending b late)
    acks := fun a mem => follows.acks a (List.mem_of_mem_eraseIdx mem)
    acked := fun b mem => ?_
    session := fun pod c here live mark b late => ?_ }
  · rcases List.mem_append.mp mem with mem | mem
    · exact follows.acked b mem
    · obtain ⟨inRows, gone⟩ := List.mem_filter.mp mem
      rw [deleted b inRows (of_decide_eq_true gone)]
      exact early
  · exact Consume.mem_pipeline_of_kept (follows.session pod c here live mark b late) (kept b late)

theorem follows_consume {c' : Consume} (here : s.session = some (pod, c))
    (taken : c.advance s.clock s.rows = some c') :
    Follows repo server mode tables { s with session := some (pod, c') } k := by
  refine { follows with session := fun pod' d same live mark b late => ?_ }
  cases same
  obtain ⟨_, pipeline⟩ := (ok.session pod c here).toTracks.advance ok.log.toRecorded taken
  change b ∈ c'.pipeline live s.rows s.unpublished
  rcases pipeline live mark with whole | ⟨before, same⟩
  · rw [whole]
    exact follows.pending b late
  · rw [same]
    exact follows.session pod c here live before b late

theorem follows_publish (mem : (pod, batch) ∈ s.waiting) (inTime : reachesLive s pod batch = true) :
    Follows repo server mode tables { s with
      waiting := s.waiting.filter (·.2.id ≠ batch.id)
      session := s.session.map fun (serving, c) =>
        (serving, if serving = pod then c.publish batch else c) } k := by
  refine { follows with session := fun serving c' eq live read b late => ?_ }
  obtain ⟨⟨serving', c⟩, here, published⟩ := Option.map_eq_some_iff.mp eq
  cases published
  have mark : c.watermark = some live := (watermark_published c batch serving pod).symm.trans read
  have session := ok.session serving c here
  change b ∈ Consume.pipeline _ live s.rows ((s.waiting.filter (·.2.id ≠ batch.id)).map (·.2))
  rw [publish_keeps_pipeline ok.log session.peer mem mark (reachesLive_spec inTime here mark)]
  exact follows.session serving c here live mark b late

theorem follows_enqueue (peer : batch.peerRegion = peerRegion)
    (ordered : inOrder s (.enqueue pod batch) = true) (arrives : noGap s (.enqueue pod batch) = true) :
    Follows repo server mode tables (s.insert pod (batch.stamped s.nextID s.clock)) k := by
  have inserts := inserts_stamped peer ordered arrives
  have early : (s.insert pod (batch.stamped s.nextID s.clock)).history.take k = s.history.take k :=
    List.take_append_of_le_length follows.bound
  have late : (s.insert pod (batch.stamped s.nextID s.clock)).history.drop k =
      s.history.drop k ++ [batch.stamped s.nextID s.clock] :=
    List.drop_append_of_le_length follows.bound
  constructor
  · refine follows.bound.trans ?_
    simp [State.insert]
  · rw [early]
    exact follows.store
  · intro b mem
    rw [late] at mem
    rcases List.mem_append.mp mem with mem | mem
    · exact List.mem_append_left _ (follows.pending b mem)
    · exact List.mem_append_right _ mem
  · rw [early]
    exact follows.acks
  · rw [early]
    exact follows.acked
  · intro pod' c here live mark b mem
    have session := ok.session pod' c here
    have delivers : c.willDeliver (batch.stamped s.nextID s.clock) = true := by
      have all := (Bool.and_eq_true_iff.mp arrives).1
      rw [show s.session = some (pod', c) from here] at all
      exact all
    rw [session.toTracks.pipeline_insert ok.log.toRecorded inserts delivers mark pod]
    rw [late] at mem
    rcases List.mem_append.mp mem with mem | mem
    · exact List.mem_append_left _ (follows.session pod' c here live mark b mem)
    · exact List.mem_append_right _ mem

/-- The receiver follows the log through every step. -/
theorem follows_moves {action : Action} (ordered : inOrder s action = true)
    (inTime : noGap s action = true) (moves : Moves repo server mode peerRegion s action t) :
    ∃ k', Follows repo server mode tables t k' := by
  cases moves with
  | tick | skipID | conflict => exact ⟨k, { follows with }⟩
  | connect => exact ⟨k, { follows with session := by rintro _ _ ⟨⟩ live ⟨⟩ }⟩
  | refuse | disconnect => exact ⟨k, { follows with session := nofun }⟩
  | enqueue pod batch peer _ => exact ⟨k, follows_enqueue ok follows peer ordered inTime⟩
  | publish pod batch found =>
    rw [noGap, found] at inTime
    exact ⟨k, follows_publish ok follows (List.mem_of_find?_eq_some found) inTime⟩
  | consume here taken => exact ⟨k, follows_consume ok follows here taken⟩
  | receive here next handled => exact follows_receive ok follows here next handled
  | ack index table lastEventID found => exact ⟨k, follows_ack ok follows found⟩

end Steps

theorem follows_run {actions : List Action}
    (ordered : Machine.Meets (step repo server mode peerRegion) (inOrder · ·) (initial tables) actions)
    (inTime : Machine.Meets (step repo server mode peerRegion) (noGap · ·) (initial tables) actions)
    (ran : Machine.run (step repo server mode peerRegion) (initial tables) actions = some s) :
    ∃ k, Follows repo server mode tables s k := by
  have both : Ok mode peerRegion s ∧ ∃ k, Follows repo server mode tables s k := by
    apply Machine.invariant _ _ (ordered.and inTime) ran
    · rintro s action t ⟨ok, k, follows⟩ meets taken
      exact ⟨step_ok ok meets.1 meets.2 taken,
        follows_moves ok follows meets.1 meets.2 (step_moves taken)⟩
    · exact ⟨ok_initial tables, 0, follows_initial⟩
  exact both.2

end Proofs

/-- In every interleaving in which live batches reach the open session, the receiver's tables and
cursors are those of handing it the first batches inserted, once each and in the order of insertion;
whatever was acked is among them, and whatever is not is still a row of the outbox. -/
theorem receiver_follows_log {V : Type} [DecidableEq V] {repo : Repository} {server : Server V}
    {mode : ReplicationApplyMode} {peerRegion : String} {tables : Tables V} {actions : List Action}
    {s : State V}
    (ordered : Machine.Meets (step repo server mode peerRegion) (inOrder · ·) (initial tables) actions)
    (inTime : Machine.Meets (step repo server mode peerRegion) (noGap · ·) (initial tables) actions)
    (ran : Machine.run (step repo server mode peerRegion) (initial tables) actions = some s) :
    ∃ applied later, s.history = applied ++ later ∧
      deliver repo server mode (applied.map delivery) ⟨tables, fun _ _ => none⟩ = .ok s.store ∧
      (∀ b ∈ s.acked, b ∈ applied) ∧ ∀ b ∈ later, b ∈ s.rows := by
  obtain ⟨k, follows⟩ := follows_run ordered inTime ran
  exact ⟨s.history.take k, s.history.drop k, (List.take_append_drop k s.history).symm, follows.store,
    follows.acked, follows.pending⟩

/-- A batch is applied, delivered again by a second session before its ack arrives, and acked twice;
a later one is forwarded live. -/
def deliveredTwice : List Action :=
  [.enqueue 0 (userBatch "a" 1), .publish 1] ++ opening 0 ++ [.receive, .disconnect] ++ opening 0 ++
    [.consume, .tick, .enqueue 0 (userBatch "b" 2), .publish 2, .consume, .receive, .receive, .ack 0]

theorem receiver_follows_log_users :
    ∃ s, Machine.run (step usersRepository usersServer .fullSync "us") (initial (Store.empty String).tables)
        deliveredTwice = some s ∧
      s.acks.map (·.2) = ["a", "b"] ∧ s.acked.map (·.lastEventID) = ["a"] ∧
      ∃ applied later, s.history = applied ++ later ∧
        deliver usersRepository usersServer .fullSync (applied.map delivery)
          ⟨(Store.empty String).tables, fun _ _ => none⟩ = .ok s.store ∧
        (∀ b ∈ s.acked, b ∈ applied) ∧ ∀ b ∈ later, b ∈ s.rows := by
  have ran : Machine.run (step usersRepository usersServer .fullSync "us")
      (initial (Store.empty String).tables) deliveredTwice = some _ := rfl
  exact ⟨_, ran, by decide, by decide, receiver_follows_log (by decide) (by decide) ran⟩

end Transmogr.OutboxProtocol
