import Mathlib.Data.List.Pairwise
import Transmogr.Chunks
import Transmogr.Outbox

/-! What a session that has read its live watermark still delivers: its send
queue, the rows its replay windows still hold, and the live batches stamped
after the watermark. -/
namespace Transmogr

/-- The rows of one peer in the order they were inserted up to time `now`. -/
structure Chronicle (peerRegion : String) (now : Nat) (rows : List OutboxBatch) : Prop where
  peer : ∀ b ∈ rows, b.peerRegion = peerRegion
  ids : rows.Pairwise (·.id < ·.id)
  times : rows.Pairwise (·.createdAt ≤ ·.createdAt)
  stamps : ∀ b ∈ rows, 0 < b.id ∧ 0 < b.createdAt ∧ b.createdAt ≤ now

namespace Chronicle

variable {peerRegion : String} {now : Nat} {rows rows' : List OutboxBatch}

theorem sublist (h : Chronicle peerRegion now rows) (sub : rows'.Sublist rows) :
    Chronicle peerRegion now rows' where
  peer b mem := h.peer b (sub.subset mem)
  ids := h.ids.sublist sub
  times := h.times.sublist sub
  stamps b mem := h.stamps b (sub.subset mem)

theorem later (h : Chronicle peerRegion now rows) {now' : Nat} (le : now ≤ now') :
    Chronicle peerRegion now' rows where
  peer := h.peer
  ids := h.ids
  times := h.times
  stamps b mem := by
    obtain ⟨id, positive, bound⟩ := h.stamps b mem
    exact ⟨id, positive, bound.trans le⟩

theorem eq_of_id (h : Chronicle peerRegion now rows) {a b : OutboxBatch} (memA : a ∈ rows)
    (memB : b ∈ rows) (same : a.id = b.id) : a = b := by
  have differ : rows.Pairwise (·.id ≠ ·.id) := h.ids.imp Nat.ne_of_lt
  have : Std.Symm fun a b : OutboxBatch => a.id ≠ b.id := ⟨fun _ _ => Ne.symm⟩
  by_contra ne
  exact differ.forall memA memB ne same

theorem snoc (h : Chronicle peerRegion now rows) {b : OutboxBatch} (peer : b.peerRegion = peerRegion)
    (id : ∀ a ∈ rows, a.id < b.id) (time : ∀ a ∈ rows, a.createdAt ≤ b.createdAt)
    (stamp : 0 < b.id ∧ 0 < b.createdAt ∧ b.createdAt ≤ now) :
    Chronicle peerRegion now (rows ++ [b]) where
  peer a mem := by
    rcases List.mem_append.mp mem with mem | mem
    · exact h.peer a mem
    · rwa [List.mem_singleton.mp mem]
  ids := List.pairwise_append.mpr ⟨h.ids, List.pairwise_singleton _ _, by simpa using id⟩
  times := List.pairwise_append.mpr ⟨h.times, List.pairwise_singleton _ _, by simpa using time⟩
  stamps a mem := by
    rcases List.mem_append.mp mem with mem | mem
    · exact h.stamps a mem
    · rwa [List.mem_singleton.mp mem]

end Chronicle

/-- The rows the replay windows still hold: the first after an id, the others
from their start. -/
def pendings (rows : List OutboxBatch) (peerRegion : String) :
    List (Nat × Nat) → Nat → List OutboxBatch
  | [], _ => []
  | window :: windows, afterID =>
    pendingWindow rows peerRegion window afterID ++ pendings rows peerRegion windows 0

/-- Windows in order, each with an upper bound up to the live watermark. -/
structure WindowsOk (live : Nat) (windows : List (Nat × Nat)) : Prop where
  ordered : windows.Pairwise (·.2 ≤ ·.1)
  bounded : ∀ w ∈ windows, 0 < w.2 ∧ w.2 ≤ live

section Windows

variable {peerRegion : String} {now live : Nat} {rows rows' : List OutboxBatch} {b : OutboxBatch}
  {windows : List (Nat × Nat)} {afterID : Nat}

theorem mem_pendingWindow {window : Nat × Nat} : b ∈ pendingWindow rows peerRegion window afterID ↔
    b ∈ rows ∧ b.peerRegion = peerRegion ∧ afterID < b.id ∧ inWindow window b = true := by
  simp [pendingWindow]

theorem pendings_sublist (sub : rows'.Sublist rows) :
    (pendings rows' peerRegion windows afterID).Sublist (pendings rows peerRegion windows afterID) := by
  induction windows generalizing afterID with
  | nil => exact .slnil
  | cons window windows ih => exact (sub.filter _).append ih

theorem mem_pendings (mem : b ∈ pendings rows peerRegion windows afterID) : b ∈ rows := by
  induction windows generalizing afterID with
  | nil => cases mem
  | cons window windows ih =>
    rcases List.mem_append.mp mem with mem | mem
    · exact (mem_pendingWindow.mp mem).1
    · exact ih mem

/-- A row that stays is still held by the windows that held it. -/
theorem mem_pendings_of_mem (mem : b ∈ pendings rows peerRegion windows afterID) (kept : b ∈ rows') :
    b ∈ pendings rows' peerRegion windows afterID := by
  induction windows generalizing afterID with
  | nil => cases mem
  | cons window windows ih =>
    rcases List.mem_append.mp mem with mem | mem
    · exact List.mem_append_left _ (mem_pendingWindow.mpr ⟨kept, (mem_pendingWindow.mp mem).2⟩)
    · exact List.mem_append_right _ (ih mem)

/-- Windows that start after every row are empty. -/
theorem pendings_eq_nil {bound : Nat} (positive : 0 < bound)
    (rowsUpTo : ∀ a ∈ rows, a.createdAt ≤ bound) (after : ∀ w ∈ windows, bound ≤ w.1) :
    pendings rows peerRegion windows afterID = [] := by
  apply List.eq_nil_iff_forall_not_mem.mpr
  intro a mem
  induction windows generalizing afterID with
  | nil => cases mem
  | cons window windows ih =>
    rcases List.mem_append.mp mem with mem | mem
    · obtain ⟨inRows, _, _, within⟩ := mem_pendingWindow.mp mem
      have := rowsUpTo a inRows
      have := after window List.mem_cons_self
      simp only [inWindow, decide_eq_true_eq] at within
      omega
    · exact ih (fun w memW => after w (List.mem_cons_of_mem _ memW)) mem

theorem pendingWindow_append {window : Nat × Nat} (peer : b.peerRegion = peerRegion)
    (id : afterID < b.id) : pendingWindow (rows ++ [b]) peerRegion window afterID =
      pendingWindow rows peerRegion window afterID ++ if inWindow window b then [b] else [] := by
  simp [pendingWindow, List.filter_append, List.filter_singleton, peer, id]

/-- A new row that the windows hold is the last one they hold. -/
theorem pendings_append (ok : WindowsOk live windows) (peer : b.peerRegion = peerRegion)
    (id : afterID < b.id) (time : ∀ a ∈ rows, a.createdAt ≤ b.createdAt)
    (held : ∃ w ∈ windows, inWindow w b = true) :
    pendings (rows ++ [b]) peerRegion windows afterID =
      pendings rows peerRegion windows afterID ++ [b] := by
  induction windows generalizing afterID with
  | nil => obtain ⟨w, mem, _⟩ := held; cases mem
  | cons window windows ih =>
    obtain ⟨first, rest⟩ := List.pairwise_cons.mp ok.ordered
    rw [pendings, pendings, pendingWindow_append peer id]
    by_cases here : inWindow window b = true
    · have upTo : ∀ a ∈ rows ++ [b], a.createdAt ≤ window.2 := by
        have bound := (ok.bounded window List.mem_cons_self).1
        simp only [inWindow, decide_eq_true_eq] at here
        intro a mem
        rcases List.mem_append.mp mem with mem | mem
        · have := time a mem
          omega
        · rw [List.mem_singleton.mp mem]
          omega
      have positive := (ok.bounded window List.mem_cons_self).1
      rw [pendings_eq_nil positive upTo first,
        pendings_eq_nil positive (fun a mem => upTo a (List.mem_append_left _ mem)) first]
      simp [here]
    · have later : ∃ w ∈ windows, inWindow w b = true := by
        obtain ⟨w, mem, within⟩ := held
        rcases List.mem_cons.mp mem with rfl | mem
        · exact absurd within here
        · exact ⟨w, mem, within⟩
      have okRest : WindowsOk live windows :=
        ⟨rest, fun w mem => ok.bounded w (List.mem_cons_of_mem _ mem)⟩
      rw [ih okRest (Nat.zero_lt_of_lt id) later]
      simp [here]

/-- A new row stamped after the live watermark is in no window. -/
theorem pendings_append_of_live_lt (ok : WindowsOk live windows) (peer : b.peerRegion = peerRegion)
    (id : afterID < b.id) (after : live < b.createdAt) :
    pendings (rows ++ [b]) peerRegion windows afterID = pendings rows peerRegion windows afterID := by
  induction windows generalizing afterID with
  | nil => rfl
  | cons window windows ih =>
    have okRest : WindowsOk live windows := ⟨(List.pairwise_cons.mp ok.ordered).2,
      fun w mem => ok.bounded w (List.mem_cons_of_mem _ mem)⟩
    have outside : ¬ inWindow window b = true := by
      have bound := ok.bounded window List.mem_cons_self
      simp only [inWindow, decide_eq_true_eq]
      omega
    rw [pendings, pendings, pendingWindow_append peer id, ih okRest (Nat.zero_lt_of_lt id)]
    simp [outside]

/-- One page of a window is the front of what the window holds. -/
theorem listPendingWindow_eq {window : Nat × Nat} (h : Chronicle peerRegion now rows) :
    listPendingWindow rows peerRegion window afterID replayPendingPageSize =
      (pendingWindow rows peerRegion window afterID).take replayPendingPageSize := by
  have sorted : (pendingWindow rows peerRegion window afterID).Pairwise (·.id ≤ ·.id) :=
    (h.ids.sublist List.filter_sublist).imp Nat.le_of_lt
  rw [listPendingWindow, sorted.insertionSort_eq]
  rfl

/-- After a page the window holds what the page left out. -/
theorem pendingWindow_after_page {window : Nat × Nat} {last : OutboxBatch}
    (h : Chronicle peerRegion now rows)
    (page : ((pendingWindow rows peerRegion window afterID).take replayPendingPageSize).getLast? =
      some last) :
    pendingWindow rows peerRegion window last.id =
      (pendingWindow rows peerRegion window afterID).drop replayPendingPageSize := by
  have inside : last ∈ pendingWindow rows peerRegion window afterID :=
    List.mem_of_mem_take (List.mem_of_getLast? page)
  have above := (mem_pendingWindow.mp inside).2.2.1
  have ids : (pendingWindow rows peerRegion window afterID).Pairwise (·.id < ·.id) :=
    h.ids.sublist List.filter_sublist
  rw [← Chunks.filter_lt_last_take ids page, pendingWindow, pendingWindow, List.filter_filter]
  refine List.filter_congr fun a _ => ?_
  rw [← Bool.decide_and]
  refine decide_eq_decide.mpr ?_
  constructor
  · rintro ⟨peer, id, within⟩
    exact ⟨id, peer, above.trans id, within⟩
  · rintro ⟨id, peer, _, within⟩
    exact ⟨peer, id, within⟩

theorem pendingWindow_whole (h : Chronicle peerRegion now rows) :
    pendingWindow rows peerRegion (0, now) 0 = rows := by
  refine List.filter_eq_self.mpr fun b mem => decide_eq_true ⟨h.peer b mem, (h.stamps b mem).1, ?_⟩
  simp [inWindow, (h.stamps b mem).2.2]

theorem pendingWindow_split {bound : Nat} (h : Chronicle peerRegion now rows) (positive : 0 < bound)
    (clock : 0 < now) : pendingWindow rows peerRegion (0, bound) 0 ++
      pendingWindow rows peerRegion (bound, now) 0 = rows := by
  have low : pendingWindow rows peerRegion (0, bound) 0 = rows.filter (·.createdAt ≤ bound) := by
    refine List.filter_congr fun b mem => decide_eq_decide.mpr ?_
    simp only [h.peer b mem, (h.stamps b mem).1, inWindow, decide_eq_true_eq, true_and, true_or]
    omega
  have high : pendingWindow rows peerRegion (bound, now) 0 = rows.filter (bound < ·.createdAt) := by
    refine List.filter_congr fun b mem => decide_eq_decide.mpr ?_
    have := (h.stamps b mem).2.2
    simp only [h.peer b mem, (h.stamps b mem).1, inWindow, decide_eq_true_eq, true_and]
    omega
  rw [low, high]
  exact Chunks.filter_le_append_filter_lt bound h.times

end Windows

namespace Consume

/-- The live watermark, once it is read. -/
def watermark (c : Consume) : Option Nat :=
  match c.stage with
  | .replaying _ _ live | .forwarding live => some live
  | _ => none

def remaining (c : Consume) (rows : List OutboxBatch) : List OutboxBatch :=
  match c.stage with
  | .replaying windows afterID _ => pendings rows c.peerRegion windows afterID
  | _ => []

/-- What the session delivers from here on, in order; `waiting` are the inserted
batches whose `publishLive` has not run. -/
def pipeline (c : Consume) (live : Nat) (rows waiting : List OutboxBatch) : List OutboxBatch :=
  c.queue ++ c.remaining rows ++ (c.channel ++ waiting).filter (live < ·.createdAt)

/-- A row inserted now still reaches the session: the live watermark is not read
yet, the row is stamped after it, or an unfinished window holds the row. -/
def willDeliver (c : Consume) (batch : OutboxBatch) : Bool :=
  match c.stage with
  | .replaying windows _ live => live < batch.createdAt || windows.any (inWindow · batch)
  | .forwarding live => live < batch.createdAt
  | _ => true

/-- The windows of a replaying session are in order, and it has read no id that
is still to be given. -/
def ReplayOk (c : Consume) (nextID : Nat) : Prop :=
  match c.stage with
  | .replaying windows afterID live => WindowsOk live windows ∧ afterID < nextID
  | _ => True

/-- Before the live watermark is read nothing is queued, and the snapshot
watermark is a time already passed. -/
def EarlyOk (c : Consume) (now : Nat) : Prop :=
  c.queue = [] ∧ ∀ w, c.stage = .snapshotted w ∨ c.stage = .subscribed w →
    c.snapshotRequested = true → 0 < w ∧ w ≤ now

theorem EarlyOk.later {c : Consume} {now now' : Nat} (ok : c.EarlyOk now) (le : now ≤ now') :
    c.EarlyOk now' := by
  obtain ⟨queue, snapshot⟩ := ok
  refine ⟨queue, fun w stage requested => ?_⟩
  have read := snapshot w stage requested
  exact ⟨read.1, read.2.trans le⟩

theorem ReplayOk.mono {c : Consume} {m n : Nat} (ok : c.ReplayOk m) (le : m ≤ n) : c.ReplayOk n := by
  unfold ReplayOk at ok ⊢
  split
  · next windows afterID live stage =>
    rw [stage] at ok
    exact ⟨ok.1, ok.2.trans_le le⟩
  · trivial

theorem isSubscribed_of_watermark {c : Consume} {live : Nat} (mark : c.watermark = some live) :
    c.isSubscribed = true := by
  unfold watermark at mark
  unfold isSubscribed
  cases stage : c.stage <;> simp_all

@[simp] theorem publish_watermark (c : Consume) (batch : OutboxBatch) :
    (c.publish batch).watermark = c.watermark := by
  unfold watermark
  rw [publish_stage]

@[simp] theorem publish_remaining (c : Consume) (batch : OutboxBatch) (rows : List OutboxBatch) :
    (c.publish batch).remaining rows = c.remaining rows := by
  unfold remaining
  rw [publish_stage, publish_peerRegion]

theorem publish_replayOk {c : Consume} {batch : OutboxBatch} {nextID : Nat} (ok : c.ReplayOk nextID) :
    (c.publish batch).ReplayOk nextID := by
  unfold ReplayOk
  rw [publish_stage]
  exact ok

theorem mem_publish_channel {c : Consume} {batch b : OutboxBatch}
    (mem : b ∈ (c.publish batch).channel) : b ∈ c.channel ∨ b = batch := by
  unfold publish at mem
  split at mem
  · simpa using mem
  · exact .inl mem

section Steps

variable {c c' : Consume} {now live nextID : Nat} {rows waiting : List OutboxBatch}

/-- Once the watermark is read, no step of the session changes what it delivers. -/
theorem pipeline_advance (h : Chronicle c.peerRegion now rows) (mark : c.watermark = some live)
    (ok : c.ReplayOk nextID) (ids : ∀ b ∈ rows, b.id < nextID)
    (taken : c.advance now rows = some c') (times : ∀ b ∈ c.channel, 0 < b.createdAt) :
    c'.peerRegion = c.peerRegion ∧ c'.watermark = some live ∧ c'.ReplayOk nextID ∧
      c'.pipeline live rows waiting = c.pipeline live rows waiting := by
  obtain ⟨peer, requested, stage, channel, queue⟩ := c
  cases stage with
  | opened | snapshotted | subscribed => cases mark
  | replaying windows afterID live' =>
    cases mark
    cases windows with
    | nil =>
      cases taken
      exact ⟨rfl, rfl, trivial, rfl⟩
    | cons window windows =>
      obtain ⟨windowsOk, afterOk⟩ := ok
      have later : WindowsOk live windows := ⟨(List.pairwise_cons.mp windowsOk.ordered).2,
        fun w mem => windowsOk.bounded w (List.mem_cons_of_mem _ mem)⟩
      simp only [advance, listPendingWindow_eq h] at taken
      split at taken
      · next none =>
        cases taken
        have drained : pendingWindow rows peer window afterID = [] := by
          simpa [replayPendingPageSize] using none
        refine ⟨rfl, rfl, ⟨later, Nat.zero_lt_of_lt afterOk⟩, ?_⟩
        simp [pipeline, remaining, pendings, drained]
      · next last page =>
        cases taken
        have inside : last ∈ rows :=
          (mem_pendingWindow.mp (List.mem_of_mem_take (List.mem_of_getLast? page))).1
        refine ⟨rfl, rfl, ⟨windowsOk, ids last inside⟩, ?_⟩
        simp only [pipeline, remaining, pendings, pendingWindow_after_page h page]
        rw [List.append_assoc queue, ← List.append_assoc (List.take _ _), List.take_append_drop]
  | forwarding live' =>
    cases mark
    cases channel with
    | nil => cases taken
    | cons batch channel =>
      have positive := times batch List.mem_cons_self
      simp only [advance] at taken
      split at taken
      · next old =>
        cases taken
        refine ⟨rfl, rfl, trivial, ?_⟩
        simp [pipeline, remaining, Nat.not_lt.mpr old.2]
      · next new =>
        cases taken
        have after : live < batch.createdAt := by omega
        refine ⟨rfl, rfl, trivial, ?_⟩
        simp [pipeline, remaining, after]

/-- Reading the live watermark puts every row into the pipeline. -/
theorem pipeline_start {snapshotWatermark : Nat} (h : Chronicle c.peerRegion now rows)
    (clock : 0 < now) (stage : c.stage = .subscribed snapshotWatermark) (queue : c.queue = [])
    (snapshot : c.snapshotRequested = true → 0 < snapshotWatermark ∧ snapshotWatermark ≤ now)
    (seen : ∀ b ∈ c.channel ++ waiting, b.createdAt ≤ now)
    (positive : 0 < nextID) (taken : c.advance now rows = some c') :
    c'.peerRegion = c.peerRegion ∧ c'.watermark = some now ∧ c'.ReplayOk nextID ∧
      c'.pipeline now rows waiting = rows := by
  obtain ⟨peer, requested, _, channel, _⟩ := c
  cases stage
  cases queue
  cases taken
  have live : (channel ++ waiting).filter (now < ·.createdAt) = [] := by
    refine List.filter_eq_nil_iff.mpr fun b mem => ?_
    have := seen b mem
    simpa using this
  cases requested with
  | false =>
    refine ⟨rfl, rfl, ⟨⟨List.pairwise_singleton _ _, by simpa [windows] using clock⟩, positive⟩, ?_⟩
    simp [pipeline, remaining, windows, pendings, live, pendingWindow_whole h]
  | true =>
    obtain ⟨snapshotPos, snapshotLe⟩ := snapshot rfl
    refine ⟨rfl, rfl, ⟨⟨by simp [windows], ?_⟩, positive⟩, ?_⟩
    · simp only [windows, if_true, List.mem_cons, List.not_mem_nil, or_false]
      rintro w (rfl | rfl)
      · exact ⟨snapshotPos, snapshotLe⟩
      · exact ⟨clock, Nat.le_refl _⟩
    · simp [pipeline, remaining, windows, pendings, live, pendingWindow_split h snapshotPos clock]

/-- A new row that still reaches the session goes to the end of the pipeline. -/
theorem pipeline_insert {b : OutboxBatch} (peer : b.peerRegion = c.peerRegion)
    (mark : c.watermark = some live) (ok : c.ReplayOk b.id)
    (rowTimes : ∀ a ∈ rows, a.createdAt ≤ b.createdAt)
    (times : ∀ a ∈ c.channel ++ waiting, a.createdAt ≤ b.createdAt)
    (inTime : c.willDeliver b = true) :
    c.pipeline live (rows ++ [b]) (waiting ++ [b]) = c.pipeline live rows waiting ++ [b] := by
  obtain ⟨region, requested, stage, channel, queue⟩ := c
  by_cases after : live < b.createdAt
  · have same : remaining ⟨region, requested, stage, channel, queue⟩ (rows ++ [b]) =
        remaining ⟨region, requested, stage, channel, queue⟩ rows := by
      cases stage with
      | replaying windows afterID live' =>
        cases mark
        exact pendings_append_of_live_lt ok.1 peer ok.2 after
      | _ => rfl
    simp [pipeline, same, after]
  · obtain ⟨windows, afterID, rfl, held⟩ : ∃ windows afterID, stage = .replaying windows afterID live ∧
        ∃ w ∈ windows, inWindow w b = true := by
      cases stage with
      | opened | snapshotted | subscribed => cases mark
      | replaying windows afterID live' =>
        cases mark
        simp only [willDeliver, after, decide_false, Bool.false_or, List.any_eq_true] at inTime
        exact ⟨windows, afterID, rfl, inTime⟩
      | forwarding live' =>
        cases mark
        exact absurd (of_decide_eq_true inTime) after
    have none : ∀ extra : List OutboxBatch, (∀ a ∈ extra, a.createdAt ≤ b.createdAt) →
        extra.filter (live < ·.createdAt) = [] := by
      intro extra bound
      refine List.filter_eq_nil_iff.mpr fun a mem => ?_
      have := bound a mem
      simp only [decide_eq_true_eq]
      omega
    have whole : ∀ a ∈ channel ++ (waiting ++ [b]), a.createdAt ≤ b.createdAt := by
      intro a mem
      rw [← List.append_assoc] at mem
      rcases List.mem_append.mp mem with mem | mem
      · exact times a mem
      · rw [List.mem_singleton.mp mem]
    simp only [pipeline, remaining, none _ whole, none _ times, List.append_nil,
      pendings_append ok.1 peer ok.2 rowTimes held, List.append_assoc]

/-- Publishing the oldest waiting batch to the session's channel only moves it
inside the pipeline. -/
theorem pipeline_publish {b : OutboxBatch} (peer : b.peerRegion = c.peerRegion)
    (mark : c.watermark = some live) (room : c.channel.length < liveReplicationBufferSize) :
    (c.publish b).pipeline live rows waiting = c.pipeline live rows (b :: waiting) := by
  have sent : (c.publish b).channel = c.channel ++ [b] := by
    rw [publish, if_pos ⟨peer, isSubscribed_of_watermark mark, room⟩]
  simp [pipeline, sent]

/-- A step of the session keeps its pipeline, or reads the watermark and puts
every row into it. -/
theorem advance_session (h : Chronicle c.peerRegion now rows) (clock : 0 < now)
    (stamps : ∀ b ∈ c.channel ++ waiting, 0 < b.createdAt ∧ b.createdAt ≤ now)
    (ids : ∀ b ∈ rows, b.id < nextID) (positive : 0 < nextID)
    (early : c.watermark = none → c.EarlyOk now) (ok : c.ReplayOk nextID)
    (taken : c.advance now rows = some c') :
    (c'.watermark = none → c'.EarlyOk now) ∧ c'.ReplayOk nextID ∧
      ∀ live, c'.watermark = some live →
        c'.pipeline live rows waiting = rows ∨
        c.watermark = some live ∧ c'.pipeline live rows waiting = c.pipeline live rows waiting := by
  cases mark : c.watermark with
  | some live =>
    obtain ⟨_, read, replay, same⟩ := pipeline_advance h mark ok ids taken
      fun b mem => (stamps b (List.mem_append_left _ mem)).1
    refine ⟨fun none => (nomatch read.symm.trans none), replay, fun live' eq => ?_⟩
    cases read.symm.trans eq
    exact .inr ⟨rfl, same⟩
  | none =>
    obtain ⟨queue, snapshot⟩ := early mark
    cases stage : c.stage with
    | replaying windows afterID live => simp [watermark, stage] at mark
    | forwarding live => simp [watermark, stage] at mark
    | opened =>
      simp only [advance, stage] at taken
      cases taken
      refine ⟨fun _ => ⟨queue, fun w at_ isRequested => ?_⟩, trivial, nofun⟩
      have isRequested : c.snapshotRequested = true := isRequested
      have read : now = w := by simpa [isRequested] using at_
      exact ⟨read ▸ clock, read.ge⟩
    | snapshotted w =>
      simp only [advance, stage] at taken
      cases taken
      refine ⟨fun _ => ⟨queue, fun w' at_ isRequested => ?_⟩, trivial, nofun⟩
      have same : w = w' := by simpa using at_
      exact same ▸ snapshot w (.inl stage) isRequested
    | subscribed w =>
      obtain ⟨_, read, replay, whole⟩ := pipeline_start h clock stage queue
        (snapshot w (.inr stage)) (fun b mem => (stamps b mem).2) positive taken
      refine ⟨fun none => (nomatch read.symm.trans none), replay, fun live eq => ?_⟩
      cases read.symm.trans eq
      exact .inl whole

/-- Publishing a batch that the session replays does not change what it delivers. -/
theorem pipeline_publish_replayed {b : OutboxBatch} (replayed : b.createdAt ≤ live) :
    (c.publish b).pipeline live rows waiting = c.pipeline live rows waiting := by
  have dropped : ¬ live < b.createdAt := Nat.not_lt.mpr replayed
  have same : (c.publish b).channel.filter (live < ·.createdAt) =
      c.channel.filter (live < ·.createdAt) := by
    unfold publish
    split
    · simp [dropped]
    · rfl
  simp only [pipeline, publish_queue, publish_remaining, List.filter_append, same]

/-- Deleting rows only takes them out of the pipeline. -/
theorem pipeline_sublist {rows' : List OutboxBatch} (sub : rows'.Sublist rows) :
    (c.pipeline live rows' waiting).Sublist (c.pipeline live rows waiting) := by
  have held : (c.remaining rows').Sublist (c.remaining rows) := by
    unfold remaining
    split
    · exact pendings_sublist sub
    · exact .slnil
  exact (List.Sublist.append (.refl _) held).append (.refl _)

theorem mem_pipeline_of_kept {rows' : List OutboxBatch} {b : OutboxBatch}
    (mem : b ∈ c.pipeline live rows waiting) (kept : b ∈ rows → b ∈ rows') :
    b ∈ c.pipeline live rows' waiting := by
  rcases List.mem_append.mp mem with mem | mem
  · rcases List.mem_append.mp mem with mem | mem
    · exact List.mem_append_left _ (List.mem_append_left _ mem)
    · refine List.mem_append_left _ (List.mem_append_right _ ?_)
      unfold remaining at mem ⊢
      split at mem
      · exact mem_pendings_of_mem mem (kept (mem_pendings mem))
      · cases mem
  · exact List.mem_append_right _ mem

end Steps

end Consume

end Transmogr
