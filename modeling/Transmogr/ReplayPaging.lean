import Transmogr.Machine
import Transmogr.Paging
import Transmogr.Pipeline

/-! The pages of `replayPendingBatches`. Each page is a query of its own, and between the queries
batches are acknowledged and new ones are enqueued. -/
namespace Transmogr.ReplayPaging

/-- The rows of `outbound_batches`. Their ids are unique and come from a sequence that starts at 1. -/
structure Outbox where
  rows : List OutboxBatch
  distinct : rows.Pairwise (·.id ≠ ·.id)
  positive : ∀ batch ∈ rows, 0 < batch.id

namespace Outbox

def ack (outbox : Outbox) (peerRegion table lastEventID : String) : Outbox where
  rows := ackPending outbox.rows peerRegion table lastEventID
  distinct := outbox.distinct.filter _
  positive := fun batch mem => outbox.positive batch (List.mem_of_mem_filter mem)

/-- The batch has a larger id than the rows. -/
def Fresh (outbox : Outbox) (batch : OutboxBatch) : Prop :=
  0 < batch.id ∧ ∀ row ∈ outbox.rows, row.id < batch.id

instance (outbox : Outbox) (batch : OutboxBatch) : Decidable (outbox.Fresh batch) :=
  inferInstanceAs (Decidable (_ ∧ _))

theorem mem_insertPending {rows : List OutboxBatch} {batch b : OutboxBatch}
    (mem : b ∈ (insertPending rows batch).getD rows) : b ∈ rows ∨ b = batch := by
  unfold insertPending at mem
  split at mem
  · exact .inl mem
  · simpa using mem

def enqueue (outbox : Outbox) (batch : OutboxBatch) (fresh : outbox.Fresh batch) : Outbox where
  rows := (insertPending outbox.rows batch).getD outbox.rows
  distinct := by
    unfold insertPending
    split
    · exact outbox.distinct
    · refine List.pairwise_append.mpr ⟨outbox.distinct, List.pairwise_singleton _ _, ?_⟩
      intro row mem other new
      rw [List.mem_singleton.mp new]
      exact (fresh.2 row mem).ne
  positive := by
    intro b mem
    rcases mem_insertPending mem with mem | rfl
    · exact outbox.positive b mem
    · exact fresh.1

end Outbox

/-- How the loop returned: at an empty page, at the end of the context, or with an error. -/
inductive Ending where
  | drained
  | cancelled
  | failed (err : String)
  deriving DecidableEq

/-- One call of `replayPendingBatches`: the rest of the page in hand, and what it put on the send
queue. -/
structure Replay where
  outbox : Outbox
  afterID : Nat
  page : List OutboxBatch
  sent : List OutboxBatch
  ending : Option Ending

/-- What the loop does, with the error of the query or of `batchToProto`, and what others do to the
outbox. -/
inductive Action where
  | read (failure : Option String)
  | send (failure : Option String)
  | cancel
  | ack (peerRegion table lastEventID : String)
  | enqueue (batch : OutboxBatch)

/-- Whether it is an action of the loop. -/
def Action.own : Action → Bool
  | .read _ | .send _ | .cancel => true
  | .ack .. | .enqueue _ => false

namespace Replay

def opened (outbox : Outbox) : Replay := ⟨outbox, 0, [], [], none⟩

/-- The page that the query returns now. -/
def nextPage (peerRegion : String) (window : Nat × Nat) (r : Replay) : List OutboxBatch :=
  listPendingWindow r.outbox.rows peerRegion window r.afterID replayPendingPageSize

/-- Batches are enqueued after the live watermark. -/
def step (peerRegion : String) (window : Nat × Nat) (liveWatermark : Nat) (r : Replay) (action : Action) :
    Option Replay :=
  match action, r.ending, r.page with
  | .read none, none, [] =>
    match r.nextPage peerRegion window with
    | [] => some { r with ending := some .drained }
    | batch :: rest => some { r with page := batch :: rest }
  | .read (some err), none, [] =>
    some { r with ending := some (.failed ("list pending outbox for " ++ peerRegion ++ ": " ++ err)) }
  | .send none, none, batch :: rest =>
    some { r with afterID := batch.id, page := rest, sent := r.sent ++ [batch] }
  | .send (some err), none, _ :: _ =>
    some { r with ending := some (.failed ("encode pending outbox batch: " ++ err)) }
  -- the context is done before the queue has room
  | .cancel, none, _ :: _ => some { r with ending := some .cancelled }
  | .ack peer table lastEventID, _, _ => some { r with outbox := r.outbox.ack peer table lastEventID }
  | .enqueue batch, _, _ =>
    if fresh : r.outbox.Fresh batch ∧ liveWatermark < batch.createdAt then
      some { r with outbox := r.outbox.enqueue batch fresh.1 }
    else none
  | _, _, _ => none

/-- What a step can be. -/
inductive Moves (peerRegion : String) (window : Nat × Nat) (liveWatermark : Nat) (r : Replay) :
    Action → Replay → Prop where
  | page {last : OutboxBatch} (running : r.ending = none) (used : r.page = [])
      (ends : (r.nextPage peerRegion window).getLast? = some last) :
      Moves peerRegion window liveWatermark r (.read none) { r with page := r.nextPage peerRegion window }
  | drained (running : r.ending = none) (used : r.page = []) (found : r.nextPage peerRegion window = []) :
      Moves peerRegion window liveWatermark r (.read none) { r with ending := some .drained }
  | send {batch : OutboxBatch} {rest : List OutboxBatch} (running : r.ending = none)
      (hand : r.page = batch :: rest) : Moves peerRegion window liveWatermark r (.send none)
        { r with afterID := batch.id, page := rest, sent := r.sent ++ [batch] }
  | stop {action : Action} {ending : Ending} (running : r.ending = none) (own : action.own = true)
      (other : action ≠ .read none) (early : ending ≠ .drained) :
      Moves peerRegion window liveWatermark r action { r with ending := some ending }
  | ack (peer table lastEventID : String) : Moves peerRegion window liveWatermark r
      (.ack peer table lastEventID) { r with outbox := r.outbox.ack peer table lastEventID }
  | enqueue {batch : OutboxBatch} (fresh : r.outbox.Fresh batch) (late : liveWatermark < batch.createdAt) :
      Moves peerRegion window liveWatermark r (.enqueue batch)
        { r with outbox := r.outbox.enqueue batch fresh }

variable {peerRegion : String} {window : Nat × Nat} {liveWatermark : Nat} {r r' : Replay} {action : Action}

theorem step_moves (taken : step peerRegion window liveWatermark r action = some r') :
    Moves peerRegion window liveWatermark r action r' := by
  unfold step at taken
  split at taken
  · next running used =>
    split at taken
    · next found => cases taken; exact .drained running used found
    · next batch rest found =>
      obtain ⟨last, ends⟩ : ∃ last, (batch :: rest).getLast? = some last :=
        ⟨_, List.getLast?_eq_some_getLast (List.cons_ne_nil _ _)⟩
      cases taken
      rw [← found] at ends ⊢
      exact .page running used ends
  · next running _ => cases taken; exact .stop running rfl (by simp) (by simp)
  · next running hand => cases taken; exact .send running hand
  · next running _ => cases taken; exact .stop running rfl (by simp) (by simp)
  · next running _ => cases taken; exact .stop running rfl (by simp) (by simp)
  · cases taken; exact .ack ..
  · split at taken
    · next fresh => cases taken; exact .enqueue fresh.1 fresh.2
    · cases taken
  · cases taken

/-- Until it returns, the loop can go on. -/
theorem step_enabled (running : r.ending = none) :
    (step peerRegion window liveWatermark r (.read none)).isSome ∨
      (step peerRegion window liveWatermark r (.send none)).isSome := by
  cases hand : r.page with
  | nil =>
    left
    simp only [step, running, hand]
    split <;> rfl
  | cons batch rest =>
    right
    simp [step, running, hand]

/-- The rows of the window that the page comes from. -/
theorem mem_nextPage {b : OutboxBatch} (mem : b ∈ r.nextPage peerRegion window) :
    b ∈ pendingWindow r.outbox.rows peerRegion window r.afterID :=
  (Paging.ordered_perm OutboxBatch.id _).mem_iff.mp (List.mem_of_mem_take mem)

theorem lt_of_mem_nextPage {b : OutboxBatch} (mem : b ∈ r.nextPage peerRegion window) :
    r.afterID < b.id :=
  (mem_pendingWindow.mp (mem_nextPage mem)).2.2.1

theorem ordered_strict (r : Replay) : (Paging.ordered OutboxBatch.id
    (pendingWindow r.outbox.rows peerRegion window r.afterID)).Pairwise (·.id < ·.id) :=
  Paging.ordered_strict (r.outbox.distinct.filter _)

theorem nextPage_rising (r : Replay) : (r.nextPage peerRegion window).Pairwise (·.id < ·.id) :=
  r.ordered_strict.sublist (List.take_sublist _ _)

theorem pendingWindow_of_nextPage (found : r.nextPage peerRegion window = []) :
    pendingWindow r.outbox.rows peerRegion window r.afterID = [] := by
  have empty : (Paging.ordered OutboxBatch.id
      (pendingWindow r.outbox.rows peerRegion window r.afterID)).take replayPendingPageSize = [] := found
  rw [List.take_eq_nil_iff] at empty
  have none := empty.resolve_left (by decide)
  exact (none ▸ Paging.ordered_perm OutboxBatch.id _).nil_eq.symm

section Last

variable {b last : OutboxBatch} (ends : (r.nextPage peerRegion window).getLast? = some last)

include ends

theorem le_last_of_mem_nextPage (mem : b ∈ r.nextPage peerRegion window) : b.id ≤ last.id := by
  have rising := @nextPage_rising peerRegion window r
  obtain ⟨front, whole⟩ := List.getLast?_eq_some_iff.mp ends
  rw [whole] at mem rising
  rcases List.mem_append.mp mem with earlier | same
  · exact ((List.pairwise_append.mp rising).2.2 b earlier last (List.mem_singleton_self _)).le
  · rw [List.mem_singleton.mp same]

/-- A page has what the window holds up to its last id. -/
theorem mem_nextPage_of_le
    (mem : b ∈ pendingWindow r.outbox.rows peerRegion window r.afterID) (le : b.id ≤ last.id) :
    b ∈ r.nextPage peerRegion window := by
  have strict := @ordered_strict peerRegion window r
  apply Chunks.mem_take_of_le_last (strict.imp Nat.le_of_lt) _ ends _ le
  · intro x inX y inY same
    exact List.inj_on_of_nodup_map (List.pairwise_map.mpr (strict.imp Nat.ne_of_lt)) inX inY same
  · exact (Paging.ordered_perm OutboxBatch.id _).mem_iff.mpr mem

/-- After a page the window holds what the page left out. -/
theorem length_after_page :
    (pendingWindow r.outbox.rows peerRegion window last.id).length +
      (r.nextPage peerRegion window).length =
        (pendingWindow r.outbox.rows peerRegion window r.afterID).length := by
  have above := lt_of_mem_nextPage (List.mem_of_getLast? ends)
  have onward : pendingWindow r.outbox.rows peerRegion window last.id = r.outbox.rows.filter fun b =>
      decide (b.peerRegion = peerRegion ∧ r.afterID < b.id ∧ inWindow window b) &&
        decide (last.id < b.id) := by
    refine List.filter_congr fun b _ => ?_
    rw [← Bool.decide_and]
    refine decide_eq_decide.mpr ?_
    constructor
    · rintro ⟨peer, id, within⟩
      exact ⟨⟨peer, above.trans id, within⟩, id⟩
    · rintro ⟨⟨peer, -, within⟩, id⟩
      exact ⟨peer, id, within⟩
  have rest := congrArg List.length (Paging.ordered_after_page r.outbox.distinct ends)
  rw [← onward, (Paging.ordered_perm _ _).length_eq, List.length_drop] at rest
  have whole := (Paging.ordered_perm OutboxBatch.id
    (pendingWindow r.outbox.rows peerRegion window r.afterID)).length_eq
  have size : (r.nextPage peerRegion window).length = min replayPendingPageSize
      (Paging.ordered OutboxBatch.id
        (pendingWindow r.outbox.rows peerRegion window r.afterID)).length := List.length_take
  rw [size, rest]
  change (Paging.ordered OutboxBatch.id
    (pendingWindow r.outbox.rows peerRegion window r.afterID)).length - replayPendingPageSize + _ = _
  omega

end Last

/-! ## The outbox under the loop -/

theorem nodup_of_rising {batches : List OutboxBatch} (rising : batches.Pairwise (·.id < ·.id)) :
    batches.Nodup := by
  refine rising.imp ?_
  rintro a b less rfl
  exact Nat.lt_irrefl _ less

/-- The id up to which the loop has read. -/
def frontier (r : Replay) : Nat := (r.page.getLast?.map (·.id)).getD r.afterID

/-- What the loop has read. -/
def taken (r : Replay) : List OutboxBatch := r.sent ++ r.page

/-- The loop has read past an id. -/
def Passed (id : Nat) (r : Replay) : Prop := r.ending = some .drained ∨ id ≤ r.frontier

/-- The loop can take two actions for each batch of the window, and one to find that there is no
more. -/
def fuel (peerRegion : String) (window : Nat × Nat) (r : Replay) : Nat :=
  if r.ending.isSome then 0
  else 1 + r.page.length + 2 * (pendingWindow r.outbox.rows peerRegion window r.frontier).length

theorem fuel_of_running (running : r.ending = none) : fuel peerRegion window r =
    1 + r.page.length + 2 * (pendingWindow r.outbox.rows peerRegion window r.frontier).length := by
  simp [fuel, running]

theorem fuel_of_returned {ending : Ending} (returned : r.ending = some ending) :
    fuel peerRegion window r = 0 := by
  simp [fuel, returned]

theorem fuel_outbox_le {outbox : Outbox}
    (fewer : (pendingWindow outbox.rows peerRegion window r.frontier).length ≤
      (pendingWindow r.outbox.rows peerRegion window r.frontier).length) :
    fuel peerRegion window { r with outbox } ≤ fuel peerRegion window r := by
  cases r with
  | mk old afterID page sent ending =>
    cases ending with
    | some ending => exact Nat.le_refl 0
    | none => exact Nat.add_le_add_left (Nat.mul_le_mul_left 2 fewer) _

section Frontier

variable {batch last : OutboxBatch} {rest page : List OutboxBatch}

theorem frontier_of_used (used : r.page = []) : r.frontier = r.afterID := by
  rw [frontier, used]
  rfl

theorem frontier_send (hand : r.page = batch :: rest) :
    ({ r with afterID := batch.id, page := rest, sent := r.sent ++ [batch] } : Replay).frontier =
      r.frontier := by
  cases rest with
  | nil => simp [frontier, hand]
  | cons next rest => rw [frontier, frontier, hand, List.getLast?_cons_cons]; rfl

theorem taken_send (hand : r.page = batch :: rest) :
    ({ r with afterID := batch.id, page := rest, sent := r.sent ++ [batch] } : Replay).taken = r.taken := by
  simp [taken, hand]

theorem frontier_page (ends : page.getLast? = some last) : ({ r with page } : Replay).frontier = last.id := by
  simp [frontier, ends]

theorem taken_page (used : r.page = []) : ({ r with page } : Replay).taken = r.taken ++ page := by
  simp [taken, used]

end Frontier

/-- The next page is the one that a batch of the window with this id belongs to. -/
def Covers (peerRegion : String) (window : Nat × Nat) (id : Nat) (r : Replay) : Prop :=
  r.afterID < id ∧ ∀ last ∈ (r.nextPage peerRegion window).getLast?, id ≤ last.id

/-- The loop has read as far as before. -/
structure Kept (r r' : Replay) : Prop where
  taken : r'.taken = r.taken
  frontier : r'.frontier = r.frontier
  drained : r'.ending = some .drained ↔ r.ending = some .drained

theorem Moves.kept (moves : Moves peerRegion window liveWatermark r action r')
    (other : action ≠ .read none) : Kept r r' := by
  cases moves with
  | page | drained => exact absurd rfl other
  | send running hand => exact ⟨taken_send hand, frontier_send hand, Iff.rfl⟩
  | stop running own other early => exact ⟨rfl, rfl, by simp [running, early]⟩
  | ack | enqueue => exact ⟨rfl, rfl, Iff.rfl⟩

theorem Kept.passed_iff (kept : Kept r r') {id : Nat} : r'.Passed id ↔ r.Passed id := by
  rw [Passed, Passed, kept.drained, kept.frontier]

/-- A read that is not past an id yet and then is covers it, and finds the batch if the outbox still
has it. -/
theorem read_of_crossing {b : OutboxBatch} (peer : b.peerRegion = peerRegion)
    (held : inWindow window b = true) (took : step peerRegion window liveWatermark r action = some r')
    (before : ¬ r.Passed b.id) (after : r'.Passed b.id) :
    action = .read none ∧ r.Covers peerRegion window b.id ∧
      r'.taken = r.taken ++ r.nextPage peerRegion window ∧ r'.outbox = r.outbox ∧
      (b ∈ r.nextPage peerRegion window ∨ b ∉ r.outbox.rows) := by
  have moves := step_moves took
  by_cases reads : action = .read none
  · refine ⟨reads, ?_⟩
    have ahead : r.frontier < b.id := by
      by_contra behind
      exact before (.inr (Nat.le_of_not_lt behind))
    cases moves with
    | @page last running used ends =>
      rw [frontier_of_used used] at ahead
      have upTo : b.id ≤ last.id := by
        rcases after with drained | upTo
        · have drained : r.ending = some .drained := drained
          rw [running] at drained
          cases drained
        · rwa [frontier_page ends] at upTo
      refine ⟨⟨ahead, ?_⟩, taken_page used, rfl, ?_⟩
      · rw [ends]
        rintro _ ⟨⟩
        exact upTo
      · by_cases present : b ∈ r.outbox.rows
        · exact .inl (mem_nextPage_of_le ends (mem_pendingWindow.mpr ⟨present, peer, ahead, held⟩) upTo)
        · exact .inr present
    | drained running used found =>
      rw [frontier_of_used used] at ahead
      refine ⟨⟨ahead, by simp [found]⟩, by simp [taken, found], rfl, .inr ?_⟩
      intro present
      have row := mem_pendingWindow.mpr ⟨present, peer, ahead, held⟩
      rw [pendingWindow_of_nextPage found] at row
      cases row
    | stop _ _ other => exact absurd reads other
    | send | ack | enqueue => cases reads
  · exact absurd ((moves.kept reads).passed_iff.mp after) before

/-- What is read past an id is settled. -/
theorem passed_step {b : OutboxBatch} (took : step peerRegion window liveWatermark r action = some r')
    (passed : r.Passed b.id) : r'.Passed b.id ∧ (b ∈ r'.taken ↔ b ∈ r.taken) := by
  have moves := step_moves took
  by_cases reads : action = .read none
  · cases moves with
    | @page last running used ends =>
      have behind : b.id ≤ r.afterID := by
        rcases passed with drained | behind
        · rw [running] at drained
          cases drained
        · rwa [frontier_of_used used] at behind
      constructor
      · right
        rw [frontier_page ends]
        exact behind.trans (lt_of_mem_nextPage (List.mem_of_getLast? ends)).le
      · rw [taken_page used, List.mem_append, or_iff_left]
        intro new
        exact absurd (lt_of_mem_nextPage new) (Nat.not_lt_of_le behind)
    | drained => exact ⟨.inl rfl, Iff.rfl⟩
    | stop _ _ other => exact absurd reads other
    | send | ack | enqueue => cases reads
  · have kept := moves.kept reads
    exact ⟨kept.passed_iff.mpr passed, by rw [kept.taken]⟩

theorem passed_run {b : OutboxBatch} {actions : List Action} (passed : r.Passed b.id)
    (ran : Machine.run (step peerRegion window liveWatermark) r actions = some r') :
    b ∈ r'.taken ↔ b ∈ r.taken := by
  have settled : ∀ s a t, s.Passed b.id ∧ (b ∈ s.taken ↔ b ∈ r.taken) →
      step peerRegion window liveWatermark s a = some t →
      t.Passed b.id ∧ (b ∈ t.taken ↔ b ∈ r.taken) := by
    rintro s a t ⟨passed, same⟩ took
    have next := passed_step took passed
    exact ⟨next.1, next.2.trans same⟩
  exact (Machine.invariant_of_steps settled ⟨passed, Iff.rfl⟩ ran).2

/-- A batch created up to the live watermark that is gone does not come back. -/
theorem absent_run {b : OutboxBatch} {actions : List Action} (early : b.createdAt ≤ liveWatermark)
    (absent : b ∉ r.outbox.rows)
    (ran : Machine.run (step peerRegion window liveWatermark) r actions = some r') :
    b ∉ r'.outbox.rows := by
  have gone : ∀ s a t, b ∉ s.outbox.rows → step peerRegion window liveWatermark s a = some t →
      b ∉ t.outbox.rows := by
    intro s a t absent took present
    cases step_moves took with
    | page | drained | send | stop => exact absent present
    | ack => exact absent (List.mem_of_mem_filter present)
    | enqueue fresh late =>
      rcases Outbox.mem_insertPending present with old | rfl
      · exact absent old
      · omega
  exact Machine.invariant_of_steps gone absent ran

section Window

variable (upper : window.2 ≠ 0) (within : window.2 ≤ liveWatermark)
include upper within

/-- A batch enqueued after the live watermark is in no window. -/
theorem pendingWindow_enqueue {outbox : Outbox} {batch : OutboxBatch} (fresh : outbox.Fresh batch)
    (late : liveWatermark < batch.createdAt) (afterID : Nat) :
    pendingWindow (outbox.enqueue batch fresh).rows peerRegion window afterID =
      pendingWindow outbox.rows peerRegion window afterID := by
  have outside : inWindow window batch = false := by
    simp only [inWindow, decide_eq_false_iff_not]
    omega
  change pendingWindow ((insertPending outbox.rows batch).getD outbox.rows) _ _ _ = _
  unfold insertPending
  split
  · rfl
  · simp [pendingWindow, outside]

/-- Each action of the loop uses fuel, and none of the others gives any. -/
theorem fuel_step (taken : step peerRegion window liveWatermark r action = some r') :
    fuel peerRegion window r' + action.own.toNat ≤ fuel peerRegion window r := by
  cases step_moves taken with
  | @page last running used ends =>
    have left := length_after_page ends
    have filled := List.length_pos_of_mem (List.mem_of_getLast? ends)
    rw [fuel_of_running running, frontier_of_used used, used, fuel_of_running (by exact running),
      frontier_page ends]
    simp only [List.length_nil, Action.own, Bool.toNat_true]
    omega
  | drained running used found =>
    rw [fuel_of_running running, fuel_of_returned rfl]
    simp only [Action.own, Bool.toNat_true]
    omega
  | @send batch rest running hand =>
    rw [fuel_of_running running, hand, fuel_of_running (by exact running), frontier_send hand]
    simp only [List.length_cons, Action.own, Bool.toNat_true]
    omega
  | stop running own other early =>
    rw [fuel_of_running running, fuel_of_returned rfl, own]
    simp only [Bool.toNat_true]
    omega
  | ack peer table lastEventID => exact fuel_outbox_le (List.filter_sublist.filter _).length_le
  | enqueue fresh late =>
    exact fuel_outbox_le (Nat.le_of_eq (by rw [pendingWindow_enqueue upper within fresh late]))

/-- What is read is in the window and in order, and the outbox gets no batch for the window. -/
structure Ok (peerRegion : String) (window : Nat × Nat) (start : Outbox) (r : Replay) : Prop where
  known : ∀ b ∈ pendingWindow r.outbox.rows peerRegion window 0, b ∈ start.rows
  rising : r.taken.Pairwise (·.id < ·.id)
  inside : ∀ b ∈ r.taken, b ∈ pendingWindow start.rows peerRegion window 0
  upTo : ∀ b ∈ r.taken, b.id ≤ r.frontier
  emptied : r.ending = some .drained → r.page = []

omit upper within in
theorem Ok.sent_rising {start : Outbox} (ok : Ok peerRegion window start r) :
    r.sent.Pairwise (·.id < ·.id) :=
  (List.pairwise_append.mp ok.rising).1

omit upper within in
theorem ok_opened (start : Outbox) : Ok peerRegion window start (opened start) where
  known := fun _ mem => (mem_pendingWindow.mp mem).1
  rising := List.Pairwise.nil
  inside := fun _ mem => nomatch mem
  upTo := fun _ mem => nomatch mem
  emptied := fun _ => rfl

omit upper within in
/-- A page goes on after what was read before. -/
theorem ok_page {start : Outbox} {last : OutboxBatch} (ok : Ok peerRegion window start r)
    (running : r.ending = none) (used : r.page = [])
    (ends : (r.nextPage peerRegion window).getLast? = some last) :
    Ok peerRegion window start { r with page := r.nextPage peerRegion window } := by
  have low : ∀ b ∈ r.taken, b.id ≤ r.afterID := frontier_of_used used ▸ ok.upTo
  refine ⟨ok.known, ?_, ?_, ?_, ?_⟩
  · rw [taken_page used]
    refine List.pairwise_append.mpr ⟨ok.rising, r.nextPage_rising, ?_⟩
    intro a old b new
    exact (low a old).trans_lt (lt_of_mem_nextPage new)
  · rw [taken_page used]
    intro b mem
    rcases List.mem_append.mp mem with old | new
    · exact ok.inside b old
    · obtain ⟨row, peer, id, held⟩ := mem_pendingWindow.mp (mem_nextPage new)
      have id : 0 < b.id := Nat.zero_lt_of_lt id
      exact mem_pendingWindow.mpr ⟨ok.known b (mem_pendingWindow.mpr ⟨row, peer, id, held⟩), peer, id, held⟩
  · rw [taken_page used, frontier_page ends]
    intro b mem
    rcases List.mem_append.mp mem with old | new
    · exact (low b old).trans (lt_of_mem_nextPage (List.mem_of_getLast? ends)).le
    · exact le_last_of_mem_nextPage ends new
  · intro drained
    have drained : r.ending = some .drained := drained
    rw [running] at drained
    cases drained

theorem ok_step {start : Outbox} (ok : Ok peerRegion window start r)
    (took : step peerRegion window liveWatermark r action = some r') :
    Ok peerRegion window start r' := by
  cases step_moves took with
  | page running used ends => exact ok_page ok running used ends
  | drained running used found => exact ⟨ok.known, ok.rising, ok.inside, ok.upTo, fun _ => used⟩
  | send running hand =>
    refine ⟨ok.known, ?_, ?_, ?_, ?_⟩
    · rw [taken_send hand]
      exact ok.rising
    · rw [taken_send hand]
      exact ok.inside
    · rw [taken_send hand, frontier_send hand]
      exact ok.upTo
    · intro drained
      rw [running] at drained
      cases drained
  | stop running own other early =>
    exact ⟨ok.known, ok.rising, ok.inside, ok.upTo, fun drained => absurd (Option.some.inj drained) early⟩
  | ack peer table lastEventID =>
    refine ⟨?_, ok.rising, ok.inside, ok.upTo, ok.emptied⟩
    intro b mem
    obtain ⟨row, rest⟩ := mem_pendingWindow.mp mem
    exact ok.known b (mem_pendingWindow.mpr ⟨List.mem_of_mem_filter row, rest⟩)
  | enqueue fresh late =>
    refine ⟨?_, ok.rising, ok.inside, ok.upTo, ok.emptied⟩
    intro b mem
    rw [pendingWindow_enqueue upper within fresh late] at mem
    exact ok.known b mem

theorem ok_run {start : Outbox} {actions : List Action}
    (ran : Machine.run (step peerRegion window liveWatermark) (opened start) actions = some r) :
    Ok peerRegion window start r :=
  Machine.invariant_of_steps (fun _ _ _ ok taken => ok_step upper within ok taken) (ok_opened start) ran

/-- Each batch of the window that was there at the start meets one read that covers it. It is sent once
if it was in that page, and otherwise it was gone by then. -/
theorem sent_once {start : Outbox} {actions : List Action} {b : OutboxBatch}
    (ran : Machine.run (step peerRegion window liveWatermark) (opened start) actions = some r)
    (drained : r.ending = some .drained) (present : b ∈ start.rows) (peer : b.peerRegion = peerRegion)
    (held : inWindow window b = true) :
    ∃ front back u, actions = front ++ .read none :: back ∧
      Machine.run (step peerRegion window liveWatermark) (opened start) front = some u ∧
      u.Covers peerRegion window b.id ∧
      (b ∈ u.nextPage peerRegion window ∧ r.sent.count b = 1 ∨
        b ∉ u.outbox.rows ∧ b ∉ r.outbox.rows ∧ r.sent.count b = 0) := by
  have ahead : ¬ (opened start).Passed b.id := by
    have positive := start.positive b present
    rintro (drained | behind)
    · cases drained
    · exact absurd positive (Nat.not_lt_of_le behind)
  -- the loop passes the id once, and what it finds there it sends
  obtain ⟨front, action, back, u, v, split, reached, before, took, after, rest⟩ :=
    Machine.exists_crossing ran ahead (.inl drained)
  obtain ⟨rfl, covers, read, same, found⟩ := read_of_crossing peer held took before after
  have okU := ok_run upper within reached
  have ok := ok_run upper within ran
  have unread : b ∉ u.taken := by
    intro mem
    exact before (.inr (okU.upTo b mem))
  have sent : r.taken = r.sent := by rw [taken, ok.emptied drained, List.append_nil]
  have member : b ∈ r.sent ↔ b ∈ u.nextPage peerRegion window := by
    rw [← sent, passed_run after rest, read, List.mem_append, or_iff_right unread]
  refine ⟨front, back, u, split, reached, covers, ?_⟩
  rcases found with found | gone
  · left
    exact ⟨found, List.count_eq_one_of_mem (nodup_of_rising ok.sent_rising) (member.mpr found)⟩
  · right
    have early : b.createdAt ≤ liveWatermark := by
      simp only [inWindow, decide_eq_true_eq] at held
      omega
    refine ⟨gone, absent_run early (same.symm ▸ gone) rest, List.count_eq_zero_of_not_mem ?_⟩
    rw [member]
    intro mem
    exact gone (mem_pendingWindow.mp (mem_nextPage mem)).1

end Window

/-- What a run of the loop over a window did. -/
structure Paged (peerRegion : String) (window : Nat × Nat) (liveWatermark : Nat) (start : Outbox)
    (actions : List Action) (r : Replay) : Prop where
  /-- The loop takes a bounded number of actions, and can go on until it returns. -/
  bounded : actions.countP Action.own ≤ 1 + 2 * (pendingWindow start.rows peerRegion window 0).length
  enabled : r.ending = none → (step peerRegion window liveWatermark r (.read none)).isSome ∨
    (step peerRegion window liveWatermark r (.send none)).isSome
  rising : r.sent.Pairwise (·.id < ·.id)
  inside : ∀ b ∈ r.sent, b ∈ start.rows ∧ b.peerRegion = peerRegion ∧ inWindow window b = true
  /-- A batch is sent once if it was in the page that covers it, and otherwise it was gone by then. -/
  once : r.ending = some .drained → ∀ b ∈ start.rows, b.peerRegion = peerRegion →
    inWindow window b = true → ∃ front back u, actions = front ++ .read none :: back ∧
      Machine.run (step peerRegion window liveWatermark) (opened start) front = some u ∧
      u.Covers peerRegion window b.id ∧
      (b ∈ u.nextPage peerRegion window ∧ r.sent.count b = 1 ∨
        b ∉ u.outbox.rows ∧ b ∉ r.outbox.rows ∧ r.sent.count b = 0)

theorem paged_of_run (upper : window.2 ≠ 0) (within : window.2 ≤ liveWatermark) {start : Outbox}
    {actions : List Action}
    (ran : Machine.run (step peerRegion window liveWatermark) (opened start) actions = some r) :
    Paged peerRegion window liveWatermark start actions r where
  bounded := by
    have spent := @Machine.countP_le_of_steps _ _ _ (fuel peerRegion window) Action.own
      (fun _ _ _ took => fuel_step upper within took) _ _ _ ran
    have full : fuel peerRegion window (opened start) =
        1 + 2 * (pendingWindow start.rows peerRegion window 0).length := fuel_of_running rfl
    omega
  enabled := step_enabled
  rising := (ok_run upper within ran).sent_rising
  inside := by
    intro b mem
    have held := (ok_run upper within ran).inside b (List.mem_append_left _ mem)
    obtain ⟨present, peer, -, held⟩ := mem_pendingWindow.mp held
    exact ⟨present, peer, held⟩
  once := by
    intro drained b present peer held
    exact sent_once upper within ran drained present peer held

section Twice

variable {snapshotWatermark : Nat} {start : Outbox} {first second : List Action}
  (earlier : Paged peerRegion (0, snapshotWatermark) liveWatermark start first r)
  (later : Paged peerRegion (snapshotWatermark, liveWatermark) liveWatermark r.outbox second r')
  (positive : snapshotWatermark ≠ 0)
include earlier later positive

/-- The two windows have no batch in common. -/
theorem disjoint_sent : r.sent.Disjoint r'.sent := by
  intro b old new
  have low := (earlier.inside b old).2.2
  have high := (later.inside b new).2.2
  simp only [inWindow, decide_eq_true_eq] at low high
  omega

/-- A batch that is still there after both windows was sent in one of them. -/
theorem count_of_survivor {b : OutboxBatch} (drained : r.ending = some .drained)
    (drained' : r'.ending = some .drained) (present : b ∈ start.rows) (between : b ∈ r.outbox.rows)
    (survives : b ∈ r'.outbox.rows) (peer : b.peerRegion = peerRegion)
    (early : b.createdAt ≤ liveWatermark) : (r.sent ++ r'.sent).count b = 1 := by
  have apart := disjoint_sent earlier later positive
  rw [List.count_append]
  by_cases low : b.createdAt ≤ snapshotWatermark
  · have held : inWindow (0, snapshotWatermark) b = true := by
      simp [inWindow, low]
    obtain ⟨_, _, _, _, _, _, sent | gone⟩ := earlier.once drained b present peer held
    · have unsent : b ∉ r'.sent := by
        apply apart
        exact List.count_pos_iff.mp (by omega)
      rw [sent.2, List.count_eq_zero_of_not_mem unsent]
    · exact absurd between gone.2.1
  · have held : inWindow (snapshotWatermark, liveWatermark) b = true := by
      simp only [inWindow, decide_eq_true_eq]
      omega
    obtain ⟨_, _, _, _, _, _, sent | gone⟩ := later.once drained' b between peer held
    · have unsent : b ∉ r.sent := by
        intro old
        exact apart old (List.count_pos_iff.mp (by omega))
      rw [sent.2, List.count_eq_zero_of_not_mem unsent]
    · exact absurd survives gone.2.1

end Twice

theorem send_page (running : r.ending = none) :
    Machine.run (step peerRegion window liveWatermark) r
      (List.replicate r.page.length (.send none)) =
        some { r with afterID := r.frontier, page := [], sent := r.taken } := by
  obtain ⟨page, hand⟩ : ∃ page, r.page = page := ⟨_, rfl⟩
  induction page generalizing r with
  | nil =>
    rw [frontier_of_used hand, taken, hand, List.append_nil]
    cases r
    cases hand
    rfl
  | cons batch rest ih =>
    have took : step peerRegion window liveWatermark r (.send none) =
        some { r with afterID := batch.id, page := rest, sent := r.sent ++ [batch] } := by
      simp [step, running, hand]
    have onward := @ih { r with afterID := batch.id, page := rest, sent := r.sent ++ [batch] } running rfl
    rw [frontier_send hand, taken_send hand] at onward
    rw [hand, List.length_cons, List.replicate_succ, Machine.run, took]
    exact onward

/-- A session that reads and queues a page as a whole does what the loop does when nothing comes
between. -/
theorem advance_eq_run {c : Consume} {windows : List (Nat × Nat)} {now : Nat}
    (replaying : c.stage = .replaying (window :: windows) r.afterID liveWatermark)
    (running : r.ending = none) (used : r.page = []) :
    ∃ r', Machine.run (step c.peerRegion window liveWatermark) r
        (.read none :: List.replicate (r.nextPage c.peerRegion window).length (.send none)) = some r' ∧
      r'.sent = r.sent ++ r.nextPage c.peerRegion window ∧
      c.advance now r.outbox.rows = some { c with
        stage := if r'.ending = some .drained then .replaying windows 0 liveWatermark
          else .replaying (window :: windows) r'.afterID liveWatermark
        queue := c.queue ++ r.nextPage c.peerRegion window } := by
  cases found : r.nextPage c.peerRegion window with
  | nil =>
    have took : step c.peerRegion window liveWatermark r (.read none) =
        some { r with ending := some .drained } := by
      simp [step, running, used, found]
    refine ⟨{ r with ending := some .drained }, ?_, by simp, ?_⟩
    · rw [Machine.run, took]
      rfl
    · have none : listPendingWindow r.outbox.rows c.peerRegion window r.afterID replayPendingPageSize = [] :=
        found
      simp [Consume.advance, replaying, none]
  | cons first rest =>
    have took : step c.peerRegion window liveWatermark r (.read none) =
        some { r with page := first :: rest } := by
      simp [step, running, used, found]
    obtain ⟨last, ends⟩ : ∃ last, (first :: rest).getLast? = some last :=
      ⟨_, List.getLast?_eq_some_getLast (List.cons_ne_nil _ _)⟩
    have sends := @send_page c.peerRegion window liveWatermark { r with page := first :: rest } running
    rw [frontier_page ends] at sends
    refine ⟨{ r with afterID := last.id, page := [], sent := r.sent ++ (first :: rest) }, ?_, rfl, ?_⟩
    · rw [Machine.run, took]
      exact sends
    · have page : listPendingWindow r.outbox.rows c.peerRegion window r.afterID replayPendingPageSize =
          first :: rest := found
      simp [Consume.advance, replaying, page, ends, running]

/-- Whatever is acknowledged and enqueued between the pages, a window is paged exactly. Replaying up to
the snapshot watermark and from there to the live watermark sends each batch that is left once. -/
theorem replay_exact (peerRegion : String) (liveWatermark : Nat) (start : Outbox) :
    (∀ (window : Nat × Nat) (actions : List Action) (r : Replay), window.2 ≠ 0 →
      window.2 ≤ liveWatermark →
      Machine.run (step peerRegion window liveWatermark) (opened start) actions = some r →
      Paged peerRegion window liveWatermark start actions r) ∧
    (∀ (snapshotWatermark : Nat) (first second : List Action) (r r' : Replay), snapshotWatermark ≠ 0 →
      snapshotWatermark ≤ liveWatermark →
      Machine.run (step peerRegion (0, snapshotWatermark) liveWatermark) (opened start) first = some r →
      r.ending = some .drained →
      Machine.run (step peerRegion (snapshotWatermark, liveWatermark) liveWatermark) (opened r.outbox)
        second = some r' →
      r'.ending = some .drained →
      (r.sent ++ r'.sent).Nodup ∧ ∀ b ∈ r'.outbox.rows, b.peerRegion = peerRegion →
        b.createdAt ≤ liveWatermark → (r.sent ++ r'.sent).count b = 1) := by
  constructor
  · intro window actions r upper within ran
    exact paged_of_run upper within ran
  · intro snapshotWatermark first second r r' positive order ran drained ran' drained'
    have live : liveWatermark ≠ 0 := by omega
    have earlier := @paged_of_run _ (0, snapshotWatermark) _ _ positive order _ _ ran
    have later := @paged_of_run _ (snapshotWatermark, liveWatermark) _ _ live (Nat.le_refl _) _ _ ran'
    refine ⟨List.nodup_append'.mpr ⟨nodup_of_rising earlier.rising, nodup_of_rising later.rising,
      disjoint_sent earlier later positive⟩, ?_⟩
    intro b survives peer early
    -- a batch that is there at the end was there all the time
    have between : b ∈ r.outbox.rows := by
      by_contra gone
      exact absent_run (r := opened r.outbox) early gone ran' survives
    have present : b ∈ start.rows := by
      by_contra gone
      exact absent_run (r := opened start) early gone ran between
    exact count_of_survivor earlier later positive drained drained' present between survives peer early

/-! One batch is acknowledged after its page was read, and one is enqueued between the pages. -/

def backlog : Outbox where
  rows := [(userBatch "a" 1).stamped 1 3, (userBatch "b" 2).stamped 2 8, (userBatch "c" 3).stamped 3 5]
  distinct := by decide
  positive := by decide

def upToSnapshot : List Action :=
  [.read none, .ack "us" "users" "c", .send none, .enqueue ((userBatch "d" 4).stamped 4 10), .send none,
    .read none]

def upToLive : List Action := [.read none, .send none, .read none]

def replayed : Replay :=
  (Machine.run (step "us" (0, 5) 9) (opened backlog) upToSnapshot).get (by decide +kernel)

def caughtUp : Replay :=
  (Machine.run (step "us" (5, 9) 9) (opened replayed.outbox) upToLive).get (by decide +kernel)

theorem replay_exact_backlog : Paged "us" (0, 5) 9 backlog upToSnapshot replayed ∧
    caughtUp.outbox.rows.map (·.id) = [1, 2, 4] ∧ (replayed.sent ++ caughtUp.sent).map (·.id) = [1, 3, 2] ∧
    ∀ b ∈ caughtUp.outbox.rows, b.peerRegion = "us" → b.createdAt ≤ 9 →
      (replayed.sent ++ caughtUp.sent).count b = 1 := by
  have whole := replay_exact "us" 9 backlog
  have ran := Option.eq_some_of_isSome (o := Machine.run (step "us" (0, 5) 9) (opened backlog) upToSnapshot)
    (by decide +kernel)
  have ran' := Option.eq_some_of_isSome
    (o := Machine.run (step "us" (5, 9) 9) (opened replayed.outbox) upToLive) (by decide +kernel)
  refine ⟨whole.1 _ _ _ (by decide) (by decide) ran, by decide +kernel, by decide +kernel, ?_⟩
  exact (whole.2 5 _ _ _ _ (by decide) (by decide) ran (by decide +kernel) ran' (by decide +kernel)).2

end Replay

end Transmogr.ReplayPaging
