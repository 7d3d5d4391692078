import Transmogr.Acknowledgement
import Transmogr.Channels

/-! The goroutines of one `Consume` session: the handler with its deferred teardown, the send loop
that empties the send queue, and the forwarder that fills it from the live channel. -/
namespace Transmogr.Teardown

open Channels
open Acknowledgement (Sender)

/-- Where the handler is. Its deferred function cancels the context, unsubscribes, closes the
send queue and waits for the goroutines. -/
inductive Handler
  | serving
  | subscribed
  | waiting
  | returning
  | cancelled
  | unsubscribed
  | closed
  | returned
  deriving DecidableEq, Repr

/-- Where `forwardLiveBatches` is: not started, at the head of its loop, with a batch to encode,
in the select with a message, or done. -/
inductive Forwarder
  | idle
  | ranging
  | encoding (batch : OutboxBatch)
  | selecting (message : ConsumeResponse)
  | returned

structure Session where
  handler : Handler
  contextDone : Bool
  sendQueue : Chan ConsumeResponse
  /-- The channel of the subscription, once there is one. -/
  live : Option (Chan OutboxBatch)
  lowerExclusive : Nat
  sending : Bool
  forwarder : Forwarder
  /-- Results in `errCh`, which has room for both goroutines. -/
  errCh : Nat
  panic : Bool

namespace Session

/-- The handler has accepted the request and started the send loop. -/
def accepted : Session :=
  { handler := .serving, contextDone := false, sendQueue := .make liveReplicationBufferSize,
    live := none, lowerExclusive := 0, sending := true, forwarder := .idle, errCh := 0,
    panic := false }

/-- `sendQueue <- message`, and what its goroutine does next. -/
def enqueue (s : Session) (message : ConsumeResponse) (next : Session → Session) : Option Session :=
  match s.sendQueue.send message with
  | .sent sendQueue => some (next { s with sendQueue })
  | .full => none
  | .panic => some { s with panic := true }

def stopSending (s : Session) : Session := { s with sending := false, errCh := s.errCh + 1 }

def stopForwarding (s : Session) : Session :=
  { s with forwarder := .returned, errCh := s.errCh + 1 }

def closeLive (s : Session) : Session :=
  { s with live := s.live.map fun chan => (chan.close).getD chan }

end Session

/-- `!batch.CreatedAt.IsZero() && !batch.CreatedAt.After(lowerExclusive)` -/
def skips (lowerExclusive : Nat) (batch : OutboxBatch) : Bool :=
  batch.createdAt ≠ 0 ∧ ¬ lowerExclusive < batch.createdAt

inductive Action
  /-- The handshake, a snapshot chunk, a replayed batch or the end of a snapshot. -/
  | handlerSend (message : ConsumeResponse)
  | subscribe
  | forwardLiveBatchesStart (lowerExclusive : Nat)
  /-- An error before the last select, or the context in one of the selects before it. -/
  | handlerReturn
  | wake
  | cancel
  | unsubscribe
  | closeQueue
  | wait
  | clientCancel
  | liveClosed
  | publish (batch : OutboxBatch)
  /-- The send loop takes a message; its `Send` may fail. -/
  | sendLoop (fails : Bool)
  | forwardReceive
  | forwardEncode
  | forwardSend
  | forwardDone

section Steps

variable {J : Type} (sender : Sender J) (s : Session)

def handlerStep : Handler → Action → Option Session
  | .serving, .handlerSend message | .subscribed, .handlerSend message => s.enqueue message id
  | .serving, .handlerReturn | .subscribed, .handlerReturn => some { s with handler := .returning }
  | .serving, .subscribe =>
    some { s with handler := .subscribed, live := some (.make liveReplicationBufferSize) }
  | .subscribed, .forwardLiveBatchesStart lowerExclusive =>
    some { s with handler := .waiting, forwarder := .ranging, lowerExclusive }
  | .waiting, .wake =>
    if s.contextDone then some { s with handler := .returning }
    else if s.errCh = 0 then none
    else some { s with handler := .returning, errCh := s.errCh - 1 }
  | .returning, .cancel => some { s with handler := .cancelled, contextDone := true }
  | .cancelled, .unsubscribe => some { s.closeLive with handler := .unsubscribed }
  | .unsubscribed, .closeQueue =>
    s.sendQueue.close.map fun sendQueue => { s with handler := .closed, sendQueue }
  | .closed, .wait =>
    match s.sending, s.forwarder with
    | false, .idle | false, .returned => some { s with handler := .returned }
    | _, _ => none
  | _, _ => none

def sendLoopStep (fails : Bool) : Option Session :=
  if s.sending then
    match s.sendQueue.receive with
    | .received _ sendQueue =>
      let s := { s with sendQueue }
      some (if fails then s.stopSending else s)
    | .ended => some s.stopSending
    | .empty => none
  else none

-- A select with two ready cases takes either, so `forwardSend` needs no open context.
def forwarderStep : Forwarder → Action → Option Session
  | .ranging, .forwardReceive => s.live.bind fun live =>
    match live.receive with
    | .received batch live =>
      some { s with
        live := some live
        forwarder := if skips s.lowerExclusive batch then .ranging else .encoding batch }
    | .ended => some s.stopForwarding
    | .empty => none
  | .encoding batch, .forwardEncode =>
    match sender.message batch false with
    | .ok message => some { s with forwarder := .selecting message }
    | .error _ => some s.stopForwarding
  | .selecting message, .forwardSend =>
    s.enqueue message fun s => { s with forwarder := .ranging }
  | .selecting _, .forwardDone => if s.contextDone then some s.stopForwarding else none
  | _, _ => none

/-- One send of `publishLive`. A batch that finds the live channel closed is the producer's
panic, not one of this session. -/
def publishStep (batch : OutboxBatch) : Option Session := s.live.bind fun live =>
  match live.send batch with
  | .sent live => some { s with live := some live }
  | .full => some s
  | .panic => none

def step (action : Action) : Option Session :=
  if s.panic then none
  else match action with
    | .clientCancel => some { s with contextDone := true }
    | .liveClosed => some s.closeLive
    | .publish batch => publishStep s batch
    | .sendLoop fails => sendLoopStep s fails
    | .forwardReceive | .forwardEncode | .forwardSend | .forwardDone =>
      forwarderStep sender s s.forwarder action
    | .handlerSend _ | .subscribe | .forwardLiveBatchesStart _ | .handlerReturn | .wake | .cancel
    | .unsubscribe | .closeQueue | .wait => handlerStep s s.handler action

end Steps

section Safety

variable {J : Type} {sender : Sender J} {s t : Session}

def undeliverable (sender : Sender J) (batch : OutboxBatch) : Bool :=
  (sender.message batch false).toOption.isNone

/-- The forwarder drops these batches or ends at one of them. -/
def nothingToSend (sender : Sender J) (lowerExclusive : Nat) : List OutboxBatch → Bool
  | [] => true
  | batch :: rest =>
    if skips lowerExclusive batch then nothingToSend sender lowerExclusive rest
    else undeliverable sender batch

/-- The forwarder does not come to its select any more, unless something is published. -/
def Session.drained (sender : Sender J) (s : Session) : Bool :=
  match s.forwarder with
  | .idle | .returned => true
  | .ranging => s.live.all fun live => nothingToSend sender s.lowerExclusive live.buffer
  | .encoding batch => undeliverable sender batch
  | .selecting _ => false

/-- The handler closes the queue of a drained forwarder only. -/
def ClosesDrained (sender : Sender J) (s : Session) : Action → Prop
  | .closeQueue => s.drained sender = true
  | _ => True

instance : DecidablePred (ClosesDrained sender s)
  | .closeQueue => inferInstanceAs (Decidable (_ = true))
  | .handlerSend _ | .subscribe | .forwardLiveBatchesStart _ | .handlerReturn | .wake | .cancel
  | .unsubscribe | .wait | .clientCancel | .liveClosed | .publish _ | .sendLoop _ | .forwardReceive
  | .forwardEncode | .forwardSend | .forwardDone => .isTrue trivial

/-- The handler has unsubscribed. -/
def Handler.leaving : Handler → Bool
  | .unsubscribed | .closed | .returned => true
  | _ => false

/-- The handler has closed the send queue. -/
def Handler.shut : Handler → Bool
  | .closed | .returned => true
  | _ => false

structure Sound (sender : Sender J) (s : Session) : Prop where
  calm : s.panic = false
  queue : s.sendQueue.closed = s.handler.shut
  live : s.handler.leaving = true → ∀ chan ∈ s.live, chan.closed = true
  drained : s.handler.shut = true → s.drained sender = true

theorem sound_accepted : Sound sender .accepted where
  calm := rfl
  queue := rfl
  live := by simp [Session.accepted]
  drained := by simp [Session.accepted, Handler.shut]

/-- While the queue is open a send changes nothing but what is in it. -/
theorem enqueue_eq_some {message : ConsumeResponse} {next : Session → Session}
    (isOpen : s.sendQueue.closed = false) (sent : s.enqueue message next = some t) :
    ∃ sendQueue, sendQueue.closed = false ∧ t = next { s with sendQueue } := by
  unfold Session.enqueue at sent
  split at sent
  · next accepted =>
    cases sent
    refine ⟨_, ?_, rfl⟩
    rw [(Chan.send_eq_sent accepted).2]
    exact isOpen
  · cases sent
  · next panics => simp [Chan.send_eq_panic.mp panics] at isOpen

theorem closeLive_closed : ∀ chan ∈ s.closeLive.live, chan.closed = true := by
  intro chan mem
  obtain ⟨before, -, rfl⟩ := Option.map_eq_some_iff.mp mem
  unfold Chan.close
  split <;> simp [*]

theorem closeLive_drained : s.closeLive.drained sender = s.drained sender := by
  unfold Session.drained Session.closeLive
  cases s.forwarder with
  | ranging =>
    cases s.live with
    | none => rfl
    | some chan =>
      -- what was buffered stays readable
      have buffer : (chan.close.getD chan).buffer = chan.buffer := by
        unfold Chan.close
        split <;> rfl
      simp [buffer]
  | idle | encoding _ | selecting _ | returned => rfl

theorem Handler.shut_of_not_leaving {handler : Handler} (early : handler.leaving = false) :
    handler.shut = false := by
  cases handler <;> first | rfl | cases early

/-- Until the handler has unsubscribed only the queue has to be open. -/
theorem Sound.early (calm : s.panic = false) (isOpen : s.sendQueue.closed = false)
    (early : s.handler.leaving = false) : Sound sender s where
  calm := calm
  queue := isOpen.trans (Handler.shut_of_not_leaving early).symm
  live leaving := by simp [early] at leaving
  drained shut := by simp [Handler.shut_of_not_leaving early] at shut

section Steps

variable (sound : Sound sender s)

include sound

theorem handlerStep_sound {action : Action} (drained : ClosesDrained sender s action)
    (taken : handlerStep s s.handler action = some t) : Sound sender t := by
  have calm := sound.calm
  have queue := sound.queue
  have live := sound.live
  generalize at_handler : s.handler = handler at taken queue live
  unfold handlerStep at taken
  split at taken
  · obtain ⟨_, isOpen, rfl⟩ := enqueue_eq_some queue taken
    exact .early calm isOpen (by simp [at_handler, Handler.leaving])
  · obtain ⟨_, isOpen, rfl⟩ := enqueue_eq_some queue taken
    exact .early calm isOpen (by simp [at_handler, Handler.leaving])
  · cases taken
    exact .early calm queue rfl
  · cases taken
    exact .early calm queue rfl
  · cases taken
    exact .early calm queue rfl
  · cases taken
    exact .early calm queue rfl
  · split at taken
    · cases taken
      exact .early calm queue rfl
    · split at taken <;> cases taken
      exact .early calm queue rfl
  · cases taken
    exact .early calm queue rfl
  · cases taken
    exact ⟨calm, queue, fun _ => closeLive_closed, by simp [Handler.shut]⟩
  · obtain ⟨sendQueue, closed, rfl⟩ := Option.map_eq_some_iff.mp taken
    refine ⟨calm, ?_, live, fun _ => drained⟩
    rw [(Chan.close_eq_some closed).2]
    rfl
  · split at taken <;> cases taken
    all_goals
      exact ⟨calm, queue, live, fun _ => sound.drained (by simp [at_handler, Handler.shut])⟩
  · cases taken

theorem Sound.stopSending : Sound sender s.stopSending :=
  ⟨sound.calm, sound.queue, sound.live, sound.drained⟩

theorem sendLoopStep_sound {fails : Bool} (taken : sendLoopStep s fails = some t) :
    Sound sender t := by
  unfold sendLoopStep at taken
  split at taken
  · split at taken
    · next message sendQueue received =>
      have kept : Sound sender { s with sendQueue } :=
        ⟨sound.calm, (Chan.receive_eq_received received).2.trans sound.queue, sound.live,
          sound.drained⟩
      cases fails <;> cases taken
      · exact kept
      · exact kept.stopSending
    · cases taken
      exact sound.stopSending
    · cases taken
  · cases taken

/-- The forwarder's own steps leave the handler, the queue and what is closed alone. -/
theorem Sound.forward {live : Option (Chan OutboxBatch)} {forwarder : Forwarder} {errCh : Nat}
    (closed : ∀ chan ∈ live, ∃ before ∈ s.live, chan.closed = before.closed)
    (drained : s.drained sender = true →
      { s with live, forwarder, errCh }.drained sender = true) :
    Sound sender { s with live, forwarder, errCh } where
  calm := sound.calm
  queue := sound.queue
  live leaving chan mem := by
    obtain ⟨before, found, same⟩ := closed chan mem
    rw [same]
    exact sound.live leaving before found
  drained shut := drained (sound.drained shut)

theorem Sound.stopForwarding : Sound sender s.stopForwarding :=
  sound.forward (fun chan mem => ⟨chan, mem, rfl⟩) fun _ => rfl

theorem forwardReceive_sound (ranging : s.forwarder = .ranging)
    (taken : forwarderStep sender s .ranging .forwardReceive = some t) : Sound sender t := by
  obtain ⟨live, found, taken⟩ := Option.bind_eq_some_iff.mp taken
  split at taken
  · next batch rest received =>
    cases taken
    obtain ⟨buffer, closed⟩ := Chan.receive_eq_received received
    apply sound.forward
    · simp [found, closed]
    · intro drained
      rw [Session.drained, ranging, found] at drained
      simp only [Option.all_some, buffer, nothingToSend] at drained
      by_cases skipped : skips s.lowerExclusive batch = true
      · simp only [skipped, ite_true] at drained ⊢
        exact drained
      · simp only [skipped] at drained ⊢
        exact drained
  · cases taken
    exact sound.stopForwarding
  · cases taken

theorem forwarderStep_sound {action : Action}
    (taken : forwarderStep sender s s.forwarder action = some t) : Sound sender t := by
  generalize at_forwarder : s.forwarder = forwarder at taken
  unfold forwarderStep at taken
  split at taken
  · exact forwardReceive_sound sound at_forwarder taken
  · next batch =>
    split at taken
    · next message made =>
      cases taken
      apply sound.forward (fun chan mem => ⟨chan, mem, rfl⟩)
      intro drained
      simp [Session.drained, at_forwarder, undeliverable, made, Except.toOption] at drained
    · cases taken
      exact sound.stopForwarding
  · next message =>
    -- the queue is open: a closed one has a drained forwarder
    have isOpen : s.sendQueue.closed = false := by
      rw [sound.queue]
      by_contra shut
      have := sound.drained (by simpa using shut)
      simp [Session.drained, at_forwarder] at this
    have notShut : s.handler.shut = false := sound.queue ▸ isOpen
    obtain ⟨sendQueue, stillOpen, rfl⟩ := enqueue_eq_some isOpen taken
    exact ⟨sound.calm, stillOpen.trans notShut.symm, sound.live, by simp [notShut]⟩
  · split at taken <;> cases taken
    exact sound.stopForwarding
  · cases taken

theorem publishStep_sound {batch : OutboxBatch} (taken : publishStep s batch = some t) :
    Sound sender t := by
  obtain ⟨live, found, taken⟩ := Option.bind_eq_some_iff.mp taken
  split at taken
  · next sent =>
    cases taken
    -- an open live channel: the handler has not unsubscribed
    have isOpen := (Chan.send_eq_sent sent).1
    have early : s.handler.leaving = false := by
      by_contra leaving
      simp [sound.live (by simpa using leaving) live found] at isOpen
    have notShut := Handler.shut_of_not_leaving early
    exact .early sound.calm (sound.queue.trans notShut) early
  · cases taken
    exact sound
  · cases taken

theorem step_sound {action : Action} (drained : ClosesDrained sender s action)
    (taken : step sender s action = some t) : Sound sender t := by
  unfold step at taken
  split at taken
  · cases taken
  · cases action with
    | clientCancel =>
      cases taken
      exact ⟨sound.calm, sound.queue, sound.live, sound.drained⟩
    | liveClosed =>
      cases taken
      exact ⟨sound.calm, sound.queue, fun _ => closeLive_closed,
        fun shut => closeLive_drained.trans (sound.drained shut)⟩
    | publish batch => exact publishStep_sound sound taken
    | sendLoop fails => exact sendLoopStep_sound sound taken
    | forwardReceive | forwardEncode | forwardSend | forwardDone =>
      exact forwarderStep_sound sound taken
    | handlerSend _ | subscribe | forwardLiveBatchesStart _ | handlerReturn | wake | cancel
    | unsubscribe | closeQueue | wait => exact handlerStep_sound sound drained taken

end Steps

/-- The session sends nothing to its closed send queue if, when the handler closes the queue, the
forwarder has returned, was never started, or waits at a live channel with nothing left to
forward. -/
theorem consume_never_sends_on_closed_queue {actions : List Action}
    (drained : Machine.Meets (step sender) (ClosesDrained sender) .accepted actions)
    (ran : Machine.run (step sender) .accepted actions = some t) : t.panic = false :=
  (Machine.invariant (fun _ _ _ sound drained taken => step_sound sound drained taken)
    sound_accepted drained ran).calm

end Safety

open Acknowledgement (shop)

def newUsers : OutboxBatch := ⟨2, "us", "users", 1, [userEvent "eu" "1" 5 "ann"], 9, ""⟩

def following : List Action :=
  [.handlerSend .heartbeat, .subscribe, .forwardLiveBatchesStart 4, .publish newUsers]

def ending : List Action := [.clientCancel, .wake, .cancel, .unsubscribe, .closeQueue]

def forwarding : List Action := [.forwardReceive, .forwardEncode, .forwardSend]

/-- The client leaves after the batch went out. -/
theorem consume_forwards_then_ends :
    (Machine.run (step shop.sender) .accepted (following ++ forwarding ++ ending)).isSome ∧
      ∀ t, Machine.run (step shop.sender) .accepted (following ++ forwarding ++ ending) = some t →
        t.panic = false :=
  ⟨by decide +kernel, fun _ ran => consume_never_sends_on_closed_queue (by decide +kernel) ran⟩

/-- The client leaves while the batch is in the live channel. -/
theorem consume_sends_on_closed_queue :
    (Machine.run (step shop.sender) .accepted (following ++ ending ++ forwarding)).map (·.panic) =
      some true := by
  decide +kernel

end Transmogr.Teardown
