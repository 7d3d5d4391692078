import Transmogr.CaptureOrder
import Transmogr.Machine

/-! Restarts of change data capture. PostgreSQL sends the transactions whose
commit record starts at or after the confirmed position, and `Run` reports the
end of the last Commit message it handled as flushed. -/
namespace Transmogr.CaptureResume

/-- A committed transaction as logical decoding sends it: its messages up to the
Commit message, which starts where the commit record ends. -/
structure WalTransaction where
  body : List XLogData
  commitStart : Nat
  commitEnd : Nat
  commitLength : Nat
  uncommitted : ∀ m ∈ body, m.message.isCommit = false

namespace WalTransaction

def commit (tx : WalTransaction) : XLogData := ⟨tx.commitEnd, tx.commitLength, .commit⟩

/-- Each message with the transaction it belongs to. -/
def messages (tx : WalTransaction) : List (WalTransaction × XLogData) :=
  (tx.body ++ [tx.commit]).map (tx, ·)

end WalTransaction

/-- One connection: the state of `Run` and what the server has still to send. -/
structure Session where
  capture : CaptureState
  stream : List (WalTransaction × XLogData)

/-- The slot's confirmed position, the transactions whose Commit message was
handled, and the open connection. -/
structure System where
  confirmed : Nat
  handled : List WalTransaction
  session : Option Session

inductive Action where
  | start (xlogPos : Nat)
  /-- The next message arrives; `onBatch` answers with `outcome` if it is called. -/
  | receive (outcome : Except String Unit)
  | report
  | stop

def initial (slotLSN : Nat) : System := ⟨slotLSN, [], none⟩

/-- `startLSN` of `Run` -/
def startLSN (slotLSN xlogPos : Nat) : Nat := if slotLSN = 0 then xlogPos else slotLSN

/-- What the server sends to a connection that starts at a confirmed position. -/
def resent (wal : List WalTransaction) (confirmed : Nat) : List (WalTransaction × XLogData) :=
  (wal.filter (confirmed ≤ ·.commitStart)).flatMap (·.messages)

def step (cfg : CaptureConfig) (wal : List WalTransaction) (s : System) : Action → Option System
  | .start xlogPos =>
    match s.session with
    | some _ => none
    | none => some { s with
        session := some ⟨.initial (startLSN s.confirmed xlogPos), resent wal s.confirmed⟩ }
  | .receive outcome =>
    match s.session with
    | none => none
    | some session =>
      match session.stream with
      | [] => none
      | (tx, xld) :: stream =>
        match captureStep cfg (fun _ => outcome) session.capture xld with
        -- `Run` returns the error and the connection closes.
        | .error _ => some { s with session := none }
        | .ok capture => some { s with
            handled := if xld.message.isCommit then tx :: s.handled else s.handled
            session := some ⟨capture, stream⟩ }
  | .report =>
    match s.session with
    | none => none
    | some session => some { s with confirmed := max s.confirmed session.capture.durableLSN }
  | .stop => some { s with session := none }

/-- Commit messages end before the commit record of any later transaction
starts. -/
def Apart (wal : List WalTransaction) : Prop :=
  wal.Pairwise fun a b => a.commit.nextLSN ≤ b.commitStart

structure SessionOk (wal handled : List WalTransaction) (session : Session) : Prop where
  durable : ∀ tx ∈ wal, tx ∉ handled → session.capture.durableLSN ≤ tx.commitStart
  covers : ∀ tx ∈ wal, tx ∉ handled → (tx, tx.commit) ∈ session.stream
  own : ∀ entry ∈ session.stream, entry.2.message.isCommit = true → entry.2 = entry.1.commit
  apart : session.stream.Pairwise fun a b => a.2.message.isCommit = true →
    b.2.message.isCommit = true → a.1.commit.nextLSN ≤ b.1.commitStart

structure Ok (wal : List WalTransaction) (s : System) : Prop where
  valid : 0 < s.confirmed
  confirmed : ∀ tx ∈ wal, tx ∉ s.handled → s.confirmed ≤ tx.commitStart
  session : ∀ session, s.session = some session → SessionOk wal s.handled session

section Proofs

variable {cfg : CaptureConfig} {wal handled : List WalTransaction} {s t : System}

theorem mem_messages {tx : WalTransaction} {entry : WalTransaction × XLogData}
    (mem : entry ∈ tx.messages) :
    entry.1 = tx ∧ (entry.2.message.isCommit = true → entry.2 = tx.commit) := by
  obtain ⟨xld, memXld, rfl⟩ := List.mem_map.mp mem
  refine ⟨rfl, fun isCommit => ?_⟩
  rcases List.mem_append.mp memXld with body | last
  · rw [tx.uncommitted xld body] at isCommit
    cases isCommit
  · exact List.mem_singleton.mp last

theorem commit_mem_messages (tx : WalTransaction) : (tx, tx.commit) ∈ tx.messages := by
  simp [WalTransaction.messages]

/-- Within a transaction only the last message is a commit. -/
theorem messages_pairwise (tx : WalTransaction) (R : WalTransaction × XLogData →
    WalTransaction × XLogData → Prop) : tx.messages.Pairwise fun a b =>
      a.2.message.isCommit = true → b.2.message.isCommit = true → R a b := by
  rw [WalTransaction.messages, List.pairwise_map, List.pairwise_append]
  refine ⟨?_, List.pairwise_singleton _ _, ?_⟩
  · refine List.pairwise_of_forall_mem_list fun a memA b _ isCommit => ?_
    rw [tx.uncommitted a memA] at isCommit
    cases isCommit
  · intro a memA b _ isCommit
    rw [tx.uncommitted a memA] at isCommit
    cases isCommit

theorem resent_pairwise (apart : Apart wal) (confirmed : Nat) :
    (resent wal confirmed).Pairwise fun a b => a.2.message.isCommit = true →
      b.2.message.isCommit = true → a.1.commit.nextLSN ≤ b.1.commitStart := by
  rw [resent, List.pairwise_flatMap]
  refine ⟨fun tx _ => messages_pairwise tx _, ?_⟩
  refine (apart.filter _).imp fun {a b} before x memX y memY _ _ => ?_
  rw [(mem_messages memX).1, (mem_messages memY).1]
  exact before

theorem session_start (apart : Apart wal) (ok : Ok wal s) (xlogPos : Nat) :
    SessionOk wal s.handled
      ⟨.initial (startLSN s.confirmed xlogPos), resent wal s.confirmed⟩ where
  durable tx mem unhandled := by
    have := ok.valid
    simp only [CaptureState.initial, startLSN, if_neg (by omega : s.confirmed ≠ 0)]
    exact ok.confirmed tx mem unhandled
  covers tx mem unhandled := by
    refine List.mem_flatMap.mpr ⟨tx, ?_, commit_mem_messages tx⟩
    exact List.mem_filter.mpr ⟨mem, by simpa using ok.confirmed tx mem unhandled⟩
  own entry mem isCommit := by
    obtain ⟨tx, _, inTx⟩ := List.mem_flatMap.mp mem
    rw [(mem_messages inTx).2 isCommit, (mem_messages inTx).1]
  apart := resent_pairwise apart s.confirmed

theorem session_receive {capture : CaptureState} {tx : WalTransaction} {xld : XLogData}
    {stream : List (WalTransaction × XLogData)} {session : Session} {outcome : Except String Unit}
    (ok : SessionOk wal handled session) (next : session.stream = (tx, xld) :: stream)
    (taken : captureStep cfg (fun _ => outcome) session.capture xld = .ok capture) :
    SessionOk wal (if xld.message.isCommit then tx :: handled else handled) ⟨capture, stream⟩ := by
  have covers := ok.covers
  have own := ok.own
  have apart := ok.apart
  rw [next] at covers own apart
  have later : ∀ entry ∈ stream, entry.2.message.isCommit = true → entry.2 = entry.1.commit :=
    fun entry mem => own entry (List.mem_cons_of_mem _ mem)
  by_cases isCommit : xld.message.isCommit = true
  · have same : xld = tx.commit := own (tx, xld) List.mem_cons_self isCommit
    have durable : capture.durableLSN = tx.commit.nextLSN := by
      rw [captureStep_durableLSN taken, if_pos isCommit, same]
    have remaining : ∀ other ∈ wal, other ∉ tx :: handled → (other, other.commit) ∈ stream := by
      intro other mem unhandled
      rw [List.mem_cons, not_or] at unhandled
      rcases List.mem_cons.mp (covers other mem unhandled.2) with same | rest
      · exact absurd (congrArg Prod.fst same) unhandled.1
      · exact rest
    rw [if_pos isCommit]
    refine ⟨fun other mem unhandled => ?_, remaining, later, apart.of_cons⟩
    rw [durable]
    exact List.rel_of_pairwise_cons apart (remaining other mem unhandled) isCommit rfl
  · have durable : capture.durableLSN = session.capture.durableLSN := by
      rw [captureStep_durableLSN taken, if_neg isCommit]
    rw [if_neg isCommit]
    refine ⟨fun other mem unhandled => ?_, fun other mem unhandled => ?_, later, apart.of_cons⟩
    · rw [durable]
      exact ok.durable other mem unhandled
    · rcases List.mem_cons.mp (covers other mem unhandled) with same | rest
      · obtain ⟨rfl, rfl⟩ := Prod.mk.inj same
        exact absurd rfl isCommit
      · exact rest

theorem step_ok (apart : Apart wal) {action : Action} (ok : Ok wal s)
    (taken : step cfg wal s action = some t) : Ok wal t := by
  cases action with
  | start xlogPos =>
    simp only [step] at taken
    split at taken
    · cases taken
    · cases taken
      refine ⟨ok.valid, ok.confirmed, fun session eq => ?_⟩
      cases eq
      exact session_start apart ok xlogPos
  | receive outcome =>
    simp only [step] at taken
    split at taken
    · cases taken
    · next session here =>
      split at taken
      · cases taken
      · next tx xld stream waiting =>
        split at taken
        · cases taken
          exact ⟨ok.valid, ok.confirmed, nofun⟩
        · next capture done =>
          cases taken
          refine ⟨ok.valid, fun other mem unhandled => ok.confirmed other mem fun was => ?_,
            fun session eq => ?_⟩
          · apply unhandled
            by_cases isCommit : xld.message.isCommit = true
            · simp [isCommit, was]
            · simpa [isCommit] using was
          · cases eq
            exact session_receive (ok.session session here) waiting done
  | report =>
    simp only [step] at taken
    split at taken
    · cases taken
    · next session here =>
      cases taken
      refine ⟨lt_of_lt_of_le ok.valid (Nat.le_max_left _ _), fun tx mem unhandled => ?_, ok.session⟩
      exact Nat.max_le.mpr ⟨ok.confirmed tx mem unhandled,
        (ok.session session here).durable tx mem unhandled⟩
  | stop =>
    cases taken
    exact ⟨ok.valid, ok.confirmed, nofun⟩

/-- Over every sequence of connections, messages, answers of `onBatch`, status
reports and stops: as long as no commit record starts before an earlier Commit
message ends, neither the position reported as flushed nor the one the slot
holds is past the commit record of a transaction that was not handled. -/
theorem flushed_le_unhandled_commit {slotLSN : Nat} {actions : List Action}
    (slot : 0 < slotLSN) (created : ∀ tx ∈ wal, slotLSN ≤ tx.commitStart) (apart : Apart wal)
    (ran : Machine.run (step cfg wal) (initial slotLSN) actions = some s) :
    ∀ tx ∈ wal, tx ∉ s.handled → s.confirmed ≤ tx.commitStart ∧
      ∀ session, s.session = some session → session.capture.durableLSN ≤ tx.commitStart := by
  have ok : Ok wal s := Machine.invariant_of_steps (fun _ _ _ => step_ok apart)
    ⟨slot, fun tx mem _ => created tx mem, fun _ none => by cases none⟩ ran
  exact fun tx mem unhandled => ⟨ok.confirmed tx mem unhandled, fun session here =>
    (ok.session session here).durable tx mem unhandled⟩

end Proofs

/-! Transactions that insert one user each; a Commit message has 26 bytes. -/

def userTransaction (rowStart commitStart : Nat) (id : String) : WalTransaction where
  body := [⟨commitStart, 21, .begin commitStart⟩, CaptureOrder.usersRelation,
    ⟨rowStart, 30, .insert 1 (some [⟨.text, id⟩, ⟨.text, "ann"⟩, ⟨.text, "eu"⟩])⟩]
  commitStart
  commitEnd := commitStart + 8
  commitLength := 26
  uncommitted := by simp [LogicalMessage.isCommit, CaptureOrder.usersRelation]

/-- The first transaction is received and reported, and the process restarts. -/
def restartAfterFirst : List Action :=
  [.start 0, .receive (.ok ()), .receive (.ok ()), .receive (.ok ()), .receive (.ok ()), .report, .stop,
    .start 0]

/-- The two commit records are adjacent. The position reported after the first
one is inside the second, which the next connection is not sent. -/
theorem adjacent_commit_not_resent :
    ∃ s session, Machine.run
        (step (usersCapture false) [userTransaction 150 200 "a", userTransaction 100 208 "b"])
        (initial 50) restartAfterFirst = some s ∧
      s.session = some session ∧
      s.handled.map (·.commitStart) = [200] ∧
      (userTransaction 100 208 "b").commitStart < s.confirmed ∧
      (userTransaction 100 208 "b").commitStart < session.capture.durableLSN ∧
      session.stream.length = 0 :=
  ⟨_, _, rfl, rfl, rfl, by decide, by decide, rfl⟩

/-- With 40 bytes between the commit records the second transaction is sent again. -/
theorem distant_commit_resent :
    ∃ s, Machine.run
        (step (usersCapture false) [userTransaction 150 200 "a", userTransaction 100 240 "b"])
        (initial 50) restartAfterFirst = some s ∧
      ∀ tx ∈ [userTransaction 150 200 "a", userTransaction 100 240 "b"], tx ∉ s.handled →
        s.confirmed ≤ tx.commitStart ∧
          ∀ session, s.session = some session → session.capture.durableLSN ≤ tx.commitStart := by
  have ran : Machine.run (step (usersCapture false) [userTransaction 150 200 "a",
      userTransaction 100 240 "b"]) (initial 50) restartAfterFirst = some _ := rfl
  refine ⟨_, ran, flushed_le_unhandled_commit (by decide) ?_ ?_ ran⟩
  · simp [userTransaction]
  · exact List.pairwise_pair.mpr (by decide)

end Transmogr.CaptureResume
