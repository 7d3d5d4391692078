import Transmogr.CaptureOrder

/-! Whole runs of the capture loop: which batches a stream of messages hands over, and by which
relation messages their changes are read. -/
namespace Transmogr.CaptureRun

open Sql

/-- What `ReceiveMessage` returns. A keepalive only decides when the next status is sent. -/
inductive Received where
  | keepalive (replyRequested : Bool)
  | xlog (data : XLogData)

/-- How far a run got: the calls of `onBatch`, the state it left and the error returned. -/
structure Run where
  calls : List ChangefeedBatch
  state : CaptureState
  err : Option String

/-- The call of `onBatch` that a message makes. -/
def callOf (s : CaptureState) (xld : XLogData) : List ChangefeedBatch :=
  if xld.message.isCommit then s.pendingBatch.toList else []

/-- `Run` over what it receives; `onBatch` answers from the batches it has seen. -/
def run (cfg : CaptureConfig) (onBatch : List ChangefeedBatch → ChangefeedBatch → Except String Unit) :
    CaptureState → List ChangefeedBatch → List Received → Run
  | s, calls, [] => ⟨calls, s, none⟩
  | s, calls, .keepalive _ :: stream => run cfg onBatch s calls stream
  | s, calls, .xlog xld :: stream =>
    match captureStep cfg (onBatch calls) s xld with
    | .error err => ⟨calls ++ callOf s xld, s, some err⟩
    | .ok next => run cfg onBatch next (calls ++ callOf s xld) stream

/-- The logical messages of a stream. -/
def xlogs : List Received → List XLogData
  | [] => []
  | .keepalive _ :: stream => xlogs stream
  | .xlog xld :: stream => xld :: xlogs stream

/-- What a message does to the relation cache. -/
def announce (cfg : CaptureConfig) (s : CaptureState) (xld : XLogData) : CaptureState :=
  match xld.message with
  | .relation relationID schema relationName columns =>
    match resolveRelation cfg schema relationName columns with
    | .ok (some relation) => s.addRelation relationID relation
    | _ => s
  | _ => s

/-- The cache after the messages seen, all else as at the start. -/
def cacheAfter (cfg : CaptureConfig) (seen : List XLogData) : CaptureState :=
  seen.foldl (announce cfg) (.initial 0)

/-- The message is neither Begin nor Commit. -/
def isInner : LogicalMessage → Bool
  | .begin _ | .commit => false
  | _ => true

/-- No builder fails on the message, and its relation can be resolved. -/
def Succeeds (cfg : CaptureConfig) (relations : Relations) (xld : XLogData) : Prop :=
  (∃ change, changeOf cfg relations xld = .ok change) ∧
    ∀ relationID schema relationName columns,
      xld.message = .relation relationID schema relationName columns →
        ∃ relation, resolveRelation cfg schema relationName columns = .ok relation

/-- The changes the builders accept of the messages after those seen, in their order. -/
def changesOf (cfg : CaptureConfig) : List XLogData → List XLogData → List ChangefeedChange
  | _, [] => []
  | seen, xld :: stream =>
    (match changeOf cfg (cacheAfter cfg seen).relations xld with
      | .ok change => change.toList
      | .error _ => []) ++ changesOf cfg (seen ++ [xld]) stream

/-- No builder fails on the messages after those seen. -/
def AllSucceed (cfg : CaptureConfig) (seen stream : List XLogData) : Prop :=
  ∀ before xld after, stream = before ++ xld :: after →
    Succeeds cfg (cacheAfter cfg (seen ++ before)).relations xld

def SameCache (s t : CaptureState) : Prop :=
  s.relations = t.relations ∧ s.relationIDByTable = t.relationIDByTable

section Steps

variable {cfg : CaptureConfig} {onBatch : ChangefeedBatch → Except String Unit} {s : CaptureState}
  {xld : XLogData}

/-- Inside a transaction a message moves the cache and adds the change built of it. -/
theorem captureStep_inner (inner : isInner xld.message = true)
    (succeeds : Succeeds cfg s.relations xld) {change : Option ChangefeedChange}
    (built : changeOf cfg s.relations xld = .ok change) :
    captureStep cfg onBatch s xld =
      .ok { announce cfg s xld with txChanges := s.txChanges ++ change.toList } := by
  cases message : xld.message with
  | relation id schema name columns =>
    obtain ⟨relation, resolved⟩ := succeeds.2 _ _ _ _ message
    simp only [changeOf, message] at built
    cases built
    cases relation <;>
      simp [captureStep, message, announce, resolved, bind, Except.bind, pure, Except.pure,
        CaptureState.addRelation]
  | insert | update | delete =>
    simp only [changeOf, message] at built
    simp only [captureStep, message, built, announce, bind, Except.bind, pure, Except.pure,
      CaptureState.append]
  | other =>
    simp only [changeOf, message] at built
    cases built
    simp [captureStep, message, announce]
  | begin | commit => simp [message, isInner] at inner

theorem captureStep_begin {finalLSN : Nat} (message : xld.message = .begin finalLSN) :
    captureStep cfg onBatch s xld = .ok { s with txChanges := [], txID := cfg.lsnString finalLSN } := by
  simp only [captureStep, message]

/-- Every message that does not fail moves the cache as announced. -/
theorem captureStep_cache {next : CaptureState} (ok : captureStep cfg onBatch s xld = .ok next) :
    SameCache next (announce cfg s xld) := by
  cases message : xld.message with
  | relation id schema name columns =>
    simp only [captureStep, message] at ok
    obtain ⟨resolved, found, ok⟩ := Fallible.bind_eq_ok.mp ok
    cases resolved <;> cases ok <;> simp [SameCache, announce, message, found]
  | insert | update | delete =>
    simp only [captureStep, message] at ok
    obtain ⟨_, _, ok⟩ := Fallible.bind_eq_ok.mp ok
    cases ok
    simp [SameCache, announce, message, CaptureState.append]
  | begin | other =>
    simp only [captureStep, message] at ok
    cases ok
    simp [SameCache, announce, message]
  | commit =>
    obtain ⟨_, rfl⟩ := (captureStep_commit message).mp ok
    simp [SameCache, announce, message]

theorem announce_same {t : CaptureState} (same : SameCache s t) :
    SameCache (announce cfg s xld) (announce cfg t xld) := by
  unfold announce
  split
  · split
    · simp only [SameCache, CaptureState.addRelation, same.1, same.2, and_self]
    · exact same
  · exact same

theorem announce_txID : (announce cfg s xld).txID = s.txID := by
  unfold announce
  split
  · split <;> rfl
  · rfl

theorem announce_durableLSN : (announce cfg s xld).durableLSN = s.durableLSN := by
  unfold announce
  split
  · split <;> rfl
  · rfl

/-- No message but Commit says that anything is durable. -/
theorem captureStep_open (noCommit : xld.message.isCommit = false)
    (succeeds : Succeeds cfg s.relations xld) :
    ∃ next, captureStep cfg onBatch s xld = .ok next ∧ next.durableLSN = s.durableLSN := by
  cases kind : isInner xld.message with
  | true =>
    obtain ⟨change, built⟩ := succeeds.1
    exact ⟨_, captureStep_inner kind succeeds built, announce_durableLSN⟩
  | false =>
    cases message : xld.message with
    | begin lsn => exact ⟨_, captureStep_begin message, rfl⟩
    | commit => simp [message, LogicalMessage.isCommit] at noCommit
    | _ => simp [message, isInner] at kind

theorem cacheAfter_append (seen stream : List XLogData) :
    cacheAfter cfg (seen ++ stream) = stream.foldl (announce cfg) (cacheAfter cfg seen) :=
  List.foldl_append

theorem AllSucceed.split {seen before after : List XLogData}
    (all : AllSucceed cfg seen (before ++ after)) :
    AllSucceed cfg seen before ∧ AllSucceed cfg (seen ++ before) after := by
  constructor
  · intro earlier xld later split
    exact all earlier xld (later ++ after) (by rw [split, List.append_assoc, List.cons_append])
  · intro earlier xld later split
    have := all (before ++ earlier) xld later (by rw [split, List.append_assoc])
    rwa [← List.append_assoc] at this

end Steps

section Runs

variable {cfg : CaptureConfig}
  {onBatch : List ChangefeedBatch → ChangefeedBatch → Except String Unit}
  {s : CaptureState} {calls : List ChangefeedBatch}

/-- Keepalives change nothing. -/
theorem run_xlogs (stream : List Received) :
    run cfg onBatch s calls stream = run cfg onBatch s calls ((xlogs stream).map .xlog) := by
  induction stream generalizing s calls with
  | nil => rfl
  | cons received stream ih =>
    cases received with
    | keepalive => exact ih
    | xlog xld =>
      rw [xlogs, List.map_cons, run, run]
      split
      · rfl
      · exact ih

theorem run_inner {body rest seen : List XLogData} (inner : ∀ xld ∈ body, isInner xld.message = true)
    (succeed : AllSucceed cfg seen body) (same : SameCache s (cacheAfter cfg seen)) :
    ∃ next : CaptureState, SameCache next (cacheAfter cfg (seen ++ body)) ∧
      next.txChanges = s.txChanges ++ changesOf cfg seen body ∧ next.txID = s.txID ∧
      next.durableLSN = s.durableLSN ∧
      run cfg onBatch s calls ((body ++ rest).map .xlog) =
        run cfg onBatch next calls (rest.map .xlog) := by
  induction body generalizing s seen with
  | nil => exact ⟨s, by rwa [List.append_nil], by simp [changesOf], rfl, rfl, rfl⟩
  | cons xld body ih =>
    obtain ⟨first, others⟩ := @AllSucceed.split _ _ [xld] _ succeed
    obtain ⟨innerXld, innerBody⟩ := List.forall_mem_cons.mp inner
    have succeeds := first [] xld [] rfl
    rw [List.append_nil, ← same.1] at succeeds
    obtain ⟨change, built⟩ := succeeds.1
    have step := @captureStep_inner _ (onBatch calls) _ _ innerXld succeeds _ built
    have silent : callOf s xld = [] := by
      cases message : xld.message <;> simp_all [callOf, isInner, LogicalMessage.isCommit]
    have moved : SameCache { announce cfg s xld with txChanges := s.txChanges ++ change.toList }
        (cacheAfter cfg (seen ++ [xld])) := by
      rw [cacheAfter_append]
      exact announce_same same
    obtain ⟨next, cache, changes, tx, durable, ran⟩ := ih innerBody others moved
    refine ⟨next, by simpa using cache, ?_, tx.trans announce_txID, durable.trans announce_durableLSN, ?_⟩
    · rw [changes, changesOf, ← same.1, built, List.append_assoc]
    · rw [List.cons_append, List.map_cons, run, step, silent, List.append_nil]
      exact ran

end Runs

/-! ## Transactions -/

/-- A transaction of the stream: what stands between a Begin and its Commit. -/
structure Transaction where
  beginStart : Nat
  beginLength : Nat
  finalLSN : Nat
  body : List XLogData
  inner : ∀ xld ∈ body, isInner xld.message = true
  commitStart : Nat
  commitLength : Nat

namespace Transaction

def begin (tx : Transaction) : XLogData := ⟨tx.beginStart, tx.beginLength, .begin tx.finalLSN⟩

def commit (tx : Transaction) : XLogData := ⟨tx.commitStart, tx.commitLength, .commit⟩

def messages (tx : Transaction) : List XLogData := tx.begin :: tx.body ++ [tx.commit]

/-- The changes the builders accept between Begin and Commit, after the messages seen before. -/
def changes (cfg : CaptureConfig) (seen : List XLogData) (tx : Transaction) :
    List ChangefeedChange :=
  changesOf cfg (seen ++ [tx.begin]) tx.body

/-- The batch of a transaction with changes: under the ID of its Begin. -/
def batch (cfg : CaptureConfig) (seen : List XLogData) (tx : Transaction) : Option ChangefeedBatch :=
  if (tx.changes cfg seen).isEmpty then none
  else some ⟨cfg.lsnString tx.finalLSN, tx.changes cfg seen⟩

end Transaction

/-- The batches of transactions in commit order. -/
def batches (cfg : CaptureConfig) : List XLogData → List Transaction → List ChangefeedBatch
  | _, [] => []
  | seen, tx :: txs => (tx.batch cfg seen).toList ++ batches cfg (seen ++ tx.messages) txs

/-- Where the last of the transactions ends. -/
def durableAfter (startLSN : Nat) (txs : List Transaction) : Nat :=
  txs.getLast?.elim startLSN (·.commit.nextLSN)

section Transactions

variable {cfg : CaptureConfig}
  {onBatch : List ChangefeedBatch → ChangefeedBatch → Except String Unit}
  {s : CaptureState} {calls : List ChangefeedBatch} {seen rest : List XLogData} {tx : Transaction}

/-- Whatever the state before, a transaction hands over its own changes under its own ID. -/
theorem run_transaction (succeed : AllSucceed cfg seen tx.messages)
    (same : SameCache s (cacheAfter cfg seen)) :
    (∃ next : CaptureState, SameCache next (cacheAfter cfg (seen ++ tx.messages)) ∧
      next.durableLSN = tx.commit.nextLSN ∧
      (∀ batch, tx.batch cfg seen = some batch → onBatch calls batch = .ok ()) ∧
      run cfg onBatch s calls ((tx.messages ++ rest).map .xlog) =
        run cfg onBatch next (calls ++ (tx.batch cfg seen).toList) (rest.map .xlog)) ∨
    ∃ batch err, tx.batch cfg seen = some batch ∧ onBatch calls batch = .error err ∧
      ∃ state : CaptureState, state.durableLSN = s.durableLSN ∧
        run cfg onBatch s calls ((tx.messages ++ rest).map .xlog) =
          ⟨calls ++ [batch], state, some err⟩ := by
  obtain ⟨-, others⟩ := @AllSucceed.split _ _ [tx.begin] (tx.body ++ [tx.commit]) succeed
  -- Begin empties the buffer and sets the ID
  have opened : SameCache { s with txChanges := [], txID := cfg.lsnString tx.finalLSN }
      (cacheAfter cfg (seen ++ [tx.begin])) := by
    rw [cacheAfter_append]
    exact same
  obtain ⟨last, cache, changes, txID, durable, ran⟩ := @run_inner cfg onBatch _ calls _
    (tx.commit :: rest) _ tx.inner others.split.1 opened
  have reached : run cfg onBatch s calls ((tx.messages ++ rest).map .xlog) =
      run cfg onBatch last calls ((tx.commit :: rest).map .xlog) := by
    rw [← ran, Transaction.messages, List.append_assoc, List.cons_append, List.map_cons, run,
      captureStep_begin rfl]
    simp [callOf, Transaction.begin, LogicalMessage.isCommit]
  have pending : last.pendingBatch = tx.batch cfg seen := by
    rw [CaptureState.pendingBatch, changes, txID]
    rfl
  have call : callOf last tx.commit = (tx.batch cfg seen).toList := by
    rw [← pending]
    rfl
  rw [reached, List.map_cons, run, call]
  by_cases refused : ∃ batch err, tx.batch cfg seen = some batch ∧ onBatch calls batch = .error err
  · obtain ⟨batch, err, made, failed⟩ := refused
    have step : captureStep cfg (onBatch calls) last tx.commit = .error err := by
      simp [captureStep, Transaction.commit, pending, made, failed, bind, Except.bind]
    rw [step, made]
    exact .inr ⟨batch, err, rfl, failed, last, durable, rfl⟩
  · have accepted : ∀ batch, tx.batch cfg seen = some batch → onBatch calls batch = .ok () := by
      intro batch made
      cases answer : onBatch calls batch with
      | ok => rfl
      | error err => exact absurd ⟨batch, err, made, answer⟩ refused
    have step : captureStep cfg (onBatch calls) last tx.commit = .ok _ :=
      (captureStep_commit rfl).mpr ⟨pending ▸ accepted, rfl⟩
    have closed : seen ++ tx.messages = seen ++ [tx.begin] ++ tx.body ++ [tx.commit] := by
      simp [Transaction.messages]
    rw [step]
    refine .inl ⟨_, ?_, rfl, accepted, rfl⟩
    rw [closed, cacheAfter_append]
    exact cache

/-- Without a Commit nothing is handed over. -/
theorem run_unfinished {unfinished : List XLogData}
    (open_ : ∀ xld ∈ unfinished, xld.message.isCommit = false)
    (succeed : AllSucceed cfg seen unfinished) (same : SameCache s (cacheAfter cfg seen)) :
    (run cfg onBatch s calls (unfinished.map .xlog)).err = none ∧
      (run cfg onBatch s calls (unfinished.map .xlog)).calls = calls ∧
      (run cfg onBatch s calls (unfinished.map .xlog)).state.durableLSN = s.durableLSN := by
  induction unfinished generalizing s seen with
  | nil => exact ⟨rfl, rfl, rfl⟩
  | cons xld rest ih =>
    obtain ⟨first, others⟩ := @AllSucceed.split _ _ [xld] _ succeed
    obtain ⟨noCommit, openRest⟩ := List.forall_mem_cons.mp open_
    have silent : callOf s xld = [] := by simp [callOf, noCommit]
    have succeeds := first [] xld [] rfl
    rw [List.append_nil, ← same.1] at succeeds
    obtain ⟨next, step, durable⟩ := @captureStep_open cfg (onBatch calls) s xld noCommit succeeds
    have cache := captureStep_cache step
    have moved : SameCache next (cacheAfter cfg (seen ++ [xld])) := by
      rw [cacheAfter_append]
      have after := @announce_same cfg s xld _ same
      exact ⟨cache.1.trans after.1, cache.2.trans after.2⟩
    rw [List.map_cons, run, step, silent, List.append_nil, ← durable]
    exact ih openRest others moved

theorem durableAfter_cons (startLSN : Nat) (tx : Transaction) (txs : List Transaction) :
    durableAfter startLSN (tx :: txs) = durableAfter tx.commit.nextLSN txs := by
  rw [durableAfter, durableAfter, List.getLast?_cons]
  cases txs.getLast? <;> rfl

/-- What a run over whole transactions comes to: all batches are handed over, or the run ends with
the first one that `onBatch` refuses. -/
inductive Outcome (cfg : CaptureConfig)
    (onBatch : List ChangefeedBatch → ChangefeedBatch → Except String Unit) (startLSN : Nat)
    (calls : List ChangefeedBatch) (seen : List XLogData) (txs : List Transaction) (result : Run) :
    Prop where
  | all (clean : result.err = none) (made : result.calls = calls ++ batches cfg seen txs)
      (durable : result.state.durableLSN = durableAfter startLSN txs)
  | refused (done : List Transaction) (tx : Transaction) (later : List Transaction)
      (batch : ChangefeedBatch) (err : String) (split : txs = done ++ tx :: later)
      (own : tx.batch cfg (seen ++ done.flatMap Transaction.messages) = some batch)
      (failed : onBatch (calls ++ batches cfg seen done) batch = .error err)
      (returned : result.err = some err)
      (made : result.calls = calls ++ batches cfg seen done ++ [batch])
      (durable : result.state.durableLSN = durableAfter startLSN done)

theorem run_outcome {txs : List Transaction} {unfinished : List XLogData}
    (open_ : ∀ xld ∈ unfinished, xld.message.isCommit = false)
    (succeed : AllSucceed cfg seen (txs.flatMap Transaction.messages ++ unfinished))
    (same : SameCache s (cacheAfter cfg seen)) :
    Outcome cfg onBatch s.durableLSN calls seen txs
      (run cfg onBatch s calls ((txs.flatMap Transaction.messages ++ unfinished).map .xlog)) := by
  induction txs generalizing s calls seen with
  | nil =>
    obtain ⟨clean, made, durable⟩ := @run_unfinished cfg onBatch s calls seen _ open_ succeed same
    exact .all clean (by rw [batches, List.append_nil]; exact made) durable
  | cons tx txs ih =>
    rw [List.flatMap_cons, List.append_assoc] at succeed ⊢
    obtain ⟨first, others⟩ := succeed.split
    rcases @run_transaction cfg onBatch s calls seen (txs.flatMap Transaction.messages ++ unfinished) tx
      first same with ⟨next, cache, ends, -, ran⟩ | ⟨batch, err, own, failed, state, durable, ran⟩
    · rw [ran]
      have onward := @ih next (calls ++ (tx.batch cfg seen).toList) (seen ++ tx.messages) others cache
      rw [ends] at onward
      cases onward with
      | all clean made durable =>
        exact .all clean (by rw [made, batches, List.append_assoc])
          (durable.trans (durableAfter_cons ..).symm)
      | refused done other later batch err split own failed returned made durable =>
        refine .refused (tx :: done) other later batch err (by rw [split, List.cons_append]) ?_ ?_ returned ?_
          (durable.trans (durableAfter_cons ..).symm)
        · simpa using own
        · simpa [batches] using failed
        · simpa [batches] using made
    · rw [ran]
      refine .refused [] tx txs batch err rfl ?_ ?_ rfl ?_ durable
      · simpa using own
      · simpa [batches] using failed
      · simp [batches]

/-- A stream of whole transactions, mixed with keepalives, makes one call of `onBatch` for each
transaction that has an accepted change: under the ID of its Begin, with the changes accepted between
Begin and Commit in the order of their messages. If a call fails it is the last one, and the durable
position stays where the transactions before it left it. -/
theorem run_batches {startLSN : Nat} {stream : List Received} {txs : List Transaction}
    {unfinished : List XLogData}
    (bracketed : xlogs stream = txs.flatMap Transaction.messages ++ unfinished)
    (open_ : ∀ xld ∈ unfinished, xld.message.isCommit = false)
    (succeed : AllSucceed cfg [] (xlogs stream)) :
    Outcome cfg onBatch startLSN [] [] txs (run cfg onBatch (.initial startLSN) [] stream) := by
  rw [run_xlogs, bracketed]
  rw [bracketed] at succeed
  exact @run_outcome cfg onBatch (.initial startLSN) [] [] txs unfinished open_ succeed ⟨rfl, rfl⟩

end Transactions

theorem AllSucceed.nil {cfg : CaptureConfig} {seen : List XLogData} : AllSucceed cfg seen [] := by
  intro before xld after split
  simp at split

theorem AllSucceed.cons {cfg : CaptureConfig} {seen rest : List XLogData} {xld : XLogData}
    (first : Succeeds cfg (cacheAfter cfg seen).relations xld)
    (others : AllSucceed cfg (seen ++ [xld]) rest) : AllSucceed cfg seen (xld :: rest) := by
  intro before other after split
  cases before with
  | nil =>
    obtain ⟨rfl, -⟩ := List.cons.inj split
    rwa [List.append_nil]
  | cons head before =>
    obtain ⟨rfl, tails⟩ := List.cons.inj split
    simpa using others before other after tails

/-- The relation message of the users and one insert. -/
def userInserted (start : Nat) (id : String) : Transaction where
  beginStart := start
  beginLength := 21
  finalLSN := start + 100
  body := [CaptureOrder.usersRelation,
    ⟨start + 50, 30, .insert 1 (some [⟨.text, id⟩, ⟨.text, "ann"⟩, ⟨.text, "eu"⟩])⟩]
  inner := by
    intro xld mem
    rcases List.mem_pair.mp mem with rfl | rfl <;> rfl
  commitStart := start + 108
  commitLength := 26

/-- Has room for one batch. -/
def takesOne (calls : List ChangefeedBatch) (_ : ChangefeedBatch) : Except String Unit :=
  if calls.isEmpty then .ok () else .error "full"

/-- Of two transactions the first is taken and the second refused. -/
theorem run_batches_users :
    let txs := [userInserted 100 "a", userInserted 300 "b"]
    let result := run (usersCapture false) takesOne (.initial 50) []
      (.keepalive true :: (txs.flatMap Transaction.messages).map .xlog)
    Outcome (usersCapture false) takesOne 50 [] [] txs result ∧
      result.calls.map (fun batch => (batch.txID, batch.changes.length)) = [("0/C8", 1), ("0/190", 1)] ∧
      result.err = some "full" ∧ result.state.durableLSN = 234 := by
  refine ⟨@run_batches _ _ _ _ _ [] rfl nofun ?_, by decide, rfl, rfl⟩
  refine .cons ⟨⟨_, rfl⟩, ?_⟩ (.cons ⟨⟨_, rfl⟩, ?_⟩ (.cons ⟨⟨_, rfl⟩, ?_⟩ (.cons ⟨⟨_, rfl⟩, ?_⟩
    (.cons ⟨⟨_, rfl⟩, ?_⟩ (.cons ⟨⟨_, rfl⟩, ?_⟩ (.cons ⟨⟨_, rfl⟩, ?_⟩ (.cons ⟨⟨_, rfl⟩, ?_⟩ .nil)))))))
  all_goals
    intro id schema name columns message
    cases message
  all_goals exact ⟨_, rfl⟩

end Transmogr.CaptureRun
