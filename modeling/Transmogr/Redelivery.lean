import Transmogr.Commit

/-! In-order at-least-once delivery has the effect of delivering every batch
once: a batch delivered again finds every event behind its cursor. -/
namespace Transmogr.Redelivery

open Sql

/-- The contiguous run of batches with index at least `i` and below `j`. -/
def run (batches : List Batch) (i j : Nat) : List Batch := (batches.take j).drop i

/-- Deliveries made of runs, each starting at or before the first batch not yet
applied. `Schedule batches k deliveries m`: with the first `k` batches applied
before, the first `m` are applied after. -/
inductive Schedule (batches : List Batch) : Nat → List Batch → Nat → Prop
  | done (k : Nat) : Schedule batches k [] k
  | run {k m : Nat} {rest : List Batch} (i j : Nat) (start : i ≤ k) (ordered : i ≤ j)
      (bound : j ≤ batches.length) (tail : Schedule batches (max k j) rest m) :
      Schedule batches k (run batches i j ++ rest) m

variable {V : Type} [DecidableEq V] {repo : Repository} {server : Server V}
  {mode : ReplicationApplyMode} {batches : List Batch} {store store' : Store V}

/-- Every event of the batch that the mode allows is behind its cursor. -/
def BatchSettled (mode : ReplicationApplyMode) (cursors : Cursors) (batch : Batch) : Prop :=
  ∃ prepared, prepareEvents mode batch.events = .ok prepared ∧
    ∀ event ∈ prepared, Settled cursors event

/-- The keys of the batch are typed, and the store returns them as given. -/
def KeyedBatch (batch : Batch) : Prop :=
  ∀ event ∈ batch.events, event.Typed ∧ event.Kept

theorem KeyedBatch.ordered {batch : Batch} (keyed : KeyedBatch batch)
    {prepared : List ReplicationEvent} (ok : prepareEvents mode batch.events = .ok prepared) :
    ∀ event ∈ commitOrder batch.kind prepared, event.Typed ∧ event.Kept := fun event mem =>
  prepareEvents_keys (P := fun key => TypedKey key ∧ storedKey key = key) keyed ok event
    (mem_commitOrder.mp mem)

theorem applyBatch_of_settled {batch : Batch} (settled : BatchSettled mode store.cursors batch) :
    applyBatch repo server mode batch.kind batch.events store = .ok store := by
  obtain ⟨prepared, ok, settled⟩ := settled
  refine applyBatch_eq_ok.mpr ⟨prepared, ok, ?_⟩
  split
  · rfl
  · exact commit_of_settled fun e mem => settled e (mem_commitOrder.mp mem)

theorem deliver_of_settled (settled : ∀ batch ∈ batches, BatchSettled mode store.cursors batch) :
    deliver repo server mode batches store = .ok store := by
  induction batches with
  | nil => rfl
  | cons batch batches ih =>
    refine Fallible.bind_eq_ok.mpr
      ⟨store, applyBatch_of_settled (settled batch List.mem_cons_self), ?_⟩
    exact ih fun b mem => settled b (List.mem_cons_of_mem _ mem)

theorem run_split {i j k : Nat} (start : i ≤ k) (beyond : k ≤ j) (bound : k ≤ batches.length) :
    batches.take j = batches.take k ++ run batches k j ∧
      run batches i j = run batches i k ++ run batches k j := by
  have split : batches.take j = batches.take k ++ run batches k j := by
    conv_lhs => rw [← List.take_append_drop k (batches.take j)]
    rw [List.take_take, min_eq_left beyond]
    rfl
  refine ⟨split, ?_⟩
  have inside : i ≤ (batches.take k).length := by
    rw [List.length_take]
    omega
  rw [run, split, List.drop_append_of_le_length inside]
  rfl

section Typed

variable (typed : TypedCursors store.cursors)

include typed

theorem applyBatch_typed {batch : Batch} (batchKeyed : KeyedBatch batch)
    (ok : applyBatch repo server mode batch.kind batch.events store = .ok store') :
    TypedCursors store'.cursors := by
  obtain ⟨prepared, prepare, result⟩ := applyBatch_eq_ok.mp ok
  split at result
  · rw [result]; exact typed
  · exact commit_typed typed (fun e mem => (batchKeyed.ordered prepare e mem).1) result

/-- Applying a batch settles its events and keeps settled batches settled. -/
theorem applyBatch_settles {batch other : Batch} (batchKeyed : KeyedBatch batch)
    (otherKeyed : KeyedBatch other)
    (ok : applyBatch repo server mode batch.kind batch.events store = .ok store')
    (behind : other = batch ∨ BatchSettled mode store.cursors other) :
    BatchSettled mode store'.cursors other := by
  obtain ⟨prepared, prepare, result⟩ := applyBatch_eq_ok.mp ok
  have keep : ∀ event : ReplicationEvent, event.Typed →
      (event ∈ prepared ∨ Settled store.cursors event) → Settled store'.cursors event := by
    intro event eventTyped behind
    split at result
    · next empty =>
      rw [result]
      exact behind.resolve_left (by simp [List.isEmpty_iff.mp empty])
    · exact commit_settles typed (fun e mem => (batchKeyed.ordered prepare e mem).1)
        (fun e mem => (batchKeyed.ordered prepare e mem).2) result eventTyped
        (behind.imp_left mem_commitOrder.mpr)
  rcases behind with rfl | ⟨others, othersOk, settled⟩
  · exact ⟨prepared, prepare, fun e mem =>
      keep e (otherKeyed.ordered prepare e (mem_commitOrder.mpr mem)).1 (Or.inl mem)⟩
  · exact ⟨others, othersOk, fun e mem =>
      keep e (otherKeyed.ordered othersOk e (mem_commitOrder.mpr mem)).1 (Or.inr (settled e mem))⟩

variable (batchesKeyed : ∀ batch ∈ batches, KeyedBatch batch)

include batchesKeyed

/-- After a delivery all its batches are settled. -/
theorem deliver_settles {other : Batch} (otherKeyed : KeyedBatch other)
    (ok : deliver repo server mode batches store = .ok store')
    (behind : other ∈ batches ∨ BatchSettled mode store.cursors other) :
    BatchSettled mode store'.cursors other := by
  induction batches generalizing store with
  | nil =>
    cases ok
    exact behind.resolve_left List.not_mem_nil
  | cons batch batches ih =>
    obtain ⟨mid, head, tail⟩ := Fallible.bind_eq_ok.mp ok
    have headKeyed := batchesKeyed batch List.mem_cons_self
    refine ih (applyBatch_typed typed headKeyed head)
      (fun b mem => batchesKeyed b (List.mem_cons_of_mem _ mem)) tail ?_
    rcases behind with mem | settled
    · rcases List.mem_cons.mp mem with rfl | mem
      · exact Or.inr (applyBatch_settles typed headKeyed otherKeyed head (Or.inl rfl))
      · exact Or.inl mem
    · exact Or.inr (applyBatch_settles typed headKeyed otherKeyed head (Or.inr settled))

/-- Delivering a run from the state after the first `k` batches reaches the
state after the first `max k j`. -/
theorem deliver_run {mid after : Store V} {i j k : Nat} (start : i ≤ k) (bound : k ≤ batches.length)
    (reached : deliver repo server mode (batches.take k) store = .ok mid)
    (target : deliver repo server mode (batches.take (max k j)) store = .ok after) :
    deliver repo server mode (run batches i j) mid = .ok after := by
  have replayed : ∀ j ≤ k, deliver repo server mode (run batches i j) mid = .ok mid := by
    intro j within
    refine deliver_of_settled fun batch mem => ?_
    have memTake : batch ∈ batches.take k :=
      List.take_subset_take_left _ within (List.mem_of_mem_drop mem)
    exact deliver_settles typed (fun b mem => batchesKeyed b (List.mem_of_mem_take mem))
      (batchesKeyed batch (List.mem_of_mem_take memTake)) reached (Or.inl memTake)
  rcases Nat.le_total j k with within | beyond
  · rw [max_eq_left within, reached] at target
    cases target
    exact replayed j within
  · obtain ⟨split, runs⟩ := run_split start beyond bound
    rw [max_eq_right beyond, split] at target
    obtain ⟨mid', reached', rest⟩ := deliver_append.mp target
    rw [reached] at reached'
    cases reached'
    rw [runs]
    exact deliver_append.mpr ⟨mid, replayed k le_rfl, rest⟩

theorem deliver_schedule {mid final : Store V} {deliveries : List Batch} {k : Nat}
    (once : deliver repo server mode batches store = .ok final)
    (schedule : Schedule batches k deliveries batches.length) (bound : k ≤ batches.length)
    (reached : deliver repo server mode (batches.take k) store = .ok mid) :
    deliver repo server mode deliveries mid = .ok final := by
  generalize whole : batches.length = m at schedule
  induction schedule generalizing mid with
  | done k =>
    rw [← whole, List.take_length, once] at reached
    cases reached
    rfl
  | run i j start ordered jBound tail ih =>
    have once' := once
    rw [← List.take_append_drop (max _ j) batches] at once'
    obtain ⟨after, target, _⟩ := deliver_append.mp once'
    have bound' := max_le bound jBound
    exact deliver_append.mpr ⟨after, deliver_run typed batchesKeyed start bound reached target,
      ih bound' target whole⟩

end Typed

/-- Every schedule that delivers all batches ends in the store that one
delivery of each batch produces: the same rows and the same cursors. The order
of positions inside and across the batches does not matter for this. -/
theorem redelivery_has_exactly_once_effect {final : Store V} {deliveries : List Batch}
    (wire : ∀ batch ∈ batches, ∀ event ∈ batch.events, WireKey event.primaryKey)
    (returned : ∀ batch ∈ batches, ∀ event ∈ batch.events,
      storedKey event.primaryKey = event.primaryKey)
    (stored : ∀ r t cursor, store.cursors r t = some cursor → WireKey cursor.lastPrimaryKey)
    (once : deliver repo server mode batches store = .ok final)
    (schedule : Schedule batches 0 deliveries batches.length) :
    deliver repo server mode deliveries store = .ok final :=
  deliver_schedule (fun r t cursor eq => (stored r t cursor eq).typed)
    (fun batch mem event memEvent =>
      ⟨(wire batch mem event memEvent).typed, returned batch mem event memEvent⟩)
    once schedule (Nat.zero_le _) rfl

/-- Two batches for one user, the first delivered three times. -/
theorem redelivered_user_batches :
    ∃ final : Store String,
      deliver usersRepository usersServer .fullSync
        [⟨.eventBatch, [userEvent "eu" "1" 1 "ann"]⟩, ⟨.transactionBatch, [userEvent "eu" "1" 2 "bob"]⟩]
        (.empty String) = .ok final ∧
      deliver usersRepository usersServer .fullSync
        [⟨.eventBatch, [userEvent "eu" "1" 1 "ann"]⟩, ⟨.eventBatch, [userEvent "eu" "1" 1 "ann"]⟩,
          ⟨.transactionBatch, [userEvent "eu" "1" 2 "bob"]⟩,
          ⟨.eventBatch, [userEvent "eu" "1" 1 "ann"]⟩]
        (.empty String) = .ok final := by
  let batches : List Batch := [⟨.eventBatch, [userEvent "eu" "1" 1 "ann"]⟩,
    ⟨.transactionBatch, [userEvent "eu" "1" 2 "bob"]⟩]
  let store : Store String := .empty String
  have succeeds : (deliver usersRepository usersServer .fullSync batches store).toOption.isSome := by
    decide
  cases once : deliver usersRepository usersServer .fullSync batches store with
  | error err => rw [once] at succeeds; cases succeeds
  | ok final =>
    have events : ∀ batch ∈ batches, ∀ event ∈ batch.events, event.primaryKey = userKey "1" := by
      decide
    have schedule : Schedule batches 0 (run batches 0 1 ++ (run batches 0 2 ++
        (run batches 0 1 ++ []))) 2 :=
      .run 0 1 (by decide) (by decide) (by decide)
        (.run 0 2 (by decide) (by decide) (by decide)
          (.run 0 1 (by decide) (by decide) (by decide) (.done 2)))
    refine ⟨final, rfl, redelivery_has_exactly_once_effect ?_ ?_ ?_ once schedule⟩
    · intro batch mem event memEvent
      rw [events batch mem event memEvent]
      exact userKey_wire "1"
    · intro batch mem event memEvent
      rw [events batch mem event memEvent]
      decide
    · intro r t cursor eq
      cases eq

end Transmogr.Redelivery
