import Mathlib.Data.List.Induction
import Transmogr.Skipping

/-! One received batch whose events ascend within each pair of peer region and
table: what is applied, what is left out, and where the cursors end. -/
namespace Transmogr

open Sql

def pairIs (r t : String) (e : ReplicationEvent) : Bool := e.peerRegion = r ∧ e.table = t

/-- After cursors set in order, a pair has the last one set for it. -/
theorem readCursor_foldl_set {f : ReplicationEvent → StateCursor}
    (pairs : ∀ e, (f e).peerRegion = e.peerRegion ∧ (f e).table = e.table) (cursors : Cursors)
    (events : List ReplicationEvent) (r t : String) :
    readCursor (events.foldl (fun cursors e => setCursor cursors (f e)) cursors) r t =
      ((events.filter (pairIs r t)).getLast?.map f).getD (readCursor cursors r t) := by
  induction events using List.reverseRecOn with
  | nil => rfl
  | append_singleton events last ih =>
    rw [List.foldl_append, List.foldl_cons, List.foldl_nil, List.filter_append]
    by_cases same : pairIs r t last
    · obtain ⟨rfl, rfl⟩ := of_decide_eq_true same
      simp [readCursor, setCursor, pairs, same]
    · have differ : ¬ (r = (f last).peerRegion ∧ t = (f last).table) := by
        rw [(pairs last).1, (pairs last).2]
        intro h
        exact same (decide_eq_true ⟨h.1.symm, h.2.symm⟩)
      have other : ∀ c : Cursors, readCursor (setCursor c (f last)) r t = readCursor c r t := by
        intro c
        simp [readCursor, setCursor, differ]
      rw [other, ih]
      simp [same]

/-- Events of one pair are listed in the order of their positions. -/
def Ascending (events : List ReplicationEvent) : Prop :=
  events.Pairwise fun a b => SamePair a b → a.position.Before b.position

instance (a b : ReplicationEvent) : Decidable (SamePair a b) :=
  inferInstanceAs (Decidable (_ ∧ _))

instance (events : List ReplicationEvent) : Decidable (Ascending events) :=
  inferInstanceAs (Decidable (List.Pairwise _ _))

section Batch

variable {events prepared : List ReplicationEvent} {mode : ReplicationApplyMode}

/-- What the filter leaves out was behind its cursor before the batch. -/
theorem filterStale_or_stale {running : Cursors} (ascending : Ascending events) :
    ∀ e ∈ events, e ∈ filterStale running events ∨ stale running e = true := by
  induction events generalizing running with
  | nil => intro e mem; cases mem
  | cons head events ih =>
    obtain ⟨first, rest⟩ := List.pairwise_cons.mp ascending
    intro e mem
    rw [filterStale]
    cases behind : stale running head with
    | true =>
      rw [if_pos rfl]
      rcases List.mem_cons.mp mem with rfl | mem
      · exact .inr behind
      · exact ih rest e mem
    | false =>
      rw [if_neg Bool.false_ne_true]
      rcases List.mem_cons.mp mem with rfl | mem
      · exact .inl List.mem_cons_self
      · rcases ih rest e mem with kept | skipped
        · exact .inl (List.mem_cons_of_mem _ kept)
        · by_cases same : SamePair head e
          · rw [stale_iff, ← same.1, ← same.2, readCursor_set_same] at skipped
            exact absurd (first e mem same) skipped
          · rw [stale_iff, readCursor_set_other fun h => same ⟨h.1.symm, h.2.symm⟩] at skipped
            exact .inr (stale_iff.mpr skipped)

/-- The order of the transaction keeps the events of a pair in their order. -/
theorem commitOrder_ascending {kind : BatchKind} (typed : ∀ e ∈ events, e.Typed)
    (ascending : Ascending events) : Ascending (commitOrder kind events) := by
  cases kind with
  | transactionBatch => exact ascending
  | eventBatch =>
    have perm : (sortForCursor events).Perm events := List.perm_insertionSort _ events
    have differ : events.Pairwise fun a b => SamePair a b →
        comparePositions a.position b.position ≠ .eq := by
      refine ascending.imp fun before same eq => ?_
      have lt := before same
      rw [Position.Before, eq] at lt
      cases lt
    have differSorted := (perm.pairwise_iff fun {a b} ne same eq =>
      ne ⟨same.1.symm, same.2.symm⟩ (by rw [comparePositions_swap, eq]; rfl)).mpr differ
    refine ((sortForCursor_pairwise typed).and differSorted).imp fun {a b} both same => ?_
    obtain ⟨le, ne⟩ := both
    have order : compareCursorOrderedEvents a b = comparePositions a.position b.position := by
      rw [compareCursorOrderedEvents, same.1, same.2, Std.ReflOrd.compare_self,
        Std.ReflOrd.compare_self]
      rfl
    rw [order] at le
    cases result : comparePositions a.position b.position with
    | lt => exact result
    | eq => exact absurd result (ne same)
    | gt => rw [result] at le; cases le

end Batch

section Received

variable {V : Type} [DecidableEq V] {repo : Repository} {server : Server V}
  {mode : ReplicationApplyMode} {store store' : Store V} {batch : Batch}

variable (ok : applyBatch repo server mode batch.kind batch.events store = .ok store')

include ok

/-- What was prepared is committed, unless it is nothing. -/
theorem committed_of_applyBatch : ∃ prepared, prepareEvents mode batch.events = .ok prepared ∧
    orderedEvents mode batch = commitOrder batch.kind prepared ∧
    (store' = store ∧ orderedEvents mode batch = [] ∨
      commitStateAppliedTransaction repo server mode (orderedEvents mode batch) store = .ok store') := by
  obtain ⟨prepared, prepare, result⟩ := applyBatch_eq_ok.mp ok
  have ordered : orderedEvents mode batch = commitOrder batch.kind prepared := by
    rw [orderedEvents, prepare]
  refine ⟨prepared, prepare, ordered, ?_⟩
  rw [ordered]
  split at result
  · next empty =>
    rw [List.isEmpty_iff.mp empty]
    refine .inl ⟨result, ?_⟩
    cases batch.kind <;> rfl
  · exact .inr result

/-- The applied events are the ones whose statements made the tables. -/
theorem applyEventsBatch_applied :
    applyEventsBatch repo server mode (appliedOfBatch mode store.cursors batch) store.tables =
      .ok store'.tables := by
  obtain ⟨_, _, _, ⟨rfl, empty⟩ | commit⟩ := committed_of_applyBatch ok
  · rw [appliedOfBatch, empty]
    rfl
  · obtain ⟨tables, applied, rfl⟩ := commit_eq_ok.mp commit
    exact applied

variable (set : ∀ e ∈ batch.events, e.operation ≠ .unset)

include set

theorem orderedEvents_eq_filter : orderedEvents mode batch =
    commitOrder batch.kind (batch.events.filter (applyAllowed mode ·.operation)) := by
  obtain ⟨prepared, prepare, ordered, _⟩ := committed_of_applyBatch ok
  rw [ordered, prepareEvents_eq_filter set prepare]

theorem mem_orderedEvents {e : ReplicationEvent} : e ∈ orderedEvents mode batch ↔
    e ∈ batch.events ∧ applyAllowed mode e.operation = true := by
  rw [orderedEvents_eq_filter ok set, mem_commitOrder, List.mem_filter]

/-- An allowed event of an applied batch is applied, unless its cursor had
passed it. -/
theorem applied_or_behind (typed : ∀ e ∈ batch.events, e.Typed) (ascending : Ascending batch.events)
    {e : ReplicationEvent} (mem : e ∈ batch.events) (allowed : applyAllowed mode e.operation = true) :
    e ∈ appliedOfBatch mode store.cursors batch ∨ stale store.cursors e = true := by
  have inOrder : Ascending (orderedEvents mode batch) := by
    rw [orderedEvents_eq_filter ok set]
    exact commitOrder_ascending (fun e mem => typed e (List.mem_of_mem_filter mem))
      (ascending.sublist List.filter_sublist)
  have listed := (mem_orderedEvents ok set).mpr ⟨mem, allowed⟩
  refine (filterStale_or_stale inOrder e listed).imp_right fun behind => ?_
  rwa [stale_lock] at behind

/-- A cursor stays or moves to an event of the batch that the store returns as
given. -/
theorem cursor_of_applied (kept : ∀ e ∈ batch.events, e.Kept) (r t : String) :
    readCursor store'.cursors r t = readCursor store.cursors r t ∨
      ∃ e ∈ batch.events, e.peerRegion = r ∧ e.table = t ∧
        (readCursor store'.cursors r t).position = e.position := by
  obtain ⟨_, _, _, ⟨rfl, _⟩ | commit⟩ := committed_of_applyBatch ok
  · exact .inl rfl
  · obtain ⟨tables, _, rfl⟩ := commit_eq_ok.mp commit
    simp only [saveFinalCursors, saveStateCursor]
    rw [readCursor_foldl_set fun _ => ⟨rfl, rfl⟩, readCursor_lock]
    cases last : ((filterStale (lockCursors store.cursors (orderedEvents mode batch))
        (orderedEvents mode batch)).filter (pairIs r t)).getLast? with
    | none => exact .inl rfl
    | some e =>
      obtain ⟨inApplied, pair⟩ := List.mem_filter.mp (List.mem_of_getLast? last)
      have inBatch := ((mem_orderedEvents ok set).mp ((filterStale_sublist ..).subset inApplied)).1
      obtain ⟨region, table⟩ := of_decide_eq_true pair
      have returned : storedKey e.primaryKey = e.primaryKey := kept e inBatch
      refine .inr ⟨e, inBatch, region, table, ?_⟩
      simp only [Option.map_some, Option.getD_some, StateCursor.position, ReplicationEvent.cursor,
        ReplicationEvent.position, returned]

end Received

end Transmogr
