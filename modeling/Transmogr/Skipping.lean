import Mathlib.Data.List.Pairwise
import Transmogr.Commit

/-! Which events a receiver applies and which it skips as stale while batches
are delivered once in order. -/
namespace Transmogr

open Sql

/-- The events the filter drops. -/
def skippedStale (running : Cursors) : List ReplicationEvent → List ReplicationEvent
  | [] => []
  | event :: events =>
    if stale running event then event :: skippedStale running events
    else skippedStale (setCursor running event.cursor) events

/-- The allowed events of a batch in the order its transaction takes them. -/
def orderedEvents (mode : ReplicationApplyMode) (batch : Batch) : List ReplicationEvent :=
  match prepareEvents mode batch.events with
  | .error _ => []
  | .ok prepared => commitOrder batch.kind prepared

def appliedOfBatch (mode : ReplicationApplyMode) (cursors : Cursors) (batch : Batch) :
    List ReplicationEvent :=
  filterStale (lockCursors cursors (orderedEvents mode batch)) (orderedEvents mode batch)

def skippedOfBatch (mode : ReplicationApplyMode) (cursors : Cursors) (batch : Batch) :
    List ReplicationEvent :=
  skippedStale (lockCursors cursors (orderedEvents mode batch)) (orderedEvents mode batch)

section Definitions

variable {V : Type} [DecidableEq V] (repo : Repository) (server : Server V)

/-- What each batch yields while the batches are delivered once in order; a
failed apply ends the delivery. -/
def collect (mode : ReplicationApplyMode) (yields : Cursors → Batch → List ReplicationEvent) :
    List Batch → Store V → List ReplicationEvent
  | [], _ => []
  | batch :: batches, store =>
    match applyBatch repo server mode batch.kind batch.events store with
    | .error _ => []
    | .ok store' => yields store.cursors batch ++ collect mode yields batches store'

/-- The events `CommitStateAppliedTransaction` applies. -/
def applied (mode : ReplicationApplyMode) (batches : List Batch) (store : Store V) :
    List ReplicationEvent :=
  collect repo server mode (appliedOfBatch mode) batches store

/-- The events `isStaleCursorPosition` skips. -/
def skipped (mode : ReplicationApplyMode) (batches : List Batch) (store : Store V) :
    List ReplicationEvent :=
  collect repo server mode (skippedOfBatch mode) batches store

end Definitions

/-- Every event with a key is above the cursor of a table without one. -/
theorem zero_before {event : ReplicationEvent} (version : 0 ≤ event.version)
    (key : event.primaryKey ≠ []) : Position.Before ⟨0, []⟩ event.position := by
  rw [Position.before_iff]
  rcases version.lt_or_eq with positive | zero
  · exact .inl positive
  · refine .inr ⟨zero, ?_⟩
    change comparePrimaryKeys [] event.primaryKey = .lt
    cases same : event.primaryKey with
    | nil => exact absurd same key
    | cons part rest => rfl

/-- Every event is above the cursor its predecessors leave. -/
def Ascends (running : Cursors) : List ReplicationEvent → Prop
  | [] => True
  | event :: events =>
    (readCursor running event.peerRegion event.table).position.Before event.position ∧
      Ascends (setCursor running event.cursor) events

section Filter

variable {running : Cursors} {events : List ReplicationEvent}

theorem skippedStale_eq_nil_iff : skippedStale running events = [] ↔ Ascends running events := by
  induction events generalizing running with
  | nil => exact ⟨fun _ => trivial, fun _ => rfl⟩
  | cons event events ih =>
    rw [skippedStale, Ascends]
    cases behind : stale running event with
    | true =>
      have := stale_iff.mp behind
      exact ⟨fun h => (List.cons_ne_nil _ _ h).elim, fun h => (this h.1).elim⟩
    | false =>
      have above := not_stale_iff.mp behind
      exact ⟨fun h => ⟨above, ih.mp h⟩, fun h => ih.mpr h.2⟩

theorem filterStale_of_ascends (ascends : Ascends running events) :
    filterStale running events = events := by
  induction events generalizing running with
  | nil => rfl
  | cons event events ih =>
    rw [filterStale, if_neg (by rw [not_stale_iff.mpr ascends.1]; exact Bool.false_ne_true),
      ih ascends.2]

theorem filterStale_append_skippedStale (running : Cursors) (events : List ReplicationEvent) :
    (filterStale running events ++ skippedStale running events).Perm events := by
  induction events generalizing running with
  | nil => exact .nil
  | cons event events ih =>
    rw [filterStale, skippedStale]
    split
    · exact List.perm_middle.trans ((ih running).cons event)
    · exact (ih _).cons event

def SamePair (a b : ReplicationEvent) : Prop := a.peerRegion = b.peerRegion ∧ a.table = b.table

/-- Events above the stored cursors that increase within each pair ascend. -/
theorem ascends_of_above
    (above : ∀ e ∈ events, (readCursor running e.peerRegion e.table).position.Before e.position)
    (increases : events.Pairwise fun a b => SamePair a b → a.position.Before b.position) :
    Ascends running events := by
  induction events generalizing running with
  | nil => trivial
  | cons event events ih =>
    obtain ⟨next, increases⟩ := List.pairwise_cons.mp increases
    refine ⟨above event List.mem_cons_self, ih (fun e mem => ?_) increases⟩
    by_cases same : SamePair event e
    · rw [← same.1, ← same.2, readCursor_set_same]
      exact next e mem same
    · rw [readCursor_set_other fun h => same ⟨h.1.symm, h.2.symm⟩]
      exact above e (List.mem_cons_of_mem _ mem)

/-- On typed keys, ascending means: above the stored cursors, and increasing
within each pair. -/
theorem ascends_iff (typed : TypedCursors running) (eventsTyped : ∀ e ∈ events, e.Typed) :
    Ascends running events ↔
      (∀ e ∈ events, (readCursor running e.peerRegion e.table).position.Before e.position) ∧
        events.Pairwise fun a b => SamePair a b → a.position.Before b.position := by
  refine ⟨fun ascends => ?_, fun both => ascends_of_above both.1 both.2⟩
  induction events generalizing running with
  | nil => simp
  | cons event events ih =>
    have eventTyped : event.position.Typed := eventsTyped event List.mem_cons_self
    have tailTyped : ∀ e ∈ events, e.Typed := fun e mem =>
      eventsTyped e (List.mem_cons_of_mem _ mem)
    obtain ⟨head, tail⟩ := ascends
    obtain ⟨above, pairwise⟩ := ih (typed.set eventTyped) tailTyped tail
    have next : ∀ e ∈ events, SamePair event e → event.position.Before e.position := by
      intro e mem same
      have step := above e mem
      rw [← same.1, ← same.2, readCursor_set_same] at step
      exact step
    refine ⟨fun e mem => ?_, List.pairwise_cons.mpr ⟨next, pairwise⟩⟩
    cases List.mem_cons.mp mem with
    | inl eq => rw [eq]; exact head
    | inr mem =>
      by_cases same : SamePair event e
      · have eTyped : e.position.Typed := tailTyped e mem
        rw [← same.1, ← same.2]
        exact head.trans (typed.read _ _) eventTyped eTyped (next e mem same)
      · have step := above e mem
        rw [readCursor_set_other fun h => same ⟨h.1.symm, h.2.symm⟩] at step
        exact step

end Filter

section Sorting

def eventRank (e : ReplicationEvent) : String × String × Int × List PartRank :=
  (e.peerRegion, e.table, e.position.rank)

def compareEventRank : (a b : String × String × Int × List PartRank) → Ordering :=
  compareLex (compareOn (·.1)) (compareLex (compareOn (·.2.1))
    (compareLex (compareOn (·.2.2.1)) (compareOn (·.2.2.2))))

instance : Std.TransCmp compareEventRank :=
  inferInstanceAs (Std.TransCmp (compareLex _ (compareLex _ (compareLex _ _))))

theorem compareCursorOrderedEvents_eq_rank {a b : ReplicationEvent} (ta : a.Typed) (tb : b.Typed) :
    compareCursorOrderedEvents a b = compareEventRank (eventRank a) (eventRank b) := by
  rw [compareCursorOrderedEvents, comparePrimaryKeys_eq_rank ta tb]
  rfl

theorem orderedInsert_congr {α : Type} {r s : α → α → Prop} [DecidableRel r] [DecidableRel s]
    {a : α} {l : List α} (agree : ∀ b ∈ l, r a b ↔ s a b) :
    l.orderedInsert r a = l.orderedInsert s a := by
  induction l with
  | nil => rfl
  | cons b l ih =>
    have tail := ih fun c mem => agree c (List.mem_cons_of_mem _ mem)
    simp only [List.orderedInsert, tail, agree b List.mem_cons_self]

theorem insertionSort_congr {α : Type} {r s : α → α → Prop} [DecidableRel r] [DecidableRel s]
    {l : List α} (agree : ∀ a ∈ l, ∀ b ∈ l, r a b ↔ s a b) :
    l.insertionSort r = l.insertionSort s := by
  induction l with
  | nil => rfl
  | cons a l ih =>
    have tail := ih fun b memB c memC =>
      agree b (List.mem_cons_of_mem _ memB) c (List.mem_cons_of_mem _ memC)
    rw [List.insertionSort_cons, List.insertionSort_cons, tail]
    refine orderedInsert_congr fun b mem => agree a List.mem_cons_self b (List.mem_cons_of_mem _ ?_)
    exact (List.mem_insertionSort s).mp mem

/-- On typed keys the sort puts a batch in the order of its comparison. -/
theorem sortForCursor_pairwise {events : List ReplicationEvent} (typed : ∀ e ∈ events, e.Typed) :
    (sortForCursor events).Pairwise fun a b => (compareCursorOrderedEvents a b).isLE := by
  let byRank (a b : ReplicationEvent) : Prop :=
    (compareEventRank (eventRank a) (eventRank b)).isLE = true
  have : Std.Total byRank := ⟨fun a b => by
    cases order : compareEventRank (eventRank a) (eventRank b) with
    | lt | eq => exact Or.inl (by simp [byRank, order])
    | gt => exact Or.inr (by simp [byRank, Std.OrientedCmp.gt_iff_lt.mp order])⟩
  have : IsTrans ReplicationEvent byRank := ⟨fun a b c ab bc => Std.TransCmp.isLE_trans ab bc⟩
  have agree : ∀ a ∈ events, ∀ b ∈ events,
      (compareCursorOrderedEvents a b).isLE = true ↔ byRank a b := by
    intro a memA b memB
    rw [compareCursorOrderedEvents_eq_rank (typed a memA) (typed b memB)]
  have sorted := List.pairwise_insertionSort byRank events
  rw [sortForCursor, insertionSort_congr agree]
  refine sorted.imp_of_mem fun memA memB le => ?_
  exact (agree _ ((List.mem_insertionSort _).mp memA) _ ((List.mem_insertionSort _).mp memB)).mpr le

end Sorting

section Pair

variable {region table : String} {events : List ReplicationEvent}

/-- Events of one peer region and table with typed keys, no two of them at the
same position. -/
structure OnePair (region table : String) (events : List ReplicationEvent) : Prop where
  pair : ∀ e ∈ events, e.peerRegion = region ∧ e.table = table
  typed : ∀ e ∈ events, e.Typed
  distinct : events.Pairwise fun a b => comparePositions a.position b.position ≠ .eq

/-- No event of the batch is above it. -/
def Greatest (event : ReplicationEvent) (events : List ReplicationEvent) : Prop :=
  event ∈ events ∧ ∀ e ∈ events, ¬ event.position.Before e.position

theorem OnePair.perm {other : List ReplicationEvent} (one : OnePair region table events)
    (perm : other.Perm events) : OnePair region table other where
  pair e mem := one.pair e (perm.mem_iff.mp mem)
  typed e mem := one.typed e (perm.mem_iff.mp mem)
  distinct := (perm.pairwise_iff fun {a b} differ eq =>
    differ (by rw [comparePositions_swap, eq]; rfl)).mpr one.distinct

theorem OnePair.sublist {other : List ReplicationEvent} (one : OnePair region table events)
    (sub : other.Sublist events) : OnePair region table other where
  pair e mem := one.pair e (sub.subset mem)
  typed e mem := one.typed e (sub.subset mem)
  distinct := one.distinct.sublist sub

theorem OnePair.sorted (one : OnePair region table events) :
    (sortForCursor events).Pairwise fun a b => a.position.Before b.position := by
  have perm : (sortForCursor events).Perm events := List.perm_insertionSort _ events
  have one' := one.perm perm
  refine ((sortForCursor_pairwise one.typed).and one'.distinct).imp_of_mem ?_
  intro a b memA memB ⟨le, differ⟩
  obtain ⟨ra, ta⟩ := one'.pair a memA
  obtain ⟨rb, tb⟩ := one'.pair b memB
  have same : compareCursorOrderedEvents a b = comparePositions a.position b.position := by
    rw [compareCursorOrderedEvents, ra, rb, ta, tb, Std.ReflOrd.compare_self,
      Std.ReflOrd.compare_self]
    rfl
  rw [same] at le
  cases order : comparePositions a.position b.position with
  | lt => exact order
  | eq => exact absurd order differ
  | gt => rw [order] at le; cases le

/-- A sorted batch is applied whole when all of it is above the cursor. -/
theorem OnePair.ascends_iff_above {running : Cursors} (one : OnePair region table events)
    (typed : TypedCursors running) :
    Ascends running (sortForCursor events) ↔
      ∀ e ∈ events, (readCursor running region table).position.Before e.position := by
  have perm : (sortForCursor events).Perm events := List.perm_insertionSort _ events
  have one' := one.perm perm
  rw [ascends_iff typed one'.typed]
  constructor
  · intro ⟨above, _⟩ e mem
    have step := above e (perm.mem_iff.mpr mem)
    rw [(one.pair e mem).1, (one.pair e mem).2] at step
    exact step
  · intro above
    constructor
    · intro e mem
      rw [(one'.pair e mem).1, (one'.pair e mem).2]
      exact above e (perm.mem_iff.mp mem)
    · refine one.sorted.imp ?_
      intro a b before _
      exact before

theorem OnePair.greatest_unique (one : OnePair region table events) {a b : ReplicationEvent}
    (greatestA : Greatest a events) (greatestB : Greatest b events) : a = b := by
  have order : comparePositions a.position b.position = .eq := by
    cases order : comparePositions a.position b.position with
    | eq => rfl
    | lt => exact absurd order (greatestA.2 b greatestB.1)
    | gt => exact absurd (Std.OrientedCmp.gt_iff_lt.mp order) (greatestB.2 a greatestA.1)
  have : Std.Symm fun a b : ReplicationEvent =>
      comparePositions a.position b.position ≠ .eq :=
    ⟨fun _ _ h eq => h (by rw [comparePositions_swap, eq]; rfl)⟩
  by_contra differ
  exact one.distinct.forall greatestA.1 greatestB.1 differ order

/-- The position a saved cursor is read back at. -/
def storedPosition (event : ReplicationEvent) : Position :=
  ⟨event.version, storedKey event.primaryKey⟩

theorem readCursor_saveFinal {cursors : Cursors} {last : ReplicationEvent}
    {before : List ReplicationEvent} (pair : last.peerRegion = region ∧ last.table = table) :
    (readCursor (saveFinalCursors cursors (before ++ [last])) region table).position =
      storedPosition last := by
  rw [saveFinalCursors, List.foldl_append, List.foldl_cons, List.foldl_nil]
  simp [readCursor, saveStateCursor, setCursor, ReplicationEvent.cursor, pair.1, pair.2,
    StateCursor.position, storedPosition]

/-- After a batch applied whole, the cursor is at its greatest event. -/
theorem OnePair.cursor_after (one : OnePair region table events) (cursors : Cursors)
    (nonempty : events ≠ []) :
    ∃ g, Greatest g events ∧
      (readCursor (saveFinalCursors cursors (sortForCursor events)) region table).position =
        storedPosition g := by
  have perm : (sortForCursor events).Perm events := List.perm_insertionSort _ events
  have one' := one.perm perm
  have sortedNonempty : sortForCursor events ≠ [] := fun empty =>
    nonempty (List.nil_perm.mp (empty ▸ perm))
  obtain ⟨before, last, split⟩ := List.eq_nil_or_concat' (sortForCursor events) |>.resolve_left
    sortedNonempty
  have memLast : last ∈ sortForCursor events := by rw [split]; simp
  refine ⟨last, ⟨perm.mem_iff.mp memLast, fun e mem above => ?_⟩, ?_⟩
  · have sorted := one.sorted
    rw [split] at sorted
    have memE : e ∈ before ++ [last] := split ▸ perm.mem_iff.mpr mem
    cases List.mem_append.mp memE with
    | inl earlier =>
      exact ((List.pairwise_append.mp sorted).2.2 e earlier last (by simp)).asymm above
    | inr same =>
      rw [List.mem_singleton.mp same] at above
      exact Position.not_before_self _ above
  · rw [split]
    exact readCursor_saveFinal (one'.pair last memLast)

end Pair

section Deliveries

variable {V : Type} [DecidableEq V] {repo : Repository} {server : Server V}
  {mode : ReplicationApplyMode} {store store' final : Store V}
  {region table : String} {events : List ReplicationEvent}

/-- Each batch is above the position its predecessor leaves in the store, the
first one above `p`. -/
def ClearOf (p : Position) : List (List ReplicationEvent) → Prop
  | [] => True
  | events :: batches =>
    (∀ e ∈ events, p.Before e.position) ∧
      ∀ g, Greatest g events → ClearOf (storedPosition g) batches

/-- The mode lets the event through, and the operation is set. -/
def Allowed (mode : ReplicationApplyMode) (event : ReplicationEvent) : Prop :=
  event.operation ≠ .unset ∧ applyAllowed mode event.operation = true

theorem prepareEvents_eq_filter {prepared : List ReplicationEvent}
    (set : ∀ e ∈ events, e.operation ≠ .unset) (ok : prepareEvents mode events = .ok prepared) :
    prepared = events.filter (applyAllowed mode ·.operation) := by
  induction events generalizing prepared with
  | nil =>
    cases ok
    rfl
  | cons event events ih =>
    rw [prepareEvents] at ok
    obtain ⟨_, _, ok⟩ := Fallible.bind_eq_ok.mp ok
    obtain ⟨rest, restOk, ok⟩ := Fallible.bind_eq_ok.mp ok
    have same := ih (fun e mem => set e (List.mem_cons_of_mem _ mem)) restOk
    have default : defaultOperation event = event := if_neg (set event List.mem_cons_self)
    simp only [default] at ok
    cases ok
    rw [List.filter_cons, same]

theorem prepareEvents_of_allowed {prepared : List ReplicationEvent}
    (allowed : ∀ e ∈ events, Allowed mode e) (ok : prepareEvents mode events = .ok prepared) :
    prepared = events := by
  rw [prepareEvents_eq_filter (fun e mem => (allowed e mem).1) ok]
  exact List.filter_eq_self.mpr fun e mem => (allowed e mem).2

theorem prepareEvents_of_valid (allowed : ∀ e ∈ events, Allowed mode e)
    (valid : ∀ e ∈ events, validateEvent e = .ok ()) : prepareEvents mode events = .ok events := by
  induction events with
  | nil => rfl
  | cons event events ih =>
    obtain ⟨set, allow⟩ := allowed event List.mem_cons_self
    have rest := ih (fun e mem => allowed e (List.mem_cons_of_mem _ mem))
      fun e mem => valid e (List.mem_cons_of_mem _ mem)
    have default : defaultOperation event = event := if_neg set
    rw [prepareEvents, valid event List.mem_cons_self, rest]
    simp only [default, allow]
    rfl

/-- One applied batch of allowed events is one transaction over all of them. -/
theorem applyBatch_of_allowed {batch : Batch} (allowed : ∀ e ∈ batch.events, Allowed mode e)
    (nonempty : batch.events ≠ [])
    (ok : applyBatch repo server mode batch.kind batch.events store = .ok store') :
    orderedEvents mode batch = commitOrder batch.kind batch.events ∧
      commitStateAppliedTransaction repo server mode (commitOrder batch.kind batch.events) store =
        .ok store' := by
  obtain ⟨prepared, prepare, result⟩ := applyBatch_eq_ok.mp ok
  have same := prepareEvents_of_allowed allowed prepare
  subst same
  rw [if_neg (by simp [nonempty])] at result
  exact ⟨by simp [orderedEvents, prepare], result⟩

theorem collect_cons {yields : Cursors → Batch → List ReplicationEvent} {batch : Batch}
    {batches : List Batch}
    (ok : applyBatch repo server mode batch.kind batch.events store = .ok store') :
    collect repo server mode yields (batch :: batches) store =
      yields store.cursors batch ++ collect repo server mode yields batches store' := by
  rw [collect, ok]

theorem applied_append_skipped {batches : List Batch}
    (allowed : ∀ batch ∈ batches, ∀ e ∈ batch.events, Allowed mode e)
    (nonempty : ∀ batch ∈ batches, batch.events ≠ [])
    (ok : deliver repo server mode batches store = .ok final) :
    (applied repo server mode batches store ++ skipped repo server mode batches store).Perm
      (batches.flatMap (·.events)) := by
  induction batches generalizing store with
  | nil => exact .nil
  | cons batch batches ih =>
    obtain ⟨mid, head, tail⟩ := Fallible.bind_eq_ok.mp ok
    obtain ⟨ordered, _⟩ := applyBatch_of_allowed (allowed batch List.mem_cons_self)
      (nonempty batch List.mem_cons_self) head
    have rest := ih (fun b mem => allowed b (List.mem_cons_of_mem _ mem))
      (fun b mem => nonempty b (List.mem_cons_of_mem _ mem)) tail
    have here : (appliedOfBatch mode store.cursors batch ++
        skippedOfBatch mode store.cursors batch).Perm batch.events := by
      rw [appliedOfBatch, skippedOfBatch, ordered]
      refine (filterStale_append_skippedStale _ _).trans ?_
      cases batch.kind with
      | eventBatch => exact List.perm_insertionSort _ _
      | transactionBatch => exact List.Perm.refl _
    rw [applied, skipped, collect_cons head, collect_cons head, List.flatMap_cons]
    refine List.Perm.trans ?_ (here.append rest)
    rw [List.append_assoc, List.append_assoc]
    exact List.Perm.append_left _ (List.perm_append_comm_assoc _ _ _)

/-- Polling batches of one pair skip nothing exactly when each is above what
the one before it left in the store. -/
theorem skipped_eq_nil_iff_clearOf {batches : List (List ReplicationEvent)}
    (one : ∀ events ∈ batches, OnePair region table events)
    (nonempty : ∀ events ∈ batches, events ≠ [])
    (allowed : ∀ events ∈ batches, ∀ e ∈ events, Allowed mode e)
    (typed : TypedCursors store.cursors)
    (ok : deliver repo server mode (batches.map (⟨.eventBatch, ·⟩)) store = .ok final) :
    skipped repo server mode (batches.map (⟨.eventBatch, ·⟩)) store = [] ↔
      ClearOf (readCursor store.cursors region table).position batches := by
  induction batches generalizing store with
  | nil => exact ⟨fun _ => trivial, fun _ => rfl⟩
  | cons events batches ih =>
    obtain ⟨mid, head, tail⟩ := Fallible.bind_eq_ok.mp ok
    have oneHead := one events List.mem_cons_self
    have allowedHead := allowed events List.mem_cons_self
    have nonemptyHead := nonempty events List.mem_cons_self
    obtain ⟨ordered, commit⟩ := applyBatch_of_allowed allowedHead nonemptyHead head
    have perm : (sortForCursor events).Perm events := List.perm_insertionSort _ events
    have midTyped : TypedCursors mid.cursors := commit_typed typed
      (fun e mem => oneHead.typed e (perm.mem_iff.mp mem)) commit
    have rest := ih (fun es mem => one es (List.mem_cons_of_mem _ mem))
      (fun es mem => nonempty es (List.mem_cons_of_mem _ mem))
      (fun es mem => allowed es (List.mem_cons_of_mem _ mem)) midTyped tail
    have lockedCursor : ∀ es, readCursor (lockCursors store.cursors es) region table =
        readCursor store.cursors region table := fun es => readCursor_lock store.cursors es region table
    have here : skippedOfBatch mode store.cursors ⟨.eventBatch, events⟩ = [] ↔
        ∀ e ∈ events, (readCursor store.cursors region table).position.Before e.position := by
      rw [skippedOfBatch, ordered, skippedStale_eq_nil_iff]
      change Ascends _ (sortForCursor events) ↔ _
      rw [oneHead.ascends_iff_above (typed.lock _), lockedCursor]
    rw [List.map_cons, skipped, collect_cons head, List.append_eq_nil_iff, here, ClearOf]
    refine and_congr_right fun above => ?_
    have ascends : Ascends (lockCursors store.cursors (sortForCursor events)) (sortForCursor events) := by
      rw [oneHead.ascends_iff_above (typed.lock _), lockedCursor]
      exact above
    obtain ⟨tables, _, stored⟩ := commit_eq_ok.mp commit
    change mid = ⟨tables, saveFinalCursors (lockCursors store.cursors (sortForCursor events))
      (filterStale (lockCursors store.cursors (sortForCursor events)) (sortForCursor events))⟩ at stored
    rw [filterStale_of_ascends ascends] at stored
    obtain ⟨g, greatest, position⟩ := oneHead.cursor_after
      (lockCursors store.cursors (sortForCursor events)) nonemptyHead
    rw [show skipped repo server mode _ mid = collect repo server mode _ _ mid from rfl] at rest
    rw [rest, stored, position]
    refine ⟨fun clear other otherGreatest => ?_, fun clear => clear g greatest⟩
    rw [show other = g from oneHead.greatest_unique otherGreatest greatest]
    exact clear

end Deliveries

end Transmogr
