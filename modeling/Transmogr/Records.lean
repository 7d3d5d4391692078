import Transmogr.Receiving
import Transmogr.RunningMax

/-! What a committed batch leaves of its cursors: each one ends at the greatest position of its pair,
and the events applied are those that set a new one. -/
namespace Transmogr

open Sql
open RunningMax (OrderOn records kept)

theorem Position.before_of_not_before {p q r : Position} (tp : p.Typed) (tq : q.Typed) (tr : r.Typed)
    (le : ¬ q.Before p) (lt : q.Before r) : p.Before r := by
  rw [Position.Before, comparePositions_eq_rank tq tp] at le
  rw [Position.Before, comparePositions_eq_rank tq tr] at lt
  rw [Position.Before, comparePositions_eq_rank tp tr]
  refine Std.TransCmp.lt_of_isLE_of_lt ?_ lt
  cases order : comparePositionRank p.rank q.rank with
  | lt | eq => rfl
  | gt => exact absurd (Std.OrientedCmp.gt_iff_lt.mp order) le

theorem positions_ordered : OrderOn Position.Before Position.Typed where
  asymm _ _ := Position.Before.asymm
  trans _ _ _ := Position.before_of_not_before

/-- The pair of peer region and table that a cursor belongs to. -/
def ReplicationEvent.pair (event : ReplicationEvent) : String × String :=
  (event.peerRegion, event.table)

/-- Where the cursors stand. -/
def positions (cursors : Cursors) (pair : String × String) : Position :=
  (readCursor cursors pair.1 pair.2).position

theorem positions_set (cursors : Cursors) (event : ReplicationEvent) :
    positions (setCursor cursors event.cursor) =
      RunningMax.advance ReplicationEvent.pair ReplicationEvent.position (positions cursors) event := by
  funext ⟨region, table⟩
  rw [RunningMax.advance]
  by_cases same : region = event.peerRegion ∧ table = event.table
  · obtain ⟨rfl, rfl⟩ := same
    rw [positions, readCursor_set_same, ← ReplicationEvent.pair, Function.update_self]
    rfl
  · have differ : (region, table) ≠ event.pair := by simpa [ReplicationEvent.pair] using same
    rw [positions, readCursor_set_other same, Function.update_of_ne differ]
    rfl

theorem filterStale_eq_kept (cursors : Cursors) (events : List ReplicationEvent) :
    filterStale cursors events =
      kept ReplicationEvent.pair ReplicationEvent.position Position.Before (positions cursors) events := by
  induction events generalizing cursors with
  | nil => rfl
  | cons event events ih =>
    rw [filterStale, kept, ih, ih, positions_set]
    cases old : stale cursors event with
    | true =>
      have behind : ¬ (positions cursors event.pair).Before event.position := stale_iff.mp old
      rw [if_pos rfl, if_neg behind]
    | false =>
      have ahead : (positions cursors event.pair).Before event.position := not_stale_iff.mp old
      rw [if_neg Bool.false_ne_true, if_pos ahead]

theorem positions_running (cursors : Cursors) (accepted : List ReplicationEvent) :
    positions (runningCursors cursors accepted) =
      accepted.foldl (RunningMax.advance ReplicationEvent.pair ReplicationEvent.position)
        (positions cursors) := by
  induction accepted generalizing cursors with
  | nil => rfl
  | cons event accepted ih =>
    rw [runningCursors, List.foldl_cons, List.foldl_cons, ← positions_set]
    exact ih _

theorem positions_lock (cursors : Cursors) (events : List ReplicationEvent) :
    positions (lockCursors cursors events) = positions cursors := by
  funext ⟨region, table⟩
  rw [positions, readCursor_lock]
  rfl

/-- The events beyond the cursor and beyond the events before them, in the order of the list. -/
def recordEvents (cursors : Cursors) (events : List ReplicationEvent) : List ReplicationEvent :=
  records ReplicationEvent.pair ReplicationEvent.position Position.Before (positions cursors) [] events

/-- The position is the greatest of the cursor's and those of the pair's events. -/
def GreatestPosition (cursors : Cursors) (events : List ReplicationEvent) (pair : String × String)
    (p : Position) : Prop :=
  RunningMax.Greatest ReplicationEvent.pair ReplicationEvent.position Position.Before
    (positions cursors) events pair p

theorem filterStale_spec {cursors : Cursors} {events : List ReplicationEvent}
    (typed : TypedCursors cursors) (eventsTyped : ∀ e ∈ events, e.Typed) :
    filterStale cursors events = recordEvents cursors events ∧
      ∀ pair, GreatestPosition cursors events pair
        (positions (runningCursors cursors (filterStale cursors events)) pair) := by
  have starts : ∀ pair, (positions cursors pair).Typed := fun pair => typed.read pair.1 pair.2
  have first : ∀ pair, GreatestPosition cursors [] pair (positions cursors pair) :=
    RunningMax.greatest_start positions_ordered
  rw [positions_running, filterStale_eq_kept]
  exact RunningMax.kept_spec positions_ordered starts (List.forall_mem_nil _) eventsTyped first

theorem recordEvents_lock (cursors : Cursors) (events locked : List ReplicationEvent) :
    recordEvents (lockCursors cursors locked) events = recordEvents cursors events := by
  rw [recordEvents, positions_lock]
  rfl

section Absent

variable {cursors : Cursors} {events : List ReplicationEvent} {r t : String}
  (absent : ∀ e ∈ events, e.pair ≠ (r, t))
include absent

/-- Updates at the pairs of the events leave the other pairs alone. -/
theorem foldl_absent {update : Cursors → ReplicationEvent → Cursors}
    (elsewhere : ∀ cursors event, ¬ (r = event.peerRegion ∧ t = event.table) →
      update cursors event r t = cursors r t) : events.foldl update cursors r t = cursors r t := by
  induction events generalizing cursors with
  | nil => rfl
  | cons event events ih =>
    obtain ⟨head, tail⟩ := List.forall_mem_cons.mp absent
    have differ : ¬ (r = event.peerRegion ∧ t = event.table) := by
      rintro ⟨rfl, rfl⟩
      exact head rfl
    exact (ih tail).trans (elsewhere cursors event differ)

theorem saveFinalCursors_absent : saveFinalCursors cursors events r t = cursors r t :=
  foldl_absent absent fun _ _ differ => if_neg differ

theorem lockCursors_absent : lockCursors cursors events r t = cursors r t :=
  foldl_absent absent fun _ _ differ => if_neg differ

end Absent

section Commit

variable {V : Type} [DecidableEq V] {repo : Repository} {server : Server V}
  {mode : ReplicationApplyMode} {store store' : Store V} {events : List ReplicationEvent}

/-- A committed batch moves the cursor of every pair that occurs to the greatest position, applies
the events that set a record, and leaves the other cursors alone. -/
theorem commit_moves_cursors_to_greatest (wire : ∀ e ∈ events, WireKey e.primaryKey)
    (returned : ∀ e ∈ events, storedKey e.primaryKey = e.primaryKey)
    (typed : TypedCursors store.cursors)
    (ok : commitStateAppliedTransaction repo server mode events store = .ok store') :
    (∀ e ∈ events, ∃ cursor, store'.cursors e.peerRegion e.table = some cursor ∧
        GreatestPosition store.cursors events e.pair cursor.position) ∧
      filterStale (lockCursors store.cursors events) events = recordEvents store.cursors events ∧
      applyEventsBatch repo server mode (recordEvents store.cursors events) store.tables =
        .ok store'.tables ∧
      ∀ r t, (∀ e ∈ events, e.pair ≠ (r, t)) → store'.cursors r t = store.cursors r t := by
  obtain ⟨tables, applied, rfl⟩ := commit_eq_ok.mp ok
  obtain ⟨same, ends⟩ := filterStale_spec (typed.lock events) fun e mem => (wire e mem).typed
  rw [recordEvents_lock] at same
  refine ⟨fun e mem => ?_, same, same ▸ applied, fun r t absent => ?_⟩
  · have exists_row : (saveFinalCursors (lockCursors store.cursors events)
        (filterStale (lockCursors store.cursors events) events) e.peerRegion e.table).isSome :=
      isSome_saveFinal (isSome_lock (.inr ⟨e, mem, rfl, rfl⟩))
    obtain ⟨cursor, row⟩ := Option.isSome_iff_exists.mp exists_row
    refine ⟨cursor, row, ?_⟩
    have here := ends e.pair
    rw [← saveFinalCursors_filter returned] at here
    have read : positions (saveFinalCursors (lockCursors store.cursors events)
        (filterStale (lockCursors store.cursors events) events)) e.pair = cursor.position := by
      simp [positions, readCursor, ReplicationEvent.pair, row]
    rw [read, GreatestPosition, positions_lock] at here
    exact here
  · have kept : ∀ e ∈ filterStale (lockCursors store.cursors events) events, e.pair ≠ (r, t) :=
      fun e mem => absent e ((filterStale_sublist _ _).subset mem)
    exact (saveFinalCursors_absent kept).trans (lockCursors_absent absent)

end Commit

/-- The second event is behind the first, the third sets a record. -/
def shuffledUsers : List ReplicationEvent :=
  [userEvent "eu" "1" 5 "ann", userEvent "eu" "2" 3 "bob", userEvent "eu" "2" 7 "cid",
    userEvent "ap" "3" 2 "dan"]

theorem shuffledUsers_wire : ∀ e ∈ shuffledUsers, WireKey e.primaryKey := by
  have keys : ∀ e ∈ shuffledUsers, ∃ id, e.primaryKey = userKey id := by
    simp [shuffledUsers, userEvent]
  intro e mem
  obtain ⟨id, key⟩ := keys e mem
  rw [key]
  exact userKey_wire id

/-- The cursor of one of the two regions is past the first two events, and a third region has
another one. -/
def userCursors : Cursors :=
  setCursor (setCursor (fun _ _ => none) (userEvent "eu" "4" 5 "eve").cursor)
    (userEvent "us" "5" 9 "fay").cursor

theorem userCursors_typed : TypedCursors userCursors := by
  have none : TypedCursors fun _ _ => none := fun _ _ _ stored => by cases stored
  have typed : ∀ region id version name, (userEvent region id version name).Typed :=
    fun _ id _ _ => (userKey_wire id).typed
  exact (none.set (typed _ _ _ _)).set (typed _ _ _ _)

theorem commit_moves_cursors_to_greatest_users : ∃ store' : Store String,
    commitStateAppliedTransaction usersRepository usersServer .fullSync shuffledUsers
        ⟨fun _ _ => none, userCursors⟩ = .ok store' ∧
      filterStale (lockCursors userCursors shuffledUsers) shuffledUsers =
        [userEvent "eu" "2" 7 "cid", userEvent "ap" "3" 2 "dan"] ∧
      applyEventsBatch usersRepository usersServer .fullSync
        [userEvent "eu" "2" 7 "cid", userEvent "ap" "3" 2 "dan"] (fun _ _ => none) =
          .ok store'.tables ∧
      store'.cursors "us" "users" = userCursors "us" "users" := by
  have succeeds : (commitStateAppliedTransaction usersRepository usersServer .fullSync
      shuffledUsers ⟨fun _ _ => none, userCursors⟩).toOption.isSome := by decide
  cases ok : commitStateAppliedTransaction usersRepository usersServer .fullSync shuffledUsers
      ⟨fun _ _ => none, userCursors⟩ with
  | error err =>
    rw [ok] at succeeds
    cases succeeds
  | ok store' =>
    obtain ⟨-, kept, applied, others⟩ := commit_moves_cursors_to_greatest shuffledUsers_wire
      (by decide) userCursors_typed ok
    exact ⟨store', rfl, kept, applied, others "us" "users" (by decide)⟩

/-- What an event is distinct by. -/
def ReplicationEvent.place (event : ReplicationEvent) : String × String × Int × PrimaryKey :=
  (event.peerRegion, event.table, event.version, event.primaryKey)

theorem defaultOperation_place (event : ReplicationEvent) :
    (defaultOperation event).place = event.place := by
  unfold defaultOperation
  split <;> rfl

/-- The allowed events of a batch that passes validation. -/
def allowedEvents (mode : ReplicationApplyMode) (events : List ReplicationEvent) :
    List ReplicationEvent :=
  (events.map defaultOperation).filter (applyAllowed mode ·.operation)

theorem prepareEvents_valid {mode : ReplicationApplyMode} {events : List ReplicationEvent}
    (valid : ∀ e ∈ events, validateEvent e = .ok ()) :
    prepareEvents mode events = .ok (allowedEvents mode events) := by
  induction events with
  | nil => rfl
  | cons event events ih =>
    obtain ⟨head, tail⟩ := List.forall_mem_cons.mp valid
    have next : allowedEvents mode (event :: events) =
        if applyAllowed mode (defaultOperation event).operation then
          defaultOperation event :: allowedEvents mode events
        else allowedEvents mode events := by
      rw [allowedEvents, List.map_cons, List.filter_cons]
      rfl
    rw [prepareEvents, head, ih tail, next]
    rfl

/-- Events at wire-decoded keys, no two of them in one place. -/
structure Placed (events : List ReplicationEvent) : Prop where
  wire : ∀ e ∈ events, WireKey e.primaryKey
  distinct : (events.map (·.place)).Nodup

theorem Placed.perm {events other : List ReplicationEvent} (placed : Placed events)
    (perm : other.Perm events) : Placed other where
  wire e mem := placed.wire e (perm.mem_iff.mp mem)
  distinct := (perm.map _).nodup_iff.mpr placed.distinct

theorem Placed.allowed {events : List ReplicationEvent} (placed : Placed events)
    (mode : ReplicationApplyMode) : Placed (allowedEvents mode events) where
  wire e mem := by
    obtain ⟨event, inside, rfl⟩ := List.mem_map.mp (List.mem_of_mem_filter mem)
    rw [defaultOperation_primaryKey]
    exact placed.wire event inside
  distinct := by
    have places : (events.map defaultOperation).map (·.place) = events.map (·.place) := by
      rw [List.map_map]
      exact List.map_congr_left fun e _ => defaultOperation_place e
    exact (List.filter_sublist.map _).nodup (places ▸ placed.distinct)

theorem compareCursorOrderedEvents_eq {a b : ReplicationEvent}
    (same : compareCursorOrderedEvents a b = .eq) (wireA : WireKey a.primaryKey)
    (wireB : WireKey b.primaryKey) : a.place = b.place := by
  simp only [compareCursorOrderedEvents, Ordering.then_eq_eq,
    Std.LawfulEqCmp.compare_eq_iff_eq] at same
  obtain ⟨region, table, version, key⟩ := same
  rw [ReplicationEvent.place, region, table, version, wireA.eq_of_compare wireB key]
  rfl

/-- Two events that compare equal are one. -/
theorem Placed.eq_of_compare {events : List ReplicationEvent} (placed : Placed events)
    {a b : ReplicationEvent} (memA : a ∈ events) (memB : b ∈ events)
    (same : compareCursorOrderedEvents a b = .eq) : a = b :=
  List.inj_on_of_nodup_map placed.distinct memA memB
    (compareCursorOrderedEvents_eq same (placed.wire a memA) (placed.wire b memB))

instance : Std.OrientedCmp compareCursorOrderedEvents where
  eq_swap {a b} := by
    have region : compare a.peerRegion b.peerRegion = (compare b.peerRegion a.peerRegion).swap :=
      Std.OrientedCmp.eq_swap
    have table : compare a.table b.table = (compare b.table a.table).swap := Std.OrientedCmp.eq_swap
    have rest : (compare a.version b.version).then (comparePrimaryKeys a.primaryKey b.primaryKey) =
        ((compare b.version a.version).then (comparePrimaryKeys b.primaryKey a.primaryKey)).swap :=
      comparePositions_swap a.position b.position
    simp only [compareCursorOrderedEvents, region, table, rest, Ordering.swap_then]

/-- The sort leaves one list of all permutations. -/
theorem Placed.sortForCursor_eq {events other : List ReplicationEvent} (placed : Placed events)
    (perm : other.Perm events) : sortForCursor other = sortForCursor events := by
  have sorted := sortForCursor_pairwise fun e mem => (placed.wire e mem).typed
  have sorted' := sortForCursor_pairwise fun e mem => ((placed.perm perm).wire e mem).typed
  have toOther : (sortForCursor other).Perm other := List.perm_insertionSort _ other
  have toEvents : (sortForCursor events).Perm events := List.perm_insertionSort _ events
  refine List.Perm.eq_of_pairwise ?_ sorted' sorted ((toOther.trans perm).trans toEvents.symm)
  intro a b memA memB le ge
  exact placed.eq_of_compare (perm.mem_iff.mp (toOther.mem_iff.mp memA)) (toEvents.mem_iff.mp memB)
    (Std.OrientedCmp.isLE_antisymm le ge)

/-- In the order of the sort, the events of one pair ascend. -/
theorem Placed.sorted_ascending {events : List ReplicationEvent} (placed : Placed events) :
    (sortForCursor events).Pairwise fun a b =>
      a.pair = b.pair → a.position.Before b.position := by
  have perm : (sortForCursor events).Perm events := List.perm_insertionSort _ events
  have distinct := List.pairwise_map.mp (placed.perm perm).distinct
  have sorted := sortForCursor_pairwise fun e mem => (placed.wire e mem).typed
  refine (sorted.and distinct).imp_of_mem ?_
  rintro a b memA memB ⟨le, ne⟩ same
  obtain ⟨region, table⟩ := Prod.mk.inj same
  have order : compareCursorOrderedEvents a b = comparePositions a.position b.position := by
    rw [compareCursorOrderedEvents, region, table, Std.ReflOrd.compare_self,
      Std.ReflOrd.compare_self]
    rfl
  cases result : comparePositions a.position b.position with
  | lt => exact result
  | gt => simp [order, result] at le
  | eq =>
    exact absurd (compareCursorOrderedEvents_eq (order.trans result)
      (placed.wire a (perm.mem_iff.mp memA)) (placed.wire b (perm.mem_iff.mp memB))) ne

theorem Placed.filterStale_sorted {events : List ReplicationEvent} {cursors : Cursors}
    (placed : Placed events) (typed : TypedCursors cursors) :
    filterStale cursors (sortForCursor events) = (sortForCursor events).filter fun e =>
      (positions cursors e.pair).Before e.position := by
  have perm : (sortForCursor events).Perm events := List.perm_insertionSort _ events
  rw [(filterStale_spec typed fun e mem => ((placed.perm perm).wire e mem).typed).1]
  exact RunningMax.records_of_ascending placed.sorted_ascending

section EventBatch

variable {V : Type} [DecidableEq V] {repo : Repository} {server : Server V}
  {mode : ReplicationApplyMode} {store : Store V} {events other : List ReplicationEvent}

theorem orderedEvents_valid (valid : ∀ e ∈ events, validateEvent e = .ok ()) :
    orderedEvents mode ⟨.eventBatch, events⟩ = sortForCursor (allowedEvents mode events) := by
  rw [orderedEvents, prepareEvents_valid valid]
  rfl

end EventBatch

end Transmogr
