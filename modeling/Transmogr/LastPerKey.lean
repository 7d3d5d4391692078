import Mathlib.Data.List.DropRight
import Transmogr.Echo
import Transmogr.EventCalls

/-! Only the last event of each primary key is applied. The row is then what all events would have
made of it if and only if the last one hides what the earlier ones did. -/
namespace Transmogr.LastPerKey

open Sql Slots

variable {V : Type}

/-- The table that takes the events of a peer, and how. -/
structure Sink (V : Type) where
  server : Server V
  mode : ReplicationApplyMode
  spec : TableSpec
  tableRef : String
  region : String

/-- The columns of the table. -/
abbrev Sink.columns (sink : Sink V) : List String := sink.server.columns sink.tableRef

/-- A payload as a row of the table. -/
abbrev Sink.row (sink : Sink V) (data : Object) : Row V := populateRow sink.server sink.tableRef data

/-- The two rows agree in the columns, or neither is there. -/
def SameRow (columns : List String) (slot slot' : Option (Row V)) : Prop :=
  slot.isSome = slot'.isSome ∧ ∀ column ∈ columns, slot.bind (· column) = slot'.bind (· column)

theorem SameRow.refl (columns : List String) (slot : Option (Row V)) : SameRow columns slot slot :=
  ⟨rfl, fun _ _ => rfl⟩

/-- The row before the events, or none if one of them deletes it. -/
def startOf (slot : Option (Row V)) (events : List ReplicationEvent) : Option (Row V) :=
  if ∃ event ∈ events, event.operation = .delete then none else slot

def sinceDelete (events : List ReplicationEvent) : List ReplicationEvent :=
  events.rtakeWhile (·.operation ≠ .delete)

variable [DecidableEq V]

instance (columns : List String) (slot slot' : Option (Row V)) : Decidable (SameRow columns slot slot') :=
  inferInstanceAs (Decidable (_ ∧ _))

namespace Sink

section Gates

variable (sink : Sink V)

/-- A row the region may take over: it has no owner, or it is the region's own. -/
def Free (row : Row V) : Prop :=
  sink.spec.regionField ≠ "" → row sink.spec.regionField = none ∨
    row sink.spec.regionField = some (sink.server.ofText sink.region)

def Owned (row : Row V) : Prop :=
  sink.spec.regionField ≠ "" → row sink.spec.regionField = some (sink.server.ofText sink.region)

/-- No row of another owner. -/
def Open (slot : Option (Row V)) : Prop := ∀ row, slot = some row → sink.Free row

/-- The row is there and the region's own. -/
def Settled (slot : Option (Row V)) : Prop := ∃ row, slot = some row ∧ sink.Owned row

/-- The row stands under its own key. -/
def Keyed (values : List V) (slot : Option (Row V)) : Prop :=
  ∀ row, slot = some row → keyValues sink.spec.primaryKey row = some values

instance (row : Row V) : Decidable (sink.Free row) := inferInstanceAs (Decidable (_ → _))

instance (row : Row V) : Decidable (sink.Owned row) := inferInstanceAs (Decidable (_ → _))

instance (slot : Option (Row V)) : Decidable (sink.Open slot) :=
  inferInstanceAs (Decidable (∀ row ∈ slot, _))

instance (slot : Option (Row V)) : Decidable (sink.Settled slot) :=
  inferInstanceAs (Decidable (∃ row ∈ slot, _))

variable {sink} {row excluded : Row V}

omit [DecidableEq V] in
theorem Owned.free (owned : sink.Owned row) : sink.Free row :=
  fun named => .inr (owned named)

theorem ownerAllows_iff (owned : sink.Owned excluded) :
    ownerAllows (ownerRegionCondition sink.spec) row excluded = true ↔ sink.Free row := by
  by_cases named : sink.spec.regionField = ""
  · simp [ownerRegionCondition, named, ownerAllows, Free]
  · simp only [ownerRegionCondition_of_ne named, ownerAllows, owned named]
    cases has : row sink.spec.regionField with
    | none => simp [Free, has]
    | some owner => simpa [Free, named, has] using eq_comm

theorem regionIs_iff (known : sink.region ≠ "") :
    regionIs sink.server (ownerRegionCondition sink.spec)
        (UpdateDiff.regionTexts sink.spec sink.region).head? row = true ↔ sink.Owned row := by
  by_cases named : sink.spec.regionField = ""
  · simp [ownerRegionCondition, named, regionIs, Owned]
  · simp [ownerRegionCondition_of_ne named, UpdateDiff.regionTexts, named, known, regionIs, Owned]

theorem regionIsOrNull_iff :
    regionIsOrNull sink.server (ownerRegionCondition sink.spec)
        (if sink.spec.regionField ≠ "" then [sink.region] else []).head? row = true ↔
      sink.Free row := by
  by_cases named : sink.spec.regionField = ""
  · simp [ownerRegionCondition, named, regionIsOrNull, Free]
  · simp [ownerRegionCondition_of_ne named, named, regionIsOrNull, regionIs, Free]

end Gates

section Acts

variable (sink : Sink V) (event : ReplicationEvent)

/-- The payload of a put. -/
def stamped : Object := stamp sink.spec sink.region event.fields

/-- The row a put sends. -/
def putRow : Row V :=
  insertedRow sink.server sink.tableRef (sink.stamped event).keys
    (sink.row (sink.stamped event))

/-- What a put makes of a row it may overwrite. -/
def overwritten (row : Row V) : Row V :=
  assign row (sink.putRow event) (UpdateDiff.updateColumns sink.spec (sink.stamped event))

def updated (row : Row V) : Row V :=
  assign row (sink.row event.fields)
    (UpdateDiff.updateColumns sink.spec event.fields)

/-- What an event leaves of the row of its key. -/
def act (slot : Option (Row V)) : Option (Row V) :=
  match event.operation with
  | .delete => slot.filter fun row => ¬sink.Free row
  | .update => slot.map fun row =>
    if sink.mode ≠ .insertOnly ∧ sink.Owned row then sink.updated event row else row
  | .unset | .insert | .upsert => some <| match slot with
    | none => sink.putRow event
    | some row => if sink.mode ≠ .insertOnly ∧ sink.Free row then sink.overwritten event row else row

/-- The events one after another. -/
def acts (events : List ReplicationEvent) (slot : Option (Row V)) : Option (Row V) :=
  events.foldl (fun row event => sink.act event row) slot

/-- A put makes a row of the key in the region's name; an update leaves the owner, whose column it
reads. -/
structure Lands (values : List V) : Prop where
  putKey : event.operation ≠ .update → event.operation ≠ .delete →
    keyValues sink.spec.primaryKey (sink.putRow event) = some values
  putOwner : event.operation ≠ .update → event.operation ≠ .delete → sink.Owned (sink.putRow event)
  updateOwner : event.operation = .update → sink.mode ≠ .insertOnly → ∀ row,
    sink.Owned row → sink.Owned (sink.updated event row)
  ownerColumn : event.operation = .update → sink.mode ≠ .insertOnly → sink.spec.regionField ≠ "" →
    sink.spec.regionField ∈ sink.columns

/-- The value an event sends for a column, if it sends one. -/
def sent (column : String) : Option (Option V) :=
  match event.operation with
  | .delete => none
  | .update => if column ∈ UpdateDiff.updateColumns sink.spec event.fields then
      some (sink.row event.fields column) else none
  | .unset | .insert | .upsert =>
    if column ∈ sink.stamped event then some (sink.putRow event column) else none

/-- The columns a put does not send. -/
def base (slot : Option (Row V)) (column : String) : Option V :=
  match slot with
  | none => sink.server.columnDefault sink.tableRef column
  | some row => row column

/-- The row with the columns the event sends. -/
def set (slot : Option (Row V)) : Option (Row V) :=
  some fun column => (sink.sent event column).getD (sink.base slot column)

variable {sink event} {events : List ReplicationEvent} {values : List V} {slot : Option (Row V)}
  {column : String}

omit [DecidableEq V] in
theorem keyValues_assign {row source : Row V} (payload : Object) :
    keyValues sink.spec.primaryKey (assign row source (UpdateDiff.updateColumns sink.spec payload)) =
      keyValues sink.spec.primaryKey row := by
  apply keyValues_congr
  intro column mem
  simp [assign, UpdateDiff.updateColumns, mem]

/-- Where the row an event leaves comes from. -/
theorem act_cases {row : Row V} (left : sink.act event slot = some row) :
    slot = some row ∨
      (event.operation ≠ .update ∧ event.operation ≠ .delete ∧
        (row = sink.putRow event ∨ ∃ old, slot = some old ∧ sink.Free old ∧
          row = sink.overwritten event old)) ∨
      (event.operation = .update ∧ sink.mode ≠ .insertOnly ∧
        ∃ old, slot = some old ∧ sink.Owned old ∧ row = sink.updated event old) := by
  cases op : event.operation with
  | delete =>
    simp only [act, op, Option.filter_eq_some_iff] at left
    exact .inl left.1
  | update =>
    simp only [act, op, Option.map_eq_some_iff] at left
    obtain ⟨old, rfl, rfl⟩ := left
    split
    · next allowed => exact .inr (.inr ⟨rfl, allowed.1, old, rfl, allowed.2, rfl⟩)
    · exact .inl rfl
  | unset | insert | upsert =>
    simp only [act, op, Option.some.injEq] at left
    subst left
    cases slot with
    | none => exact .inr (.inl ⟨nofun, nofun, .inl rfl⟩)
    | some old =>
      dsimp only
      split
      · next allowed => exact .inr (.inl ⟨nofun, nofun, .inr ⟨old, rfl, allowed.2, rfl⟩⟩)
      · exact .inl rfl

theorem keyed_act (lands : sink.Lands event values) (keyed : sink.Keyed values slot) :
    sink.Keyed values (sink.act event slot) := by
  intro row left
  obtain same | ⟨notUpdate, notDelete, rfl | ⟨old, present, -, rfl⟩⟩ | ⟨-, -, old, present, -, rfl⟩ :=
    act_cases left
  · exact keyed row same
  · exact lands.putKey notUpdate notDelete
  · exact (keyValues_assign _).trans (keyed old present)
  · exact (keyValues_assign _).trans (keyed old present)

omit [DecidableEq V] in
theorem free_assign {row source : Row V} {columns : List String} (free : sink.Free row)
    (owned : sink.Owned source) : sink.Free (assign row source columns) := by
  intro named
  by_cases sent : sink.spec.regionField ∈ columns
  · simp only [assign, if_pos sent]
    exact owned.free named
  · simp only [assign, if_neg sent]
    exact free named

/-- An event leaves no row to another owner. -/
theorem open_act (lands : sink.Lands event values) (before : sink.Open slot) :
    sink.Open (sink.act event slot) := by
  intro row left
  obtain same | ⟨notUpdate, notDelete, rfl | ⟨old, -, free, rfl⟩⟩ | ⟨update, updates, old, -, owned, rfl⟩ :=
    act_cases left
  · exact before row same
  · exact (lands.putOwner notUpdate notDelete).free
  · exact free_assign free (lands.putOwner notUpdate notDelete)
  · exact (lands.updateOwner update updates old owned).free

theorem acts_keeps (lands : ∀ event ∈ events, sink.Lands event values)
    (keyed : sink.Keyed values slot) (before : sink.Open slot) :
    sink.Keyed values (sink.acts events slot) ∧ sink.Open (sink.acts events slot) := by
  induction events generalizing slot with
  | nil => exact ⟨keyed, before⟩
  | cons event rest ih =>
    obtain ⟨first, others⟩ := List.forall_mem_cons.mp lands
    exact ih others (keyed_act first keyed) (open_act first before)

/-- A row of another owner is left alone. -/
theorem act_of_not_open (closed : ¬sink.Open slot) : sink.act event slot = slot := by
  simp only [Open, not_forall] at closed
  obtain ⟨row, rfl, foreign⟩ := closed
  have notOwned : ¬sink.Owned row := fun owned => foreign owned.free
  cases op : event.operation <;> simp [act, op, foreign, notOwned]

theorem acts_of_not_open (closed : ¬sink.Open slot) : sink.acts events slot = slot := by
  induction events with
  | nil => rfl
  | cons event rest ih =>
    change sink.acts rest (sink.act event slot) = slot
    rw [act_of_not_open closed, ih]

theorem act_delete (delete : event.operation = .delete) (before : sink.Open slot) :
    sink.act event slot = none := by
  simp only [act, delete, Option.filter_eq_none_iff]
  intro row present
  simpa using before row present

theorem act_update_of_not_settled (update : event.operation = .update) (foreign : ¬sink.Settled slot) :
    sink.act event slot = slot := by
  cases slot with
  | none => simp [act, update]
  | some row =>
    have notOwned : ¬sink.Owned row := fun owned => foreign ⟨row, rfl, owned⟩
    simp [act, update, notOwned]

theorem act_insertOnly (insertOnly : sink.mode = .insertOnly) (kept : event.operation ≠ .delete) :
    sink.act event slot = if event.operation = .update then slot else slot.or (some (sink.putRow event)) := by
  cases slot <;> cases op : event.operation <;> simp [act, op, insertOnly] at kept ⊢

section Writes

variable (updates : sink.mode ≠ .insertOnly) (kept : event.operation ≠ .delete)
  (takes : event.operation = .update → sink.Settled slot) (lands : sink.Lands event values)
  (keyed : sink.Keyed values slot) (before : sink.Open slot)

include updates kept takes lands keyed before

/-- An event that writes the row sets the columns it sends. -/
theorem act_writes : sink.act event slot = sink.set event slot := by
  rw [set]
  by_cases update : event.operation = .update
  · obtain ⟨row, rfl, owned⟩ := takes update
    simp only [act, update, Option.map_some, if_pos (And.intro updates owned), Option.some.injEq]
    funext column
    by_cases sets : column ∈ UpdateDiff.updateColumns sink.spec event.fields <;>
      simp [updated, assign, sent, update, base, sets]
  · have key := lands.putKey update kept
    have puts : sink.act event slot = some (slot.elim (sink.putRow event) (sink.overwritten event)) := by
      cases slot with
      | none => cases op : event.operation <;> simp [act, op] at update kept ⊢
      | some row =>
        cases op : event.operation <;> simp [act, op, updates, before row rfl] at update kept ⊢
    have sends : sink.sent event = fun column => if column ∈ sink.stamped event then
        some (sink.putRow event column) else none := by
      funext column
      cases op : event.operation <;> simp [sent, op] at update kept ⊢
    rw [puts, sends, Option.some.injEq]
    funext column
    cases slot with
    | none => by_cases named : column ∈ sink.stamped event <;> simp [base, putRow, insertedRow, named]
    | some row =>
      simp only [Option.elim_some, overwritten, assign, UpdateDiff.updateColumns, base]
      by_cases named : column ∈ sink.stamped event
      · by_cases inKey : column ∈ sink.spec.primaryKey
        · -- The key columns are not assigned: both rows have the key.
          simp [named, inKey, column_eq_of_keyValues (keyed row rfl) key column inKey]
        · simp [named, inKey]
      · simp [named]

/-- The row is the region's own from then on. -/
theorem settled_act (known : sink.region ≠ "") : sink.Settled (sink.act event slot) := by
  by_cases update : event.operation = .update
  · obtain ⟨row, rfl, owned⟩ := takes update
    exact ⟨_, by simp [act, update, updates, owned], lands.updateOwner update updates row owned⟩
  · refine ⟨_, act_writes updates kept takes lands keyed before, fun named => ?_⟩
    have stamped : sink.spec.regionField ∈ sink.stamped event := mem_stamp.mpr (.inr ⟨named, known, rfl⟩)
    have owner := lands.putOwner update kept named
    cases op : event.operation <;> simp [sent, op, stamped, owner] at update kept ⊢

end Writes

end Acts

section Left

variable (sink : Sink V)

/-- Which of the events since the last delete write the row: all of them if it is the region's own,
else those from the first put on, which makes it so. In `insert_only` mode it is the first put, if
there is no row. -/
def effective (start : Option (Row V)) (events : List ReplicationEvent) : List ReplicationEvent :=
  if sink.mode = .insertOnly then
    if start.isSome then [] else (events.filter (·.operation ≠ .update)).take 1
  else if sink.Settled start then events
  else events.dropWhile (·.operation = .update)

/-- Each column has the last value sent for it. -/
def written (start : Option (Row V)) (writes : List ReplicationEvent) : Option (Row V) :=
  if writes.isEmpty then start
  else some fun column => (writes.reverse.findSome? (sink.sent · column)).getD (sink.base start column)

/-- The row the events leave since the last delete. -/
def since (start : Option (Row V)) (events : List ReplicationEvent) : Option (Row V) :=
  sink.written start (sink.effective start events)

/-- The row the events leave. -/
def leftRow (slot : Option (Row V)) (events : List ReplicationEvent) : Option (Row V) :=
  sink.since (startOf slot events) (sinceDelete events)

/-- An event has written the row, or the region had it before. -/
def Taken (start : Option (Row V)) (events : List ReplicationEvent) : Prop :=
  sink.Settled start ∨ sink.effective start events ≠ []

variable {sink} {event : ReplicationEvent} {values : List V} {slot start : Option (Row V)}
  {events writes : List ReplicationEvent} {column : String}

omit [DecidableEq V] in
theorem base_written : sink.base (sink.written start writes) column =
    (writes.reverse.findSome? (sink.sent · column)).getD (sink.base start column) := by
  cases writes with
  | nil => rfl
  | cons first rest => rfl

omit [DecidableEq V] in
theorem written_concat :
    sink.written start (writes ++ [event]) = sink.set event (sink.written start writes) := by
  rw [written, if_neg (by simp), set, Option.some.injEq]
  funext column
  rw [base_written, List.reverse_concat, List.findSome?_cons]
  cases sink.sent event column <;> rfl

omit [DecidableEq V] in
theorem written_put (notUpdate : event.operation ≠ .update) (kept : event.operation ≠ .delete) :
    sink.written none [event] = some (sink.putRow event) := by
  rw [← List.nil_append [event], written_concat, set, Option.some.injEq]
  funext column
  cases op : event.operation <;> simp only [op, ne_eq, not_true] at notUpdate kept
  all_goals by_cases sends : column ∈ sink.stamped event <;>
    simp [sent, op, sends, written, base, putRow, insertedRow]

theorem effective_nil : sink.effective start [] = [] := by
  simp [effective]

/-- In `insert_only` mode the first put makes the row and nothing changes it. -/
theorem act_since_insertOnly (insertOnly : sink.mode = .insertOnly) (kept : event.operation ≠ .delete) :
    sink.act event (sink.since start events) = sink.since start (events ++ [event]) := by
  rw [act_insertOnly insertOnly kept]
  simp only [since, effective, if_pos insertOnly]
  by_cases update : event.operation = .update
  · simp [List.filter_append, update]
  · rw [if_neg update]
    cases start with
    | some row => simp [written]
    | none =>
      simp only [Option.isSome_none, List.filter_append]
      cases puts : events.filter (·.operation ≠ .update) with
      | nil => simpa [update, written] using (written_put update kept).symm
      | cons first rest => simp [written]

theorem effective_concat (updates : sink.mode ≠ .insertOnly)
    (takes : event.operation = .update → sink.Taken start events) :
    sink.effective start (events ++ [event]) = sink.effective start events ++ [event] := by
  simp only [Taken, effective, if_neg updates] at takes ⊢
  by_cases settled : sink.Settled start
  · simp only [if_pos settled]
  · simp only [List.dropWhile_append, settled, false_or] at takes ⊢
    cases earlier : events.dropWhile (·.operation = .update) with
    | nil => simp [show event.operation ≠ .update from fun update => takes update earlier]
    | cons first rest => simp

/-- One more event since the last delete. -/
theorem act_since (known : sink.region ≠ "") (kept : event.operation ≠ .delete)
    (lands : sink.Lands event values) (keyed : sink.Keyed values (sink.since start events))
    (before : sink.Open (sink.since start events))
    (settles : sink.mode ≠ .insertOnly → sink.Taken start events → sink.Settled (sink.since start events)) :
    sink.act event (sink.since start events) = sink.since start (events ++ [event]) ∧
      (sink.mode ≠ .insertOnly → sink.Taken start (events ++ [event]) →
        sink.Settled (sink.since start (events ++ [event]))) := by
  by_cases insertOnly : sink.mode = .insertOnly
  · exact ⟨act_since_insertOnly insertOnly kept, fun updates => absurd insertOnly updates⟩
  by_cases takes : event.operation = .update → sink.Taken start events
  · have owned := fun update => settles insertOnly (takes update)
    have acts : sink.act event (sink.since start events) = sink.since start (events ++ [event]) := by
      rw [act_writes insertOnly kept owned lands keyed before, since, since,
        effective_concat insertOnly takes, written_concat]
    rw [← acts]
    exact ⟨rfl, fun _ _ => settled_act insertOnly kept owned lands keyed before known⟩
  · -- An update that finds no row of the region before any put.
    simp only [not_forall, Taken, not_or, not_not] at takes
    obtain ⟨update, foreign, nothing⟩ := takes
    have still : sink.effective start (events ++ [event]) = [] := by
      simp only [effective, if_neg insertOnly, if_neg foreign] at nothing ⊢
      simp [List.dropWhile_append, nothing, update]
    rw [Taken, since, since, nothing, still]
    exact ⟨act_update_of_not_settled update foreign, fun _ either => absurd rfl (either.resolve_left foreign)⟩

/-- The events leave the row that `leftRow` reads off them. -/
theorem acts_eq_leftRow (known : sink.region ≠ "") (lands : ∀ event ∈ events, sink.Lands event values)
    (keyed : sink.Keyed values slot) (before : sink.Open slot) :
    sink.acts events slot = sink.leftRow slot events ∧
      (sink.mode ≠ .insertOnly → sink.Taken (startOf slot events) (sinceDelete events) →
        sink.Settled (sink.leftRow slot events)) := by
  have fresh : ∀ start, sink.since start [] = start ∧ (sink.Taken start [] → sink.Settled start) := by
    intro start
    rw [since, Taken, effective_nil]
    exact ⟨rfl, fun either => either.resolve_right fun some => some rfl⟩
  induction events using List.reverseRecOn with
  | nil =>
    have start : startOf slot [] = slot := by simp [startOf]
    rw [leftRow, start, show sinceDelete [] = [] from rfl, (fresh slot).1]
    exact ⟨rfl, fun _ => (fresh slot).2⟩
  | append_singleton events event ih =>
    obtain ⟨earlier, last⟩ := List.forall_mem_append.mp lands
    obtain ⟨left, settles⟩ := ih earlier
    obtain ⟨keyedLeft, openLeft⟩ := acts_keeps earlier keyed before
    rw [left] at keyedLeft openLeft
    rw [acts, List.foldl_concat, ← acts, left]
    by_cases delete : event.operation = .delete
    · have start : startOf slot (events ++ [event]) = none := by simp [startOf, delete]
      have since : sinceDelete (events ++ [event]) = [] := by simp [sinceDelete, delete]
      rw [act_delete delete openLeft, leftRow, start, since, (fresh none).1]
      exact ⟨rfl, fun _ => (fresh none).2⟩
    · have start : startOf slot (events ++ [event]) = startOf slot events := by
        simp [startOf, delete, or_and_right, exists_or]
      have since : sinceDelete (events ++ [event]) = sinceDelete events ++ [event] := by
        simp [sinceDelete, delete]
      simp only [leftRow, start, since]
      exact act_since known delete (last event List.mem_cons_self) keyedLeft openLeft settles

end Left

section Hides

variable (sink : Sink V)

/-- The columns the event does not send are alike. -/
def SameUnsent (event : ReplicationEvent) (slot slot' : Option (Row V)) : Prop :=
  ∀ column ∈ sink.columns, sink.sent event column = none →
    sink.base slot column = sink.base slot' column

instance (event : ReplicationEvent) (slot slot' : Option (Row V)) :
    Decidable (sink.SameUnsent event slot slot') :=
  inferInstanceAs (Decidable (∀ column ∈ _, _))

/-- The last event on a row hides the earlier ones, where the row is not another region's: a delete
in any case; an update of the region's own row, and a put, if they have left the columns it does not
send as they were. An update that does not apply hides nothing, nor does a put over a row in
`insert_only` mode. -/
def Hides (slot : Option (Row V)) (earlier : List ReplicationEvent) (last : ReplicationEvent) : Prop :=
  let left := sink.leftRow slot earlier
  let put := some (sink.putRow last)
  sink.Open slot →
    match last.operation with
    | .delete => True
    | .update =>
      if sink.mode ≠ .insertOnly ∧ sink.Settled slot then left.isSome ∧ sink.SameUnsent last left slot
      else SameRow sink.columns left slot
    | .unset | .insert | .upsert =>
      if sink.mode = .insertOnly then SameRow sink.columns (left.or put) (slot.or put)
      else sink.SameUnsent last left slot

instance (slot : Option (Row V)) (earlier : List ReplicationEvent) :
    (last : ReplicationEvent) → Decidable (sink.Hides slot earlier last)
  | ⟨_, _, _, _, .delete, _, _⟩ => .isTrue fun _ => trivial
  | ⟨_, _, _, _, .update, _, _⟩ => inferInstanceAs (Decidable (_ → _))
  | ⟨_, _, _, _, .unset, _, _⟩ => inferInstanceAs (Decidable (_ → _))
  | ⟨_, _, _, _, .insert, _, _⟩ => inferInstanceAs (Decidable (_ → _))
  | ⟨_, _, _, _, .upsert, _, _⟩ => inferInstanceAs (Decidable (_ → _))

variable {sink} {event : ReplicationEvent} {values : List V} {slot left : Option (Row V)}
  {earlier : List ReplicationEvent}

omit [DecidableEq V] in
theorem sameRow_set :
    SameRow (sink.columns) (sink.set event left) (sink.set event slot) ↔
      sink.SameUnsent event left slot := by
  constructor
  · rintro ⟨-, same⟩ column listed unsent
    simpa [set, unsent] using same column listed
  · refine fun same => ⟨rfl, fun column listed => ?_⟩
    cases value : sink.sent event column with
    | none => simpa [set, value] using same column listed value
    | some value' => simp [set, value]

omit [DecidableEq V] in
theorem Settled.of_sameRow {columns : List String}
    (listed : sink.spec.regionField ≠ "" → sink.spec.regionField ∈ columns)
    (same : SameRow columns left slot) (settled : sink.Settled left) : sink.Settled slot := by
  obtain ⟨row, rfl, owned⟩ := settled
  obtain ⟨row', rfl⟩ := Option.isSome_iff_exists.mp (same.1.symm.trans rfl)
  refine ⟨row', rfl, fun named => ?_⟩
  exact (same.2 _ (listed named)).symm.trans (owned named)

/-- An update after the earlier events and without them. -/
theorem update_same_iff (known : sink.region ≠ "") (update : event.operation = .update)
    (updates : sink.mode ≠ .insertOnly) (lands : sink.Lands event values)
    (keyed : sink.Keyed values slot) (keyedLeft : sink.Keyed values left) (before : sink.Open slot)
    (openLeft : sink.Open left) (settles : sink.Settled slot → left.isSome → sink.Settled left) :
    SameRow (sink.columns) (sink.act event left) (sink.act event slot) ↔
      if sink.Settled slot then left.isSome ∧ sink.SameUnsent event left slot
      else SameRow (sink.columns) left slot := by
  have kept : event.operation ≠ .delete := by simp [update]
  split
  · next settled =>
    rw [act_writes updates kept (fun _ => settled) lands keyed before]
    cases left with
    | none => simp [act, update, SameRow, set]
    | some row =>
      rw [act_writes updates kept (fun _ => settles settled rfl) lands keyedLeft openLeft, sameRow_set]
      simp
  · next foreign =>
    have listed := lands.ownerColumn update updates
    rw [act_update_of_not_settled update foreign]
    by_cases taken : sink.Settled left
    · -- The row has become the region's own, which the update alone does not see.
      have after := settled_act updates kept (fun _ => taken) lands keyedLeft openLeft known
      exact iff_of_false (fun same => foreign (after.of_sameRow listed same))
        fun same => foreign (taken.of_sameRow listed same)
    · rw [act_update_of_not_settled update taken]

/-- The region's own row stays so or goes. -/
theorem settled_leftRow (settled : sink.Settled slot)
    (settles : sink.Taken (startOf slot earlier) (sinceDelete earlier) →
      sink.Settled (sink.leftRow slot earlier))
    (some : (sink.leftRow slot earlier).isSome) : sink.Settled (sink.leftRow slot earlier) := by
  by_cases nothing : sink.effective (startOf slot earlier) (sinceDelete earlier) = []
  · refine settles (.inl ?_)
    by_cases deleted : ∃ event ∈ earlier, event.operation = .delete
    · have gone : startOf slot earlier = none := if_pos deleted
      rw [leftRow, since, nothing, gone] at some
      simp [written] at some
    · rwa [startOf, if_neg deleted]
  · exact settles (.inr nothing)

theorem hides_iff (known : sink.region ≠ "") (lands : ∀ event ∈ earlier, sink.Lands event values)
    (landsLast : sink.Lands event values) (keyed : sink.Keyed values slot) :
    SameRow (sink.columns) (sink.act event (sink.acts earlier slot))
      (sink.act event slot) ↔ sink.Hides slot earlier event := by
  by_cases before : sink.Open slot
  · obtain ⟨keyedLeft, openLeft⟩ := acts_keeps lands keyed before
    obtain ⟨left, settles⟩ := acts_eq_leftRow known lands keyed before
    rw [left] at keyedLeft openLeft ⊢
    cases op : event.operation with
    | delete =>
      rw [act_delete op before, act_delete op openLeft]
      simp [Hides, op, SameRow.refl]
    | update =>
      simp only [Hides, op, before, forall_const]
      by_cases insertOnly : sink.mode = .insertOnly
      · simp [act, op, insertOnly]
      · simp only [ne_eq, insertOnly, not_false_eq_true, true_and]
        exact update_same_iff known op insertOnly landsLast keyed keyedLeft before openLeft
          fun settled => settled_leftRow settled (settles insertOnly)
    | unset | insert | upsert =>
      have notUpdate : event.operation ≠ .update := by simp [op]
      have kept : event.operation ≠ .delete := by simp [op]
      have takes : ∀ {slot}, event.operation = .update → sink.Settled slot :=
        fun update => absurd update notUpdate
      simp only [Hides, op, before, forall_const]
      split
      · next insertOnly =>
        rw [act_insertOnly insertOnly kept, act_insertOnly insertOnly kept, if_neg notUpdate,
          if_neg notUpdate]
      · next updates =>
        rw [act_writes updates kept takes landsLast keyed before,
          act_writes updates kept takes landsLast keyedLeft openLeft]
        exact sameRow_set
  · rw [acts_of_not_open before]
    exact iff_of_true (SameRow.refl _ _) fun opened => absurd opened before

end Hides

end Sink

section Events

variable (repo : Repository) (sink : Sink V) (table : String) (rowOf : PrimaryKey → List V)

/-- An event of the peer and table; its payload has the key of the row its primary key stands for. -/
structure Concerns (event : ReplicationEvent) : Prop where
  peer : event.peerRegion = sink.region
  table_eq : event.table = table
  names : event.operation = .update → event.NamesRegion repo sink.server sink.region
  addresses : ∃ data, eventPayload sink.spec event = some data ∧
    keyValues sink.spec.primaryKey (sink.row data) = some (rowOf event.primaryKey)

/-- The write an event stands for, also if the mode skips it. -/
def Sink.eventWrite (event : ReplicationEvent) : Write (String × List V) (Option (Row V)) :=
  ⟨(sink.tableRef, rowOf event.primaryKey), sink.act event⟩

/-- The rows of the table stand under their own keys. -/
def Sink.WellKeyed (rows : TableRows V) : Prop := ∀ key, sink.Keyed key (rows key)

abbrev Sink.call (event : ReplicationEvent) : Call := eventCall sink.mode sink.spec sink.tableRef event

/-- Every table has the same rows. -/
def SameContents (server : Server V) (tables tables' : Tables V) : Prop :=
  ∀ table key, SameRow (server.columns table) (tables table key) (tables' table key)

variable {repo sink table rowOf} {event : ReplicationEvent} {values : List V} {data : Object}
  {events : List ReplicationEvent} {tables final : Tables V}

open Sink

/-- With no column to assign, doing nothing is the same as assigning. -/
theorem rowAct_put (owner : sink.Owned (sink.putRow event)) (row : Row V) {texts : List String} :
    (Statement.insert sink.tableRef (sink.stamped event).keys sink.spec.primaryKey
        (conflictAction sink.spec (sink.stamped event).keys (sink.mode ≠ .insertOnly))).rowAct sink.server
        texts (sink.row (sink.stamped event)) (some row) =
      some (if sink.mode ≠ .insertOnly ∧ sink.Free row then sink.overwritten event row else row) := by
  rcases conflictAction_cases sink.spec (sink.stamped event).keys (sink.mode ≠ .insertOnly) with
    ⟨nothing, keyOnly | insertOnly⟩ | ⟨updates, -, overwrite⟩
  · have unassigned : UpdateDiff.updateColumns sink.spec (sink.stamped event) = [] := keyOnly
    have same : assign row (sink.putRow event) [] = row := funext fun _ => if_neg List.not_mem_nil
    rw [nothing, overwritten, unassigned, same, ite_self]
    rfl
  · have skips : sink.mode = .insertOnly := by simpa using insertOnly
    rw [nothing]
    simp [Statement.rowAct, skips]
  · have mode_ne : sink.mode ≠ .insertOnly := by simpa using updates
    have allowed : ownerAllows (ownerRegionCondition sink.spec) row (sink.putRow event) = true ↔
        sink.mode ≠ .insertOnly ∧ sink.Free row :=
      (ownerAllows_iff owner).trans (and_iff_right mode_ne).symm
    rw [overwrite]
    simp only [putRow, Statement.rowAct] at allowed ⊢
    simp only [allowed]
    rfl

/-- The act of the event's statement. -/
theorem rowAct_eq (known : sink.region ≠ "") (peer : event.peerRegion = sink.region)
    (sent : eventPayload sink.spec event = some data) (updates : ¬Skips sink.mode event)
    (lands : sink.Lands event values) :
    (sink.call event).1.rowAct sink.server (eventTexts sink.spec event) (sink.row data) =
      sink.act event := by
  funext slot
  cases op : event.operation with
  | delete =>
    simp only [eventCall, eventStatement, eventTexts, op, peer, buildBatchDeleteQuery, Statement.rowAct,
      act]
    congr 1
    funext row
    rw [Bool.eq_iff_iff, Bool.not_eq_true', Bool.eq_false_iff, ne_eq, regionIsOrNull_iff]
    simp
  | update =>
    simp only [eventPayload, op, Option.some.injEq] at sent
    subst sent
    have mode_ne : sink.mode ≠ .insertOnly := fun insertOnly => updates ⟨insertOnly, op⟩
    simp only [eventCall, eventStatement, eventTexts, op, peer, Statement.rowAct, act, updated,
      regionIs_iff known, mode_ne, ne_eq, not_false_eq_true, true_and]
  | unset | insert | upsert =>
    simp only [eventPayload, op, Option.some.injEq, peer] at sent
    subst sent
    have owner := lands.putOwner (by simp [op]) (by simp [op])
    simp only [eventCall, eventStatement, op, peer, act]
    cases slot with
    | none => rfl
    | some row => exact rowAct_put owner row

omit [DecidableEq V] in
theorem rowKey_eq (lands : sink.Lands event values) (peer : event.peerRegion = sink.region)
    (sent : eventPayload sink.spec event = some data)
    (keyed : keyValues sink.spec.primaryKey (sink.row data) = some values) :
    (sink.call event).1.rowKey sink.server (sink.row data) = some values := by
  cases op : event.operation with
  | delete | update =>
    simp only [eventCall, eventStatement, op]
    exact keyed
  | unset | insert | upsert =>
    simp only [eventPayload, op, Option.some.injEq, peer] at sent
    subst sent
    simp only [eventCall, eventStatement, op, peer]
    exact lands.putKey (by simp [op]) (by simp [op])

/-- An event that is executed makes its one write. -/
theorem callWrites_eventCall (known : sink.region ≠ "") (concerns : Concerns repo sink table rowOf event)
    (updates : ¬Skips sink.mode event) (ready : Ready sink.server (sink.call event))
    (lands : sink.Lands event (rowOf event.primaryKey)) :
    callWrites sink.server (sink.call event) = [sink.eventWrite rowOf event] := by
  obtain ⟨data, sent, keyed⟩ := concerns.addresses
  have read := ready.populated (List.mem_singleton.mpr sent.symm)
  have key := rowKey_eq lands concerns.peer sent keyed
  have acts := rowAct_eq known concerns.peer sent updates lands
  simp only [eventCall, eventStatement_table] at read key acts
  have written : payloadWrite sink.server (eventStatement sink.mode sink.spec sink.tableRef event)
      (eventTexts sink.spec event) (eventPayload sink.spec event) =
      some ⟨rowOf event.primaryKey, sink.act event⟩ := by
    rw [payloadWrite, eventStatement_table, sent, read]
    simp only [Except.toOption, Option.bind_some, Statement.rowWrite, key, acts, Option.map_some]
  simp only [callWrites, rowWrites, eventCall, List.filterMap_cons, List.filterMap_nil, written,
    List.map_cons, List.map_nil, eventStatement_table, eventWrite]

variable (found : tableSpec repo table = .ok (sink.spec, sink.tableRef)) (known : sink.region ≠ "")
  (reads : ReadsRegion repo sink.server sink.region)

omit [DecidableEq V] in
include found known reads in
/-- Rows of a put are the region's: its payload is stamped. -/
theorem owned_putRow (columns : ∀ column ∈ (sink.stamped event).keys, column ∈ sink.columns)
    (read : populateRecord sink.server sink.tableRef (some (sink.stamped event)) =
      .ok (sink.row (sink.stamped event))) :
    sink.Owned (sink.putRow event) := by
  intro named
  have stamped : Stamped sink.spec sink.region [some (sink.stamped event)] := by
    intro payload sent
    cases List.mem_singleton.mp sent
    exact buildUpsertPayload_stamps known named (buildUpsertPayload_stamp _ _ event.fields)
  exact insertedRow_region reads found
    (Std.ExtTreeMap.mem_keys.mpr (mem_stamp.mpr (.inr ⟨named, known, rfl⟩))) stamped columns
    List.mem_cons_self read

omit [DecidableEq V] in
include found in
theorem owned_updated (concerns : Concerns repo sink table rowOf event) (update : event.operation = .update)
    (columns : ∀ column ∈ UpdateDiff.updateColumns sink.spec event.fields, column ∈ sink.columns)
    {row : Row V} (owned : sink.Owned row) : sink.Owned (sink.updated event row) := by
  intro named
  by_cases sent : sink.spec.regionField ∈ UpdateDiff.updateColumns sink.spec event.fields
  · have field : sink.spec.regionField ∈ event.fields :=
      Std.ExtTreeMap.mem_keys.mp (List.mem_filter.mp sent).1
    obtain ⟨raw, has⟩ := Option.isSome_iff_exists.mp (Std.ExtTreeMap.mem_iff_isSome_getElem?.mp field)
    have converted := concerns.names update sink.spec sink.tableRef (concerns.table_eq ▸ found) raw has
    simp [updated, assign, sent, populateRow, columns _ sent, has, converted]
  · simp only [updated, assign, if_neg sent]
    exact owned named

omit [DecidableEq V] in
include found known reads in
/-- What an event needs to land follows from its execution. -/
theorem lands_of_ready (concerns : Concerns repo sink table rowOf event)
    (complete : Complete sink.spec event) (ready : Ready sink.server (sink.call event)) :
    sink.Lands event (rowOf event.primaryKey) := by
  obtain ⟨data, sent, keyed⟩ := concerns.addresses
  have columns := ready.known
  refine ⟨fun notUpdate notDelete => ?_, fun notUpdate notDelete => ?_, fun update _ row owned => ?_,
    fun update _ named => ?_⟩
  · have payload := (eventPayload_put notUpdate notDelete).symm.trans sent
    have named := complete.put notUpdate notDelete
    rw [concerns.peer] at payload named
    cases payload
    exact (keyValues_insertedRow named).trans keyed
  · have read := ready.populated (List.mem_singleton.mpr (eventPayload_put notUpdate notDelete).symm)
    simp only [eventCall, eventStatement_put notUpdate notDelete, concerns.peer] at columns read
    exact owned_putRow found known reads columns read
  · simp only [eventCall, eventStatement, update] at columns
    refine owned_updated found concerns update (fun column mem => ?_) owned
    exact columns column (List.mem_append_left _ (List.mem_append_left _ mem))
  · simp only [eventCall, eventStatement, update] at columns
    apply columns
    simp [Statement.columnNames, ownerRegionCondition_of_ne named]

include found known reads

theorem event_lands (concerns : Concerns repo sink table rowOf event)
    (executable : Executable repo sink.server sink.mode event) :
    sink.Lands event (rowOf event.primaryKey) ∧ ∀ store,
      run store (eventWrites repo sink.server sink.mode event) =
        (sink.eventWrite rowOf event).apply store := by
  obtain ⟨calls, made, ready⟩ := executable
  obtain ⟨⟨insertOnly, update⟩, rfl⟩ | ⟨updates, spec', tableRef', found', complete, rfl⟩ :=
    eventCalls_ready made ready
  · refine ⟨⟨fun notUpdate => absurd update notUpdate, fun notUpdate => absurd update notUpdate,
      fun _ updates => absurd insertOnly updates, fun _ updates => absurd insertOnly updates⟩,
      fun store => ?_⟩
    have kept : ∀ slot, sink.act event slot = slot := by
      simp [act, update, insertOnly]
    rw [eventWrites, made, apply_of_keeps kept]
    rfl
  · obtain ⟨rfl, rfl⟩ := Prod.mk.inj (Except.ok.inj ((concerns.table_eq ▸ found').symm.trans found))
    have readyCall := ready _ List.mem_cons_self
    have lands := lands_of_ready found known reads concerns complete readyCall
    refine ⟨lands, fun store => ?_⟩
    rw [eventWrites, made]
    simp only [Except.toOption, Option.getD_some, List.flatMap_cons, List.flatMap_nil, List.append_nil,
      callWrites_eventCall known concerns updates readyCall lands]
    rfl

theorem run_eventWrites (concerns : ∀ event ∈ events, Concerns repo sink table rowOf event)
    (executable : ∀ event ∈ events, Executable repo sink.server sink.mode event)
    (store : String × List V → Option (Row V)) :
    run store (events.flatMap (eventWrites repo sink.server sink.mode)) =
      run store (events.map (sink.eventWrite rowOf)) := by
  induction events generalizing store with
  | nil => rfl
  | cons event rest ih =>
    obtain ⟨concern, concerns⟩ := List.forall_mem_cons.mp concerns
    obtain ⟨execute, executable⟩ := List.forall_mem_cons.mp executable
    rw [List.flatMap_cons, run_append, (event_lands found known reads concern execute).2,
      ih concerns executable]
    rfl

omit found reads in
/-- The last event of each key ends alike with and without the earlier ones if it hides them. -/
theorem same_lastPerKey_iff (lands : ∀ event ∈ events, sink.Lands event (rowOf event.primaryKey))
    (distinct : ∀ event ∈ events, ∀ other ∈ events,
      rowOf event.primaryKey = rowOf other.primaryKey → event.primaryKey = other.primaryKey)
    (keyed : sink.WellKeyed (tables sink.tableRef)) :
    (∀ slot, SameRow (sink.server.columns slot.1)
        (run (slots tables) (events.map (sink.eventWrite rowOf)) slot)
        (run (slots tables) ((Grouping.lastPerKey (·.primaryKey) events).map (sink.eventWrite rowOf))
          slot)) ↔
      ∀ event ∈ Grouping.lastPerKey (·.primaryKey) events,
        sink.Hides (tables sink.tableRef (rowOf event.primaryKey))
          (events.filter (·.primaryKey = event.primaryKey)).dropLast event := by
  have same : ∀ event ∈ events, ∀ other ∈ events, event.primaryKey = other.primaryKey ↔
      (sink.tableRef, rowOf event.primaryKey) = (sink.tableRef, rowOf other.primaryKey) := by
    intro event mem other mem'
    constructor
    · intro alike
      rw [alike]
    · intro slots
      exact distinct event mem other mem' (Prod.mk.inj slots).2
  refine (run_lastPerKey_iff same fun _ => SameRow.refl _).trans (forall₂_congr fun event kept => ?_)
  have landsEarlier : ∀ other ∈ (events.filter (·.primaryKey = event.primaryKey)).dropLast,
      sink.Lands other (rowOf event.primaryKey) := by
    intro other mem
    obtain ⟨inEvents, alike⟩ := List.mem_filter.mp (List.dropLast_subset _ mem)
    exact of_decide_eq_true alike ▸ lands other inEvents
  exact hides_iff known landsEarlier (lands event (Grouping.mem_of_mem_lastPerKey kept)) (keyed _)

end Events

/-- One user is put and renamed, the other is put twice. -/
def userHistory : List ReplicationEvent :=
  [addedUser, userEvent "us" "2" 1 "cat", renamedUser, userEvent "us" "2" 2 "dog"]

def usersSink : Sink String := ⟨usersServer, .fullSync, usersSpec, "\"users\"", "us"⟩

def userRowOf (key : PrimaryKey) : List String := key.filterMap fun part => Json.unmarshalString part.value

end Transmogr.LastPerKey
