import Transmogr.EventCalls
import Transmogr.Overwrite

/-! What the row statements do to the rows one peer region owns: an event overwrites
one row, and the events of a batch with one event per key do so independently. -/
namespace Transmogr

open Sql Overwrite

/-- A configured table of a receiver, and the peer region whose rows it replicates. -/
structure Site (V : Type) where
  repo : Repository
  server : Server V
  table : String
  spec : TableSpec
  tableRef : String
  region : String
  configured : tableSpec repo table = .ok (spec, tableRef)
  region_ne : region ≠ ""
  field_ne : spec.regionField ≠ ""
  key_ne : spec.primaryKey ≠ []
  key_column : ∀ column ∈ spec.primaryKey, column ∈ server.columns tableRef
  region_column : spec.regionField ∈ server.columns tableRef
  populate_region : server.populate tableRef spec.regionField (Json.quote region) =
    some (some (server.ofText region))

namespace Site

variable {V : Type} (site : Site V)

def columns : List String := site.server.columns site.tableRef

/-- The value of the region column in the rows the peer owns. -/
def owner : V := site.server.ofText site.region

/-- A row without what lies outside the table's columns. -/
def clip (row : Row V) : Row V := fun column =>
  if column ∈ site.columns then row column else none

def read (object : Object) : Row V := populateRow site.server site.tableRef object

def key (row : Row V) : Option (List V) := keyValues site.spec.primaryKey row

/-- The payload with the peer's region as `buildUpsertPayload` adds it. -/
def withRegion (fields : Fields) : Object := fields.insert site.spec.regionField (Json.quote site.region)

/-- The overwriting an event stands for. -/
def change (event : ReplicationEvent) : Change String (Option V) :=
  match event.operation with
  | .delete => .remove
  | .update => .patch event.fields.keys (site.read event.fields)
  | _ => .put (site.read (site.withRegion event.fields))

/-- The object gives the columns, and no others, the values of a row. -/
structure Prints (object : Object) (columns : List String) (row : Row V) : Prop where
  only : ∀ column ∈ object, column ∈ columns
  gives : ∀ column ∈ columns, ∃ raw, object[column]? = some raw ∧
    site.server.populate site.tableRef column raw = some (row column)

/-- The object is a record of the table with the given key. -/
structure Readable (object : Object) (key : List V) : Prop where
  known : ∀ column ∈ object, column ∈ site.columns
  populates : populates site.server site.tableRef object = true
  key : site.key (site.read object) = some key

/-- The object is a whole row the peer owns. -/
structure Whole (object : Object) (key : List V) : Prop extends site.Readable object key where
  covers : ∀ column ∈ site.columns, column ∈ object
  owned : site.read object site.spec.regionField = some site.owner

/-- The fields name some column to update, and do not give the row away. -/
structure Piece (object : Object) (key : List V) : Prop extends site.Readable object key where
  named : ∃ column ∈ object, column ∉ site.spec.primaryKey
  owned : site.spec.regionField ∈ object →
    site.read object site.spec.regionField = some site.owner

/-- The event is about the row with the given key. -/
structure Fits (event : ReplicationEvent) (key : List V) : Prop where
  table : event.table = site.table
  peerRegion : event.peerRegion = site.region
  parts : ∃ object, primaryKeyPayload event.primaryKey = some object ∧ site.Readable object key
  content : match event.operation with
    | .delete => True
    | .update => site.Piece event.fields key
    | _ => event.fields.isEmpty = false ∧ site.Whole (site.withRegion event.fields) key

/-- A row of the peer under its key. -/
structure Image (key : List V) (row : Row V) : Prop where
  keyed : site.key row = some key
  owned : row site.spec.regionField = some site.owner
  clipped : site.clip row = row

/-- The event gives columns of a row, its key among them. -/
structure TellsUpdate (event : ReplicationEvent) (key : List V) (named : List String)
    (row : Row V) : Prop where
  operation : event.operation = .update
  known : ∀ column ∈ named, column ∈ site.columns
  keyNamed : ∀ column ∈ site.spec.primaryKey, column ∈ named
  keyed : site.key row = some key
  owned : site.spec.regionField ∈ named → row site.spec.regionField = some site.owner
  prints : site.Prints event.fields named row

/-- The event says what was done to the row under a key: the whole row was written,
some of its columns were, or it was deleted. -/
def Tells (event : ReplicationEvent) (key : List V) : Change String (Option V) → Prop
  | .put row => (event.operation = .insert ∨ event.operation = .upsert) ∧ site.Image key row ∧
      site.Prints event.fields site.columns row
  | .patch named row => site.TellsUpdate event key named row
  | .remove => event.operation = .delete

/-- What a table may hold under a key so that the peer's statements reach it: the row
has that key, and no other region owns it. -/
structure Slot (values : List V) (target : Option (Row V)) : Prop where
  keyed : ∀ row ∈ target, site.key row = some values
  free : ∀ row ∈ target,
    row site.spec.regionField = none ∨ row site.spec.regionField = some site.owner

section

variable {site}

theorem clip_eq_of_forall {row row' : Row V} (same : ∀ column ∈ site.columns, row column = row' column)
    (outside : ∀ column, column ∉ site.columns → row' column = none) : site.clip row = row' := by
  funext column
  unfold clip
  split
  · next mem => exact same column mem
  · next mem => exact (outside column mem).symm

theorem read_outside (object : Object) {column : String} (outside : column ∉ site.columns) :
    site.read object column = none :=
  if_neg outside

theorem key_eq_iff {row row' : Row V} {values : List V} (known : site.key row = some values) :
    site.key row' = some values ↔ ∀ column ∈ site.spec.primaryKey, row' column = row column := by
  constructor
  · intro same
    exact column_eq_of_keyValues same known
  · intro same
    exact (keyValues_congr same).trans known

theorem ne_none_of_key {row : Row V} {values : List V} (known : site.key row = some values) :
    ∀ column ∈ site.spec.primaryKey, row column ≠ none := by
  unfold key keyValues at known
  generalize site.spec.primaryKey = columns at known ⊢
  induction columns generalizing values with
  | nil => exact fun _ mem => nomatch mem
  | cons column columns ih =>
    simp only [List.mapM_cons, Option.pure_def, Option.bind_eq_bind, Option.bind_eq_some_iff] at known
    obtain ⟨value, head, rest, tail, _⟩ := known
    exact List.forall_mem_cons.mpr ⟨by simp [head], ih tail⟩

section Prints

variable {object : Object} {named : List String} {row : Row V}

theorem Prints.mem_iff (prints : site.Prints object named row) {column : String} :
    column ∈ object ↔ column ∈ named := by
  refine ⟨prints.only column, fun mem => ?_⟩
  obtain ⟨raw, given, _⟩ := prints.gives column mem
  exact Std.ExtTreeMap.mem_iff_isSome_getElem?.mpr (by simp [given])

theorem Prints.read (prints : site.Prints object named row)
    (known : ∀ column ∈ named, column ∈ site.columns) {column : String} (mem : column ∈ named) :
    site.read object column = row column := by
  obtain ⟨raw, given, populated⟩ := prints.gives column mem
  have inTable : column ∈ site.server.columns site.tableRef := known column mem
  unfold Site.read populateRow
  rw [if_pos inTable, given, Option.bind_some, populated]
  rfl

theorem Prints.readable (prints : site.Prints object named row)
    (known : ∀ column ∈ named, column ∈ site.columns)
    (keys : ∀ column ∈ site.spec.primaryKey, column ∈ named) {values : List V}
    (keyed : site.key row = some values) : site.Readable object values := by
  constructor
  · exact fun column mem => known column (prints.only column mem)
  · unfold populates
    rw [List.all_eq_true]
    intro column _
    cases given : object[column]? with
    | none => rfl
    | some raw =>
      have mem : column ∈ named :=
        prints.only column (Std.ExtTreeMap.mem_iff_isSome_getElem?.mpr (by simp [given]))
      obtain ⟨raw', given', populated⟩ := prints.gives column mem
      cases given.symm.trans given'
      simp [populated]
  · exact (key_eq_iff keyed).mpr fun column mem => prints.read known (keys column mem)

/-- Adding the region changes nothing in what the peer's row prints. -/
theorem Prints.withRegion (prints : site.Prints object named row)
    (owned : row site.spec.regionField = some site.owner) (mem : site.spec.regionField ∈ named) :
    site.Prints (site.withRegion object) named row := by
  have get : ∀ column, (site.withRegion object)[column]? =
      if site.spec.regionField = column then some (Json.quote site.region) else object[column]? := by
    intro column
    unfold Site.withRegion
    rw [Std.ExtTreeMap.getElem?_insert]
    simp only [Std.LawfulEqOrd.compare_eq_iff_eq]
  constructor
  · intro column given
    by_cases here : site.spec.regionField = column
    · rwa [← here]
    · apply prints.only
      rw [Std.ExtTreeMap.mem_iff_isSome_getElem?, get, if_neg here] at given
      exact Std.ExtTreeMap.mem_iff_isSome_getElem?.mpr given
  · intro column named
    by_cases here : site.spec.regionField = column
    · rw [← here, owned]
      exact ⟨_, (get _).trans (if_pos rfl), site.populate_region⟩
    · rw [get, if_neg here]
      exact prints.gives column named

theorem Prints.read_eq_clip (prints : site.Prints object named row)
    (same : ∀ column, column ∈ named ↔ column ∈ site.columns) : site.read object = site.clip row := by
  symm
  apply clip_eq_of_forall
  · intro column mem
    exact (prints.read (fun column => (same column).mp) ((same column).mpr mem)).symm
  · exact fun column outside => read_outside object outside

/-- What prints all columns of a row of the peer is, with the region added, a whole row. -/
theorem Prints.whole (prints : site.Prints object named row)
    (same : ∀ column, column ∈ named ↔ column ∈ site.columns) {values : List V}
    (keyed : site.key row = some values) (owned : row site.spec.regionField = some site.owner) :
    site.Whole (site.withRegion object) values := by
  have known : ∀ column ∈ named, column ∈ site.columns := fun column => (same column).mp
  have regionNamed : site.spec.regionField ∈ named := (same _).mpr site.region_column
  have printsRow := prints.withRegion owned regionNamed
  constructor
  · exact printsRow.readable known (fun column mem => (same column).mpr (site.key_column column mem))
      keyed
  · exact fun column mem => printsRow.mem_iff.mpr ((same column).mpr mem)
  · rw [printsRow.read known regionNamed, owned]

end Prints

theorem isEmpty_of_mem {fields : Fields} {column : String} (mem : column ∈ fields) :
    fields.isEmpty = false := by
  rw [Std.ExtTreeMap.isEmpty_eq_false_iff]
  rintro rfl
  exact Std.ExtTreeMap.not_mem_empty mem

section Tells

variable {event : ReplicationEvent} {values : List V} {done : Change String (Option V)}

theorem Tells.fits (tells : site.Tells event values done) (table : event.table = site.table)
    (peerRegion : event.peerRegion = site.region)
    (parts : ∃ object row, primaryKeyPayload event.primaryKey = some object ∧
      site.Prints object site.spec.primaryKey row ∧ site.key row = some values)
    (named : ∀ named row, done = .patch named row → ∃ column ∈ named, column ∉ site.spec.primaryKey) :
    site.Fits event values := by
  refine ⟨table, peerRegion, ?_, ?_⟩
  · obtain ⟨object, row, payload, prints, keyed⟩ := parts
    exact ⟨object, payload, prints.readable site.key_column (fun _ mem => mem) keyed⟩
  · cases done with
    | put row =>
      obtain ⟨operation, image, prints⟩ := tells
      have filled := isEmpty_of_mem (prints.mem_iff.mpr site.region_column)
      have whole := prints.whole (fun _ => Iff.rfl) image.keyed image.owned
      rcases operation with insert | upsert
      · rw [insert]
        exact ⟨filled, whole⟩
      · rw [upsert]
        exact ⟨filled, whole⟩
    | patch columns row =>
      obtain ⟨column, mem, outside⟩ := named columns row rfl
      rw [tells.operation]
      refine ⟨tells.prints.readable tells.known tells.keyNamed tells.keyed,
        ⟨column, tells.prints.mem_iff.mpr mem, outside⟩, fun given => ?_⟩
      have regionNamed := tells.prints.mem_iff.mp given
      rw [tells.prints.read tells.known regionNamed, tells.owned regionNamed]
    | remove =>
      rw [show event.operation = .delete from tells]
      trivial

/-- The receiver reads from the event what the sender did. -/
theorem Tells.change_apply (tells : site.Tells event values done) (target : Option (Row V)) :
    (site.change event).apply target = done.apply target := by
  unfold Site.change
  cases done with
  | put row =>
    obtain ⟨operation, image, prints⟩ := tells
    have read : site.read (site.withRegion event.fields) = row := by
      rw [(prints.withRegion image.owned site.region_column).read_eq_clip fun _ => Iff.rfl,
        image.clipped]
    rcases operation with insert | upsert
    · rw [insert]
      exact congrArg some read
    · rw [upsert]
      exact congrArg some read
  | patch columns row =>
    rw [tells.operation]
    refine congrArg (target.map ·) (funext fun target => funext fun column => ?_)
    unfold overlay
    by_cases mem : column ∈ columns
    · rw [if_pos mem, if_pos (Std.ExtTreeMap.mem_keys.mpr (tells.prints.mem_iff.mpr mem)),
        tells.prints.read tells.known mem]
    · rw [if_neg mem, if_neg fun given =>
        mem (tells.prints.mem_iff.mp (Std.ExtTreeMap.mem_keys.mp given))]
  | remove => rw [show event.operation = .delete from tells]

end Tells

theorem populateRecord_of_readable {object : Object} {values : List V}
    (readable : site.Readable object values) :
    populateRecord site.server site.tableRef (some object) = .ok (site.read object) :=
  if_pos readable.populates

end

variable [DecidableEq V]

def owns (row : Row V) : Bool := row site.spec.regionField == some site.owner

/-- What the table holds for the peer under one key. -/
def view (target : Option (Row V)) : Option (Row V) :=
  (target.filter site.owns).map site.clip

/-- The changes were made under their keys, and nothing else. -/
structure Applied (before after : TableRows V)
    (changes : List (List V × Change String (Option V))) : Prop where
  slot : ∀ c ∈ changes, site.Slot c.1 (after c.1)
  touched : ∀ c ∈ changes, site.view (after c.1) = c.2.apply (site.view (before c.1))
  untouched : ∀ values, (∀ c ∈ changes, c.1 ≠ values) → after values = before values

variable {site}

namespace Applied

variable {before middle after : TableRows V} {changes later : List (List V × Change String (Option V))}

theorem nil (rows : TableRows V) : site.Applied rows rows [] :=
  ⟨fun _ mem => (nomatch mem), fun _ mem => (nomatch mem), fun _ _ => rfl⟩

theorem append (first : site.Applied before middle changes) (second : site.Applied middle after later)
    (apart : ∀ c ∈ changes, ∀ d ∈ later, c.1 ≠ d.1) : site.Applied before after (changes ++ later) := by
  have kept : ∀ c ∈ changes, after c.1 = middle c.1 := fun c mem =>
    second.untouched c.1 fun d mem' => (apart c mem d mem').symm
  have fresh : ∀ d ∈ later, middle d.1 = before d.1 := fun d mem =>
    first.untouched d.1 fun c mem' => apart c mem' d mem
  constructor
  · intro c mem
    rcases List.mem_append.mp mem with early | late
    · rw [kept c early]
      exact first.slot c early
    · exact second.slot c late
  · intro c mem
    rcases List.mem_append.mp mem with early | late
    · rw [kept c early]
      exact first.touched c early
    · rw [← fresh c late]
      exact second.touched c late
  · intro values other
    rw [second.untouched values fun d mem => other d (List.mem_append_right _ mem),
      first.untouched values fun c mem => other c (List.mem_append_left _ mem)]

end Applied

theorem view_of_owned {row : Row V} (owned : row site.spec.regionField = some site.owner) :
    site.view (some row) = some (site.clip row) := by
  have keeps : site.owns row = true := by simp [owns, owned]
  simp [view, keeps]

theorem view_of_unowned {row : Row V} (unowned : row site.spec.regionField ≠ some site.owner) :
    site.view (some row) = none := by
  have drops : site.owns row = false := by simp [owns, unowned]
  simp [view, drops]

omit [DecidableEq V] in
/-- A row with the key of a whole row, overwritten by it elsewhere, is that row. -/
theorem assign_eq_read {object : Object} {values : List V} (whole : site.Whole object values)
    {target excluded : Row V} (keyed : site.key target = some values)
    (inserted : ∀ column ∈ site.columns, excluded column = site.read object column)
    {assignments : List String}
    (rest : ∀ column ∈ site.columns, column ∉ site.spec.primaryKey → column ∈ assignments) :
    ∀ column ∈ site.columns, assign target excluded assignments column = site.read object column := by
  intro column mem
  unfold assign
  split
  · exact inserted column mem
  · next unassigned =>
    have inKey : column ∈ site.spec.primaryKey := by
      by_contra other
      exact unassigned (rest column mem other)
    exact (key_eq_iff whole.key).mp keyed column inKey

/-- A row that agrees with a whole row on the table's columns stands for it. -/
theorem stands_of_same {object : Object} {values : List V} (whole : site.Whole object values)
    {row : Row V} (same : ∀ column ∈ site.columns, row column = site.read object column) :
    site.Slot values (some row) ∧ site.view (some row) = some (site.read object) := by
  have keyed : site.key row = some values :=
    (key_eq_iff whole.key).mpr fun column mem => same column (site.key_column column mem)
  have owned : row site.spec.regionField = some site.owner :=
    (same _ site.region_column).trans whole.owned
  constructor
  · constructor
    · rintro _ ⟨⟩
      exact keyed
    · rintro _ ⟨⟩
      exact Or.inr owned
  · rw [view_of_owned owned,
      clip_eq_of_forall same fun column outside => read_outside object outside]

/-- A whole row is put in place under its key, whatever the peer may overwrite there. -/
theorem put_stands {columns texts : List String}
    (all : ∀ column, column ∈ columns ↔ column ∈ site.columns) {object : Object} {values : List V}
    (whole : site.Whole object values) {target : Option (Row V)} (slot : site.Slot values target) :
    let after := (Statement.insert site.tableRef columns site.spec.primaryKey
      (conflictAction site.spec columns true)).rowAct site.server texts (site.read object) target
    site.Slot values after ∧ site.view after = some (site.read object) := by
  have inserted : ∀ column ∈ site.columns,
      insertedRow site.server site.tableRef columns (site.read object) column =
        site.read object column := fun column mem => if_pos ((all column).mpr mem)
  cases target with
  | none => exact stands_of_same whole inserted
  | some target =>
    have keyed := slot.keyed target rfl
    obtain ⟨never, nothing⟩ | ⟨-, -, always⟩ := conflictAction_cases site.spec columns true
    · -- every column is in the key, so the row under the key is the object already
      rw [never]
      apply stands_of_same whole
      intro column mem
      have inKey := List.filter_eq_nil_iff.mp (nothing.resolve_right (by simp)) column
        ((all column).mpr mem)
      exact (key_eq_iff whole.key).mp keyed column (by simpa using inKey)
    · have allows : ownerAllows (some site.spec.regionField) target
          (insertedRow site.server site.tableRef columns (site.read object)) = true := by
        unfold ownerAllows
        rcases slot.free target rfl with null | own
        · simp [null]
        · simp [own, inserted _ site.region_column, whole.owned]
      simp only [always, ownerRegionCondition, if_neg site.field_ne, Statement.rowAct, allows, if_true]
      apply stands_of_same whole
      apply assign_eq_read whole keyed inserted
      intro column mem other
      exact List.mem_filter.mpr ⟨(all column).mpr mem, decide_eq_true other⟩

/-- Overwriting the named columns outside the key is a patch of all named columns. -/
theorem stands_of_assign {object : Object} {values : List V} (piece : site.Piece object values)
    {target : Row V} (keyed : site.key target = some values)
    (owned : target site.spec.regionField = some site.owner) :
    let row := assign target (site.read object)
      (object.keys.filter fun column => column ∉ site.spec.primaryKey)
    site.Slot values (some row) ∧
      site.view (some row) = some (overlay (site.clip target) (site.read object) object.keys) := by
  intro row
  have named : ∀ column, column ∈ object.keys → row column = site.read object column := by
    intro column mem
    by_cases inKey : column ∈ site.spec.primaryKey
    · have same := (key_eq_iff piece.key).mp keyed column inKey
      simp [row, assign, inKey, same]
    · simp [row, assign, inKey, mem]
  have unnamed : ∀ column, column ∉ object.keys → row column = target column := by
    intro column absent
    exact if_neg fun mem => absent (List.mem_filter.mp mem).1
  have rowKeyed : site.key row = some values := by
    apply (key_eq_iff keyed).mpr
    intro column inKey
    refine if_neg fun mem => ?_
    have notKey : column ∉ site.spec.primaryKey := by simpa using (List.mem_filter.mp mem).2
    exact notKey inKey
  have rowOwned : row site.spec.regionField = some site.owner := by
    by_cases mem : site.spec.regionField ∈ object.keys
    · rw [named _ mem]
      exact piece.owned (Std.ExtTreeMap.mem_keys.mp mem)
    · rw [unnamed _ mem, owned]
  refine ⟨⟨?_, ?_⟩, ?_⟩
  · rintro _ ⟨⟩
    exact rowKeyed
  · rintro _ ⟨⟩
    exact Or.inr rowOwned
  · rw [view_of_owned rowOwned]
    congr 1
    funext column
    unfold overlay
    split
    · next mem =>
      have known : column ∈ site.columns := piece.known column (Std.ExtTreeMap.mem_keys.mp mem)
      rw [clip, if_pos known, named column mem]
    · next absent => rw [clip, clip, unnamed column absent]

theorem regionIs_iff {target : Row V} :
    regionIs site.server (some site.spec.regionField) (some site.region) target = true ↔
      target site.spec.regionField = some site.owner := by
  simp [regionIs, owner]

/-- The row is patched if the peer owns it. -/
theorem patch_stands {object : Object} {values : List V} (piece : site.Piece object values)
    {target : Option (Row V)} (slot : site.Slot values target) :
    let after := (Statement.update site.tableRef (UpdateDiff.updateColumns site.spec object)
      site.spec.primaryKey (some site.spec.regionField)).rowAct site.server [site.region]
        (site.read object) target
    site.Slot values after ∧
      site.view after = (Change.patch object.keys (site.read object)).apply (site.view target) := by
  cases target with
  | none => exact ⟨slot, rfl⟩
  | some target =>
    have reached : regionIs site.server (some site.spec.regionField) [site.region].head? target = true ↔
        target site.spec.regionField = some site.owner := regionIs_iff
    simp only [Statement.rowAct, Option.map_some]
    rcases slot.free target rfl with null | own
    · -- the statement does not reach a row without an owner
      have unowned : target site.spec.regionField ≠ some site.owner := by simp [null]
      rw [if_neg (mt reached.mp unowned), view_of_unowned unowned]
      exact ⟨slot, rfl⟩
    · rw [if_pos (reached.mpr own), view_of_owned own]
      exact stands_of_assign piece (slot.keyed target rfl) own

/-- A row that no other region owns is removed. -/
theorem remove_stands {values : List V} {source : Row V} {target : Option (Row V)}
    (slot : site.Slot values target) :
    let after := (Statement.delete site.tableRef site.spec.primaryKey
      (some site.spec.regionField)).rowAct site.server [site.region] source target
    site.Slot values after ∧ site.view after = none := by
  have gone : (Statement.delete site.tableRef site.spec.primaryKey
      (some site.spec.regionField)).rowAct site.server [site.region] source target = none := by
    apply Option.filter_eq_none_iff.mpr
    intro row present
    have allowed : regionIsOrNull site.server (some site.spec.regionField) (some site.region) row =
        true := by
      unfold regionIsOrNull
      rcases slot.free row present with null | own
      · simp [null]
      · simp [regionIs_iff.mpr own]
    simp [allowed]
  simp only [gone]
  refine ⟨⟨?_, ?_⟩, rfl⟩
  · rintro row ⟨⟩
  · rintro row ⟨⟩

end Site

end Transmogr
