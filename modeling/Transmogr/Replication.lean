import Transmogr.Keys
import Mathlib.Data.List.Sort

/-! Replication events, modes and cursors (`models/replication.go`,
`models/state.go`), and the position order the receiver's cursor follows. -/
namespace Transmogr

inductive ReplicationOperation where
  | unset
  | insert
  | update
  | upsert
  | delete
  deriving DecidableEq, Repr

inductive ReplicationApplyMode where
  | insertOnly
  | upsert
  | fullSync
  deriving DecidableEq, Repr

inductive ReplicationBroadcastMode where
  | insertOnly
  | upsert
  | fullSync
  deriving DecidableEq, Repr

/-- A `map[string][]byte` of raw JSON values. -/
abbrev Fields := Std.ExtTreeMap String Bytes

structure ReplicationEvent where
  peerRegion : String
  table : String
  eventID : String
  primaryKey : PrimaryKey
  operation : ReplicationOperation
  version : Int
  fields : Fields
  deriving DecidableEq

def applyAllowed (mode : ReplicationApplyMode) (op : ReplicationOperation) : Bool :=
  match mode with
  | .insertOnly => op == .insert
  | .upsert => op != .delete
  | .fullSync => true

def broadcastAllowed (mode : ReplicationBroadcastMode) (op : ReplicationOperation) : Bool :=
  match mode with
  | .insertOnly => op == .insert
  | .upsert => op != .delete
  | .fullSync => true

structure StateCursor where
  peerRegion : String
  table : String
  lastEventID : String
  lastVersion : Int
  lastPrimaryKey : PrimaryKey
  deriving DecidableEq, Repr

def isStaleCursorPosition (version : Int) (primaryKey : PrimaryKey) (cursor : StateCursor) : Bool :=
  if version < cursor.lastVersion then true
  else if version > cursor.lastVersion then false
  else (comparePrimaryKeys primaryKey cursor.lastPrimaryKey).isLE

/-- Where an event stands in the order its table's cursor follows. -/
structure Position where
  version : Int
  key : PrimaryKey
  deriving DecidableEq, Repr

def comparePositions (p q : Position) : Ordering :=
  (compare p.version q.version).then (comparePrimaryKeys p.key q.key)

def Position.Before (p q : Position) : Prop := comparePositions p q = .lt

instance (p q : Position) : Decidable (p.Before q) :=
  inferInstanceAs (Decidable (comparePositions p q = .lt))

def Position.Typed (p : Position) : Prop := TypedKey p.key

def ReplicationEvent.position (e : ReplicationEvent) : Position := ⟨e.version, e.primaryKey⟩

def StateCursor.position (c : StateCursor) : Position := ⟨c.lastVersion, c.lastPrimaryKey⟩

theorem comparePositions_swap (p q : Position) :
    comparePositions p q = (comparePositions q p).swap := by
  have version : compare p.version q.version = (compare q.version p.version).swap :=
    Std.OrientedOrd.eq_swap
  have key : comparePrimaryKeys p.key q.key = (comparePrimaryKeys q.key p.key).swap :=
    Std.OrientedCmp.eq_swap
  rw [comparePositions, comparePositions, Ordering.swap_then, ← version, ← key]

instance : Std.OrientedCmp comparePositions where
  eq_swap := comparePositions_swap _ _

def Position.rank (p : Position) : Int × List PartRank := (p.version, p.key.map (·.rank))

def comparePositionRank : Int × List PartRank → Int × List PartRank → Ordering :=
  compareLex (compareOn Prod.fst) (compareOn Prod.snd)

instance : Std.TransCmp comparePositionRank :=
  inferInstanceAs (Std.TransCmp (compareLex _ _))

theorem comparePositions_eq_rank {p q : Position} (tp : p.Typed) (tq : q.Typed) :
    comparePositions p q = comparePositionRank p.rank q.rank := by
  rw [comparePositions, comparePrimaryKeys_eq_rank tp tq]
  rfl

namespace Position

theorem Before.asymm {p q : Position} (h : p.Before q) : ¬ q.Before p := by
  intro back
  rw [Before, comparePositions_swap, h] at back
  cases back

theorem not_before_self (p : Position) : ¬ p.Before p :=
  fun h => h.asymm h

theorem Before.trans {p q r : Position} (tp : p.Typed) (tq : q.Typed) (tr : r.Typed)
    (pq : p.Before q) (qr : q.Before r) : p.Before r := by
  rw [Before, comparePositions_eq_rank tp tq] at pq
  rw [Before, comparePositions_eq_rank tq tr] at qr
  rw [Before, comparePositions_eq_rank tp tr]
  exact Std.TransCmp.lt_trans pq qr

theorem before_iff {p q : Position} :
    p.Before q ↔ p.version < q.version ∨
      p.version = q.version ∧ comparePrimaryKeys p.key q.key = .lt := by
  rw [Before, comparePositions]
  rcases lt_trichotomy p.version q.version with lt | eq | gt
  · simp [compare_lt_iff_lt.mpr lt, lt]
  · simp [eq]
  · have : compare p.version q.version = .gt := compare_gt_iff_gt.mpr gt
    simp only [this, Ordering.then]
    constructor
    · intro h; cases h
    · rintro (h | h) <;> omega

end Position

/-- The cursor test skips an event exactly when the cursor is not before it. -/
theorem isStaleCursorPosition_eq (version : Int) (key : PrimaryKey) (cursor : StateCursor) :
    isStaleCursorPosition version key cursor = !decide (cursor.position.Before ⟨version, key⟩) := by
  have swap : comparePrimaryKeys cursor.lastPrimaryKey key =
      (comparePrimaryKeys key cursor.lastPrimaryKey).swap := Std.OrientedCmp.eq_swap
  simp only [isStaleCursorPosition, Position.before_iff, StateCursor.position]
  rcases lt_trichotomy version cursor.lastVersion with lt | eq | gt
  · have : ¬ cursor.lastVersion < version := by omega
    have ne : cursor.lastVersion ≠ version := by omega
    simp [lt, this, ne]
  · subst eq
    simp only [lt_irrefl, if_false, swap, true_and, false_or]
    cases comparePrimaryKeys key cursor.lastPrimaryKey <;> rfl
  · have : ¬ version < cursor.lastVersion := by omega
    simp [gt, this]

end Transmogr
