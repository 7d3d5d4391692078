import Mathlib.Algebra.Group.Nat.Defs
import Mathlib.Logic.Function.Basic
import Transmogr.Fallible
import Transmogr.Machine

/-! Leases (`postgres/state_leases.go`): one row per scope, with an owner, a generation and
an expiry. Times are in microseconds. -/
namespace Transmogr.Leases

structure Scope where
  kind : String
  region : String
  peerRegion : String
  table : String
  deriving DecidableEq, Repr

def nullableText (value : String) : Option String := if value = "" then none else some value

/-- The generated column `table_scope` -/
def tableScope (tableName : Option String) : String := tableName.getD ""

theorem tableScope_nullableText (table : String) : tableScope (nullableText table) = table := by
  unfold nullableText
  split
  · next empty => rw [empty]; rfl
  · rfl

/-- A row under the primary key `(lease_kind, region, peer_region, table_scope)`. -/
structure LeaseRow (scope : Scope) where
  tableName : Option String
  generated : tableScope tableName = scope.table
  ownerID : String
  generation : Nat
  expiresAt : Int
  updatedAt : Int

abbrev LeaseTable := (scope : Scope) → Option (LeaseRow scope)

structure Lease where
  scope : Scope
  ownerID : String
  generation : Nat
  expiresAt : Int
  updatedAt : Int
  deriving DecidableEq, Repr

/-- The `RETURNING` clause -/
def LeaseRow.lease {scope : Scope} (row : LeaseRow scope) : Lease :=
  ⟨{ scope with table := tableScope row.tableName }, row.ownerID, row.generation, row.expiresAt,
    row.updatedAt⟩

@[simp] theorem LeaseRow.lease_scope {scope : Scope} (row : LeaseRow scope) :
    row.lease.scope = scope := by
  simp only [LeaseRow.lease, row.generated]

/-- `NOW()` is when the statement began on the database; the expiry is counted from the
pod's own clock. -/
structure Timing where
  now : Int
  podClock : Int
  ttl : Int
  deriving DecidableEq, Repr

def leaseExpiry (timing : Timing) : Except String Int :=
  if timing.ttl ≤ 0 then .error "lease ttl must be positive" else .ok (timing.podClock + timing.ttl)

def maxBigint : Nat := 2 ^ 63 - 1

def scopeText (scope : Scope) : String := scope.kind ++ "/" ++ scope.region ++ "/" ++ scope.peerRegion

/-- A lease that changes hands gets the next generation. -/
def nextGeneration {scope : Scope} (row : LeaseRow scope) (ownerID : String) : Nat :=
  if row.ownerID = ownerID then row.generation else row.generation + 1

section Statements

variable (leases : LeaseTable) (scope : Scope) (ownerID : String)

def tryStateAcquireLease (timing : Timing) : Except String (LeaseTable × Option Lease) := do
  let expiresAt ← leaseExpiry timing
  match leases scope with
  | none =>
    let row : LeaseRow scope := ⟨nullableText scope.table, tableScope_nullableText scope.table,
      ownerID, 1, expiresAt, timing.now⟩
    return (Function.update leases scope (some row), some row.lease)
  | some row =>
    if row.expiresAt ≤ timing.now ∨ row.ownerID = ownerID then
      if maxBigint < nextGeneration row ownerID then
        .error ("try acquire lease " ++ scopeText scope ++ ": bigint out of range")
      else
        let next : LeaseRow scope := { row with
          ownerID, generation := nextGeneration row ownerID, expiresAt, updatedAt := timing.now }
        return (Function.update leases scope (some next), some next.lease)
    else return (leases, none)

/-- The conditions that renewing and releasing share. `table_name` determines `table_scope`,
so no row of another scope meets them. -/
def owned (generation : Nat) : Option (LeaseRow scope) :=
  (leases scope).filter fun row =>
    row.tableName = nullableText scope.table ∧ row.ownerID = ownerID ∧ row.generation = generation

def renewStateLease (generation : Nat) (timing : Timing) :
    Except String (LeaseTable × Option Lease) := do
  let expiresAt ← leaseExpiry timing
  match (owned leases scope ownerID generation).filter fun row => timing.now < row.expiresAt with
  | none => return (leases, none)
  | some row =>
    let next : LeaseRow scope := { row with expiresAt, updatedAt := timing.now }
    return (Function.update leases scope (some next), some next.lease)

def releaseStateLease (generation : Nat) : LeaseTable × Bool :=
  match owned leases scope ownerID generation with
  | none => (leases, false)
  | some _ => (Function.update leases scope none, true)

def cleanupExpiredStateLeases (now : Int) : LeaseTable := fun scope =>
  (leases scope).filter fun row => now < row.expiresAt

end Statements

section Outcomes

variable {leases next : LeaseTable} {scope : Scope} {ownerID : String} {timing : Timing}
  {generation : Nat} {answer : Option Lease}

/-- What a lease that is handed out leaves in the table, where the row of the scope may have
been another one. -/
structure Granted (leases : LeaseTable) (ownerID : String) (next : LeaseTable)
    (row : LeaseRow scope) : Prop where
  wrote : next = Function.update leases scope (some row)
  owner : row.ownerID = ownerID
  kept : ∀ old, leases scope = some old → old.ownerID = ownerID → row.generation = old.generation
  bumped : ∀ old, leases scope = some old → old.ownerID ≠ ownerID → old.generation < row.generation

theorem tryStateAcquireLease_cases
    (ran : tryStateAcquireLease leases scope ownerID timing = .ok (next, answer)) :
    (next = leases ∧ answer = none ∧
      ∃ row, leases scope = some row ∧ timing.now < row.expiresAt ∧ row.ownerID ≠ ownerID) ∨
    ∃ row : LeaseRow scope, answer = some row.lease ∧ Granted leases ownerID next row ∧
      ∀ old, leases scope = some old → old.expiresAt ≤ timing.now ∨ old.ownerID = ownerID := by
  obtain ⟨expiresAt, -, ran⟩ := Fallible.bind_eq_ok.mp ran
  split at ran
  · next absent =>
    cases ran
    exact .inr ⟨_, rfl, ⟨rfl, rfl, by simp [absent], by simp [absent]⟩, by simp [absent]⟩
  · next row present =>
    split at ran
    · next free =>
      split at ran
      · cases ran
      · cases ran
        refine .inr ⟨_, rfl, ⟨rfl, rfl, ?_, ?_⟩, ?_⟩
        · intro old has same
          cases present.symm.trans has
          exact if_pos same
        · intro old has other
          cases present.symm.trans has
          exact Nat.lt_of_lt_of_eq (Nat.lt_succ_self _) (if_neg other).symm
        · intro old has
          cases present.symm.trans has
          exact free
    · next taken =>
      cases ran
      rw [not_or, Int.not_le] at taken
      exact .inl ⟨rfl, rfl, row, present, taken⟩

theorem owned_eq_some {row : LeaseRow scope} (found : owned leases scope ownerID generation = some row) :
    leases scope = some row ∧ row.ownerID = ownerID ∧ row.generation = generation := by
  obtain ⟨present, all⟩ := Option.filter_eq_some_iff.mp found
  exact ⟨present, (of_decide_eq_true all).2⟩

theorem renewStateLease_cases
    (ran : renewStateLease leases scope ownerID generation timing = .ok (next, answer)) :
    (next = leases ∧ answer = none) ∨
    ∃ row : LeaseRow scope, answer = some row.lease ∧ Granted leases ownerID next row ∧
      row.generation = generation ∧ ∃ old, leases scope = some old ∧ old.ownerID = ownerID := by
  obtain ⟨expiresAt, -, ran⟩ := Fallible.bind_eq_ok.mp ran
  split at ran
  · cases ran
    exact .inl ⟨rfl, rfl⟩
  · next row found =>
    cases ran
    obtain ⟨present, owner, same⟩ := owned_eq_some (Option.filter_eq_some_iff.mp found).1
    refine .inr ⟨_, rfl, ⟨rfl, owner, ?_, ?_⟩, same, row, present, owner⟩
    · intro old has _
      cases present.symm.trans has
      rfl
    · intro old has other
      cases present.symm.trans has
      exact absurd owner other

theorem releaseStateLease_cases {released : Bool}
    (ran : releaseStateLease leases scope ownerID generation = (next, released)) :
    (next = leases ∧ released = false) ∨
    (next = Function.update leases scope none ∧ released = true ∧
      ∃ old, leases scope = some old ∧ old.ownerID = ownerID ∧ old.generation = generation) := by
  unfold releaseStateLease at ran
  split at ran
  · cases ran
    exact .inl ⟨rfl, rfl⟩
  · next row found =>
    cases ran
    exact .inr ⟨rfl, rfl, row, owned_eq_some found⟩

end Outcomes

/-- The database with its clock, and each owner's most recently returned lease of a scope, as
far as it was not released since. -/
structure LeaseState where
  clock : Int
  leases : LeaseTable
  returned : Scope → String → Option Lease

/-- A state in which no lease has been handed out yet. -/
def LeaseState.initial (clock : Int) (leases : LeaseTable) : LeaseState :=
  ⟨clock, leases, fun _ _ => none⟩

inductive LeaseCall
  | acquire (scope : Scope) (ownerID : String) (timing : Timing)
  | renew (scope : Scope) (ownerID : String) (generation : Nat) (timing : Timing)
  | release (scope : Scope) (ownerID : String) (generation : Nat)
  | cleanup (now : Int)
  | tick (clock : Int)
  deriving DecidableEq, Repr

namespace LeaseState

def hand (s : LeaseState) (scope : Scope) (ownerID : String) (lease : Option Lease) : LeaseState :=
  { s with returned := fun scope' ownerID' =>
      if scope' = scope ∧ ownerID' = ownerID then lease else s.returned scope' ownerID' }

/-- A call that fails, or that finds the lease taken, leaves what its owner had. -/
def answered (s : LeaseState) (scope : Scope) (ownerID : String) :
    Except String (LeaseTable × Option Lease) → LeaseState
  | .error _ => s
  | .ok (leases, none) => { s with leases }
  | .ok (leases, some lease) => { s with leases }.hand scope ownerID (some lease)

def released (s : LeaseState) (scope : Scope) (ownerID : String) : LeaseTable × Bool → LeaseState
  | (leases, false) => { s with leases }
  | (leases, true) => { s with leases }.hand scope ownerID none

/-- A statement begins no later than it takes effect, and the clock does not go back. -/
def step (s : LeaseState) : LeaseCall → Option LeaseState
  | .acquire scope ownerID timing =>
    if timing.now ≤ s.clock then
      some (s.answered scope ownerID (tryStateAcquireLease s.leases scope ownerID timing))
    else none
  | .renew scope ownerID generation timing =>
    if timing.now ≤ s.clock then
      some (s.answered scope ownerID (renewStateLease s.leases scope ownerID generation timing))
    else none
  | .release scope ownerID generation =>
    some (s.released scope ownerID (releaseStateLease s.leases scope ownerID generation))
  | .cleanup now =>
    if now ≤ s.clock then some { s with leases := cleanupExpiredStateLeases s.leases now } else none
  | .tick clock => if s.clock ≤ clock then some { s with clock } else none

def Holds (s : LeaseState) (scope : Scope) (ownerID : String) : Prop :=
  ∃ lease, s.returned scope ownerID = some lease ∧ s.clock < lease.expiresAt

/-- Every returned lease that has not expired is the row of its scope. -/
structure Backed (s : LeaseState) : Prop where
  own : ∀ scope ownerID lease, s.returned scope ownerID = some lease → lease.ownerID = ownerID
  row : ∀ scope ownerID lease, s.returned scope ownerID = some lease → s.clock < lease.expiresAt →
    ∃ row, s.leases scope = some row ∧ row.lease = lease

section Steps

variable {s t : LeaseState} {scope : Scope} {ownerID : String} {next : LeaseTable}

theorem Backed.owner (backed : s.Backed) (holds : s.Holds scope ownerID) :
    ∃ row, s.leases scope = some row ∧ row.ownerID = ownerID ∧ s.clock < row.expiresAt := by
  obtain ⟨lease, returned, valid⟩ := holds
  obtain ⟨row, present, rfl⟩ := backed.row scope ownerID lease returned valid
  exact ⟨row, present, backed.own scope ownerID _ returned, valid⟩

theorem Backed.unique (backed : s.Backed) {first second : String} (holds : s.Holds scope first)
    (holdsToo : s.Holds scope second) : first = second := by
  obtain ⟨row, present, rfl, -⟩ := backed.owner holds
  obtain ⟨row', present', rfl, -⟩ := backed.owner holdsToo
  cases present.symm.trans present'
  rfl

theorem Backed.granted (backed : s.Backed) {row : LeaseRow scope}
    (granted : Granted s.leases ownerID next row)
    (free : ∀ old, s.leases scope = some old → old.expiresAt ≤ s.clock ∨ old.ownerID = ownerID) :
    Backed ({ s with leases := next }.hand scope ownerID (some row.lease)) where
  own scope' ownerID' lease returned := by
    simp only [hand] at returned
    split at returned
    · next same =>
      cases returned
      exact granted.owner.trans same.2.symm
    · exact backed.own scope' ownerID' lease returned
  row scope' ownerID' lease returned valid := by
    simp only [hand] at returned valid ⊢
    rw [granted.wrote]
    split at returned
    · next same =>
      cases returned
      obtain ⟨rfl, -⟩ := same
      exact ⟨row, Function.update_self .., rfl⟩
    · next other =>
      obtain ⟨old, present, rfl⟩ := backed.row scope' ownerID' lease returned valid
      by_cases same : scope' = scope
      · subst same
        -- the row of another owner is replaced only when it has expired
        rcases free old present with expired | owner
        · exact absurd valid (Int.not_lt.mpr expired)
        · exact absurd ⟨rfl, (backed.own scope' ownerID' _ returned).symm.trans owner⟩ other
      · exact ⟨old, (Function.update_of_ne same ..).trans present, rfl⟩

theorem Backed.released (backed : s.Backed) {old : LeaseRow scope}
    (present : s.leases scope = some old) (owner : old.ownerID = ownerID) :
    Backed ({ s with leases := Function.update s.leases scope none }.hand scope ownerID none) where
  own scope' ownerID' lease returned := by
    simp only [hand] at returned
    split at returned
    · cases returned
    · exact backed.own scope' ownerID' lease returned
  row scope' ownerID' lease returned valid := by
    simp only [hand] at returned valid ⊢
    split at returned
    · cases returned
    · next other =>
      obtain ⟨row, has, rfl⟩ := backed.row scope' ownerID' lease returned valid
      by_cases same : scope' = scope
      · subst same
        cases present.symm.trans has
        exact absurd ⟨rfl, (backed.own scope' ownerID' _ returned).symm.trans owner⟩ other
      · exact ⟨row, (Function.update_of_ne same ..).trans has, rfl⟩

/-- What a statement can do. -/
inductive Moves (s : LeaseState) : LeaseState → Prop where
  | nothing : Moves s s
  | granted {scope : Scope} {ownerID : String} {next : LeaseTable} {row : LeaseRow scope}
      (granted : Granted s.leases ownerID next row)
      (free : ∀ old, s.leases scope = some old → old.expiresAt ≤ s.clock ∨ old.ownerID = ownerID) :
      Moves s ({ s with leases := next }.hand scope ownerID (some row.lease))
  | released {scope : Scope} {ownerID : String} {old : LeaseRow scope}
      (present : s.leases scope = some old) (owner : old.ownerID = ownerID) :
      Moves s ({ s with leases := Function.update s.leases scope none }.hand scope ownerID none)
  | cleaned {now : Int} (began : now ≤ s.clock) :
      Moves s { s with leases := cleanupExpiredStateLeases s.leases now }
  | later {clock : Int} (later : s.clock ≤ clock) : Moves s { s with clock }

theorem step_moves {call : LeaseCall} (taken : s.step call = some t) : Moves s t := by
  cases call with
  | acquire scope ownerID timing =>
    simp only [step] at taken
    split at taken
    · next began =>
      cases taken
      match ran : tryStateAcquireLease s.leases scope ownerID timing with
      | .error _ => exact .nothing
      | .ok (next, answer) =>
        obtain ⟨rfl, rfl, -⟩ | ⟨row, rfl, granted, free⟩ := tryStateAcquireLease_cases ran
        · exact .nothing
        · exact .granted granted fun old has =>
            (free old has).imp_left fun expired => Int.le_trans expired began
    · cases taken
  | renew scope ownerID generation timing =>
    simp only [step] at taken
    split at taken
    · cases taken
      match ran : renewStateLease s.leases scope ownerID generation timing with
      | .error _ => exact .nothing
      | .ok (next, answer) =>
        obtain ⟨rfl, rfl⟩ | ⟨row, rfl, granted, -, old, present, owner⟩ := renewStateLease_cases ran
        · exact .nothing
        · refine .granted granted fun old' has => .inr ?_
          cases present.symm.trans has
          exact owner
    · cases taken
  | release scope ownerID generation =>
    cases taken
    match ran : releaseStateLease s.leases scope ownerID generation with
    | (next, answer) =>
      obtain ⟨rfl, rfl⟩ | ⟨rfl, rfl, old, present, owner, -⟩ := releaseStateLease_cases ran
      · exact .nothing
      · exact .released present owner
  | cleanup now =>
    simp only [step] at taken
    split at taken
    · next began =>
      cases taken
      exact .cleaned began
    · cases taken
  | tick clock =>
    simp only [step] at taken
    split at taken
    · next later =>
      cases taken
      exact .later later
    · cases taken

theorem Backed.moves (backed : s.Backed) (moved : Moves s t) : t.Backed := by
  cases moved with
  | nothing => exact backed
  | granted granted free => exact backed.granted granted free
  | released present owner => exact backed.released present owner
  | cleaned began =>
    refine ⟨backed.own, fun scope ownerID lease returned valid => ?_⟩
    obtain ⟨row, present, rfl⟩ := backed.row scope ownerID lease returned valid
    refine ⟨row, ?_, rfl⟩
    exact Option.filter_eq_some_iff.mpr ⟨present, decide_eq_true (Int.lt_of_le_of_lt began valid)⟩
  | later later =>
    exact ⟨backed.own, fun scope ownerID lease returned valid =>
      backed.row scope ownerID lease returned (Int.lt_of_le_of_lt later valid)⟩

/-- How a row may follow another one of its scope: the generation grows when the owner
changes and stays otherwise. -/
def Follows {scope : Scope} (row next : LeaseRow scope) : Prop :=
  (next.ownerID ≠ row.ownerID → row.generation < next.generation) ∧
    (next.ownerID = row.ownerID → next.generation = row.generation)

theorem Follows.refl {scope : Scope} (row : LeaseRow scope) : Follows row row :=
  ⟨fun other => absurd rfl other, fun _ => rfl⟩

theorem follows_of_granted {leases : LeaseTable} {written : LeaseRow scope}
    (granted : Granted leases ownerID next written) (scope' : Scope) {row after : LeaseRow scope'}
    (before : leases scope' = some row) (present : next scope' = some after) : Follows row after := by
  rw [granted.wrote] at present
  by_cases same : scope' = scope
  · subst same
    rw [Function.update_self] at present
    cases present
    rw [Follows, granted.owner]
    exact ⟨fun other => granted.bumped row before (Ne.symm other),
      fun same => granted.kept row before same.symm⟩
  · rw [Function.update_of_ne same, before] at present
    cases present
    exact .refl row

theorem Moves.follows (moved : Moves s t) {row after : LeaseRow scope}
    (before : s.leases scope = some row) (present : t.leases scope = some after) :
    Follows row after := by
  have unchanged : s.leases scope = some after → Follows row after := fun same => by
    cases before.symm.trans same
    exact .refl row
  cases moved with
  | nothing => exact unchanged present
  | granted granted => exact follows_of_granted granted scope before present
  | @released scope' =>
    by_cases same : scope = scope'
    · subst same
      exact absurd ((Function.update_self ..).symm.trans present) (by simp)
    · exact unchanged ((Function.update_of_ne same ..).symm.trans present)
  | cleaned => exact unchanged (Option.filter_eq_some_iff.mp present).1
  | later => exact unchanged present

end Steps

theorem backed_initial (clock : Int) (leases : LeaseTable) : (initial clock leases).Backed :=
  ⟨fun _ _ _ returned => (nomatch returned), fun _ _ _ returned => (nomatch returned)⟩

end LeaseState

open LeaseState

/-- At every moment, at most one owner of a scope holds a lease that has not expired; and
from one moment to the next, the generation of a row grows with each change of owner and
never otherwise changes. -/
theorem one_owner_per_scope {clock : Int} {leases : LeaseTable} {calls : List LeaseCall}
    {t : LeaseState} (ran : Machine.run step (initial clock leases) calls = some t) :
    (∀ scope first second, t.Holds scope first → t.Holds scope second → first = second) ∧
    ∀ call u, t.step call = some u → ∀ scope row after, t.leases scope = some row →
      u.leases scope = some after →
      (after.ownerID ≠ row.ownerID → row.generation < after.generation) ∧
      (after.ownerID = row.ownerID → after.generation = row.generation) := by
  have backed : t.Backed := Machine.invariant_of_steps (fun _ _ _ backed taken =>
    backed.moves (step_moves taken)) (backed_initial clock leases) ran
  exact ⟨fun _ _ _ holds holdsToo => backed.unique holds holdsToo,
    fun _ _ taken _ _ _ before present => (step_moves taken).follows before present⟩

/-- The scope of the CDC producer of a region. -/
def producerScope : Scope := ⟨"producer", "eu", "", ""⟩

/-- The second pod's clock runs late; it takes over when the first lease has expired, and
the first pod's renewal and release then find nothing. -/
def takeover : List LeaseCall :=
  [.acquire producerScope "pod-1" ⟨0, 0, 30⟩, .acquire producerScope "pod-2" ⟨5, -20, 30⟩,
    .renew producerScope "pod-1" 1 ⟨8, 10, 30⟩, .tick 45,
    .acquire producerScope "pod-2" ⟨44, 25, 30⟩, .renew producerScope "pod-1" 1 ⟨45, 45, 30⟩,
    .release producerScope "pod-1" 1]

theorem one_owner_per_scope_takeover :
    ∃ t, Machine.run step (initial 10 fun _ => none) takeover = some t ∧
      t.Holds producerScope "pod-2" ∧
      (∀ scope first second, t.Holds scope first → t.Holds scope second → first = second) ∧
      ∀ call u, t.step call = some u → ∀ scope row after, t.leases scope = some row →
        u.leases scope = some after →
        (after.ownerID ≠ row.ownerID → row.generation < after.generation) ∧
        (after.ownerID = row.ownerID → after.generation = row.generation) :=
  ⟨_, rfl, ⟨⟨producerScope, "pod-2", 2, 55, 44⟩, by decide, by decide⟩,
    @one_owner_per_scope 10 (fun _ => none) takeover _ rfl⟩

end Transmogr.Leases
