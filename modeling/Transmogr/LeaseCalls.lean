import Transmogr.Leases

/-! Work under a lease: `StateService.withLease`, `lease.Service.RunWithLease` and
`Manager.runPeerLoop` acquire a lease, renew it while their callback runs, and release it. -/
namespace Transmogr.Leases

inductive LeaseUser
  | withLease
  | runWithLease
  | runPeerLoop
  deriving DecidableEq, Repr

/-- A call on some pod, with the scope it asks for and the instance it runs on. -/
structure UserCall where
  user : LeaseUser
  scope : Scope
  ownerID : String
  deriving DecidableEq, Repr

/-- Where a call is. The lease is the one it last acquired or renewed; its renew loop ends
when a renewal fails. -/
inductive Phase
  | trying
  | working (lease : Lease) (renewing : Bool)
  | releasing (lease : Lease)
  | returned
  deriving DecidableEq, Repr

def Phase.lease : Phase → Option Lease
  | .trying | .returned => none
  | .working lease _ | .releasing lease => some lease

@[simp] theorem Phase.returned_lease : Phase.returned.lease = none := rfl

namespace LeaseUser

/-- The lease is taken: `ErrLeaseNotAcquired`, or another try later. -/
def afterMiss : LeaseUser → Phase
  | .withLease => .returned
  | .runWithLease | .runPeerLoop => .trying

def afterError : LeaseUser → Phase
  | .withLease | .runWithLease => .returned
  | .runPeerLoop => .trying

def afterRelease : LeaseUser → Phase
  | .withLease => .returned
  | .runWithLease | .runPeerLoop => .trying

def afterAcquire (user : LeaseUser) : Except String (LeaseTable × Option Lease) → Phase
  | .error _ => user.afterError
  | .ok (_, none) => user.afterMiss
  | .ok (_, some lease) => .working lease true

@[simp] theorem afterMiss_lease (user : LeaseUser) : user.afterMiss.lease = none := by
  cases user <;> rfl

@[simp] theorem afterError_lease (user : LeaseUser) : user.afterError.lease = none := by
  cases user <;> rfl

@[simp] theorem afterRelease_lease (user : LeaseUser) : user.afterRelease.lease = none := by
  cases user <;> rfl

end LeaseUser

/-- A renewal that fails, or finds the lease lost, cancels the callback's context. The loop
keeps its first handle, whose scope and generation a renewal does not change. -/
def afterRenew (lease : Lease) : Except String (LeaseTable × Option Lease) → Phase
  | .error _ | .ok (_, none) => .working lease false
  | .ok (_, some renewed) => .working renewed true

structure CallState (C : Type) where
  db : LeaseState
  phase : C → Phase

inductive CallAction (C : Type)
  | acquire (id : C) (timing : Timing)
  | acquireFails (id : C)
  | renew (id : C) (timing : Timing)
  | renewFails (id : C)
  /-- The callback returns, and the renew loop has ended. -/
  | finish (id : C)
  | release (id : C)
  | releaseFails (id : C)
  /-- The context of a loop is done. -/
  | stop (id : C)
  | crash (ownerID : String)
  | cleanup (now : Int)
  | tick (clock : Int)
  deriving DecidableEq, Repr

namespace CallState

variable {C : Type} [DecidableEq C] (calls : C → UserCall)

def enter (s : CallState C) (id : C) (phase : Phase) : CallState C :=
  { s with phase := Function.update s.phase id phase }

/-- A statement of the call, and the phase that follows. -/
def issue (s : CallState C) (id : C) (statement : LeaseCall) (phase : Phase) : Option (CallState C) :=
  (s.db.step statement).map fun db => { s with db }.enter id phase

def step (s : CallState C) : CallAction C → Option (CallState C)
  | .acquire id timing =>
    match s.phase id with
    | .trying =>
      s.issue id (.acquire (calls id).scope (calls id).ownerID timing) ((calls id).user.afterAcquire
        (tryStateAcquireLease s.db.leases (calls id).scope (calls id).ownerID timing))
    | _ => none
  | .acquireFails id =>
    match s.phase id with
    | .trying => some (s.enter id (calls id).user.afterError)
    | _ => none
  | .renew id timing =>
    match s.phase id with
    | .working lease true =>
      s.issue id (.renew lease.scope (calls id).ownerID lease.generation timing) (afterRenew lease
        (renewStateLease s.db.leases lease.scope (calls id).ownerID lease.generation timing))
    | _ => none
  | .renewFails id =>
    match s.phase id with
    | .working lease true => some (s.enter id (.working lease false))
    | _ => none
  | .finish id =>
    match s.phase id with
    | .working lease _ => some (s.enter id (.releasing lease))
    | _ => none
  | .release id =>
    match s.phase id with
    | .releasing lease =>
      s.issue id (.release lease.scope (calls id).ownerID lease.generation) (calls id).user.afterRelease
    | _ => none
  | .releaseFails id =>
    match s.phase id with
    | .releasing _ => some (s.enter id (calls id).user.afterRelease)
    | _ => none
  | .stop id =>
    match s.phase id with
    | .trying => some (s.enter id .returned)
    | _ => none
  | .crash ownerID =>
    some { s with phase := fun id => if (calls id).ownerID = ownerID then .returned else s.phase id }
  | .cleanup now => (s.db.step (.cleanup now)).map fun db => { s with db }
  | .tick clock => (s.db.step (.tick clock)).map fun db => { s with db }

/-- No call has begun. -/
def initial (clock : Int) (leases : LeaseTable) : CallState C :=
  ⟨.initial clock leases, fun _ => .trying⟩

/-- A call asks for a lease only when no other call of the same instance is at work under the
same scope. -/
def Separate (s : CallState C) : CallAction C → Prop
  | .acquire id _ => ∀ other, other ≠ id → (s.phase other).lease.isSome →
      (calls other).scope = (calls id).scope → (calls other).ownerID ≠ (calls id).ownerID
  | _ => True

/-- The lease of a call is the one its instance last got for the scope, and no other call of
the instance has one. -/
structure Attached (s : CallState C) : Prop where
  backed : s.db.Backed
  latest : ∀ id lease, (s.phase id).lease = some lease →
    lease.scope = (calls id).scope ∧ s.db.returned (calls id).scope (calls id).ownerID = some lease
  alone : ∀ id other, other ≠ id → (s.phase id).lease.isSome → (s.phase other).lease.isSome →
    (calls other).scope = (calls id).scope → (calls other).ownerID ≠ (calls id).ownerID

variable {calls} {s t : CallState C} {id : C}

omit [DecidableEq C] in
theorem attached_initial (clock : Int) (leases : LeaseTable) :
    Attached calls (initial clock leases) :=
  ⟨LeaseState.backed_initial clock leases, fun _ _ none => (nomatch none),
    fun _ _ _ none => (nomatch none)⟩

omit [DecidableEq C] in
/-- Calls may drop their leases, and the database may change as far as no one was told. -/
theorem Attached.fewer (attached : Attached calls s) (backed : t.db.Backed)
    (told : t.db.returned = s.db.returned)
    (kept : ∀ id lease, (t.phase id).lease = some lease → (s.phase id).lease = some lease) :
    Attached calls t := by
  have some_kept : ∀ id, (t.phase id).lease.isSome → (s.phase id).lease.isSome := fun id some => by
    obtain ⟨lease, has⟩ := Option.isSome_iff_exists.mp some
    exact Option.isSome_iff_exists.mpr ⟨lease, kept id lease has⟩
  refine ⟨backed, fun id lease has => ?_, fun id other ne first second =>
    attached.alone id other ne (some_kept id first) (some_kept other second)⟩
  rw [told]
  exact attached.latest id lease (kept id lease has)

theorem Attached.enter (attached : Attached calls s) {phase : Phase}
    (kept : ∀ lease, phase.lease = some lease → (s.phase id).lease = some lease) :
    Attached calls (s.enter id phase) := by
  refine attached.fewer attached.backed rfl fun other lease has => ?_
  by_cases same : other = id
  · subst same
    exact kept lease ((congrArg Phase.lease (Function.update_self ..)).symm.trans has)
  · exact (congrArg Phase.lease (Function.update_of_ne same ..)).symm.trans has

/-- The state after a call's instance was told about a row of its scope. -/
def tell (s : CallState C) (calls : C → UserCall) (id : C) (leases : LeaseTable) (lease : Option Lease)
    (phase : Phase) : CallState C :=
  { s with db := { s.db with leases }.hand (calls id).scope (calls id).ownerID lease }.enter id phase

/-- The instance of a call that is alone is told about a lease, or that it was released. -/
theorem Attached.told (attached : Attached calls s) {leases : LeaseTable} {lease : Option Lease}
    {phase : Phase} (enters : phase.lease = lease)
    (backed : (s.tell calls id leases lease phase).db.Backed)
    (scope : ∀ told, lease = some told → told.scope = (calls id).scope)
    (alone : ∀ other, other ≠ id → (s.phase other).lease.isSome →
      (calls other).scope = (calls id).scope → (calls other).ownerID ≠ (calls id).ownerID) :
    Attached calls (s.tell calls id leases lease phase) where
  backed := backed
  latest other lease has := by
    by_cases same : other = id
    · subst same
      have own := enters.symm.trans ((congrArg Phase.lease (Function.update_self ..)).symm.trans has)
      exact ⟨scope lease own, (if_pos ⟨rfl, rfl⟩).trans own⟩
    · have had : (s.phase other).lease = some lease :=
        (congrArg Phase.lease (Function.update_of_ne same ..)).symm.trans has
      obtain ⟨sameScope, returned⟩ := attached.latest other lease had
      refine ⟨sameScope, (if_neg ?_).trans returned⟩
      rintro ⟨shared, sameOwner⟩
      exact alone other same (Option.isSome_iff_exists.mpr ⟨lease, had⟩) shared sameOwner
  alone first second ne has hasToo sameScope := by
    simp only [CallState.tell, CallState.enter, Function.update_apply] at has hasToo
    by_cases isFirst : first = id
    · subst isFirst
      rw [if_neg ne] at hasToo
      exact alone second ne hasToo sameScope
    · rw [if_neg isFirst] at has
      by_cases isSecond : second = id
      · subst isSecond
        exact (alone first isFirst has sameScope.symm).symm
      · rw [if_neg isSecond] at hasToo
        exact attached.alone first second ne has hasToo sameScope

theorem acquire_cases {timing : Timing} (taken : s.step calls (.acquire id timing) = some t) :
    timing.now ≤ s.db.clock ∧
    ((∃ phase, phase.lease = none ∧ t = s.enter id phase) ∨
    ∃ (row : LeaseRow (calls id).scope) (next : LeaseTable),
      Granted s.db.leases (calls id).ownerID next row ∧
      (∀ old, s.db.leases (calls id).scope = some old →
        old.expiresAt ≤ timing.now ∨ old.ownerID = (calls id).ownerID) ∧
      t = s.tell calls id next (some row.lease) (.working row.lease true)) := by
  simp only [step] at taken
  split at taken
  · obtain ⟨db, ran, rfl⟩ := Option.map_eq_some_iff.mp taken
    simp only [LeaseState.step] at ran
    split at ran
    · next began =>
      cases ran
      refine ⟨began, ?_⟩
      cases ran : tryStateAcquireLease s.db.leases (calls id).scope (calls id).ownerID timing with
      | error err => exact .inl ⟨_, (calls id).user.afterError_lease, rfl⟩
      | ok result =>
        obtain ⟨next, answer⟩ := result
        obtain ⟨rfl, rfl, -⟩ | ⟨row, rfl, granted, free⟩ := tryStateAcquireLease_cases ran
        · exact .inl ⟨_, (calls id).user.afterMiss_lease, rfl⟩
        · exact .inr ⟨row, next, granted, free, rfl⟩
    · cases ran
  · cases taken

theorem renew_cases {timing : Timing} (attached : Attached calls s)
    (taken : s.step calls (.renew id timing) = some t) :
    ∃ lease, s.phase id = .working lease true ∧ (t = s.enter id (.working lease false) ∨
    ∃ (row old : LeaseRow (calls id).scope) (next : LeaseTable),
      Granted s.db.leases (calls id).ownerID next row ∧
      s.db.leases (calls id).scope = some old ∧ old.ownerID = (calls id).ownerID ∧
      t = s.tell calls id next (some row.lease) (.working row.lease true)) := by
  simp only [step] at taken
  split at taken
  · next lease phase =>
    refine ⟨lease, phase, ?_⟩
    rw [(attached.latest id lease (congrArg Phase.lease phase)).1] at taken
    obtain ⟨db, ran, rfl⟩ := Option.map_eq_some_iff.mp taken
    simp only [LeaseState.step] at ran
    split at ran
    · cases ran
      cases ran : renewStateLease s.db.leases (calls id).scope (calls id).ownerID lease.generation
          timing with
      | error err => exact .inl rfl
      | ok result =>
        obtain ⟨next, answer⟩ := result
        obtain ⟨rfl, rfl⟩ | ⟨row, rfl, granted, -, old, present, owner⟩ := renewStateLease_cases ran
        · exact .inl rfl
        · exact .inr ⟨row, old, next, granted, present, owner, rfl⟩
    · cases ran
  · cases taken

theorem release_cases (attached : Attached calls s) (taken : s.step calls (.release id) = some t) :
    ∃ lease phase, s.phase id = .releasing lease ∧ phase.lease = none ∧ (t = s.enter id phase ∨
    ∃ old, s.db.leases (calls id).scope = some old ∧ old.ownerID = (calls id).ownerID ∧
      t = s.tell calls id (Function.update s.db.leases (calls id).scope none) none phase) := by
  simp only [step] at taken
  split at taken
  · next lease phase =>
    refine ⟨lease, _, phase, (calls id).user.afterRelease_lease, ?_⟩
    rw [(attached.latest id lease (congrArg Phase.lease phase)).1] at taken
    obtain ⟨db, ran, rfl⟩ := Option.map_eq_some_iff.mp taken
    cases ran
    match ran : releaseStateLease s.db.leases (calls id).scope (calls id).ownerID lease.generation with
    | (next, answer) =>
      obtain ⟨rfl, rfl⟩ | ⟨rfl, rfl, old, present, owner, -⟩ := releaseStateLease_cases ran
      · exact .inl rfl
      · exact .inr ⟨old, present, owner, rfl⟩
  · cases taken

theorem Attached.tell (attached : Attached calls s) {row : LeaseRow (calls id).scope}
    {next : LeaseTable} (granted : Granted s.db.leases (calls id).ownerID next row)
    (free : ∀ old, s.db.leases (calls id).scope = some old →
      old.expiresAt ≤ s.db.clock ∨ old.ownerID = (calls id).ownerID)
    (alone : ∀ other, other ≠ id → (s.phase other).lease.isSome →
      (calls other).scope = (calls id).scope → (calls other).ownerID ≠ (calls id).ownerID) :
    Attached calls (s.tell calls id next (some row.lease) (.working row.lease true)) := by
  refine attached.told rfl (attached.backed.granted granted free) (fun lease has => ?_) alone
  cases has
  exact row.lease_scope

theorem attached_step (attached : Attached calls s) {action : CallAction C}
    (separate : Separate calls s action) (taken : s.step calls action = some t) :
    Attached calls t := by
  -- a call that has a lease is the only one of its instance
  have alone : ∀ {id lease}, (s.phase id).lease = some lease → ∀ other, other ≠ id →
      (s.phase other).lease.isSome → (calls other).scope = (calls id).scope →
      (calls other).ownerID ≠ (calls id).ownerID := fun has other ne =>
    attached.alone _ other ne (Option.isSome_iff_exists.mpr ⟨_, has⟩)
  cases action with
  | acquire id timing =>
    obtain ⟨began, ⟨phase, none, rfl⟩ | ⟨row, next, granted, free, rfl⟩⟩ := acquire_cases taken
    · exact attached.enter (by simp [none])
    · exact attached.tell granted (fun old has =>
        (free old has).imp_left fun expired => Int.le_trans expired began) separate
  | renew id timing =>
    obtain ⟨lease, phase, rfl | ⟨row, old, next, granted, present, owner, rfl⟩⟩ :=
      renew_cases attached taken
    · exact attached.enter fun _ has => (congrArg Phase.lease phase).trans has
    · refine attached.tell granted (fun old' has => .inr ?_) (alone (congrArg Phase.lease phase))
      cases present.symm.trans has
      exact owner
  | release id =>
    obtain ⟨lease, phase, was, none, rfl | ⟨old, present, owner, rfl⟩⟩ := release_cases attached taken
    · exact attached.enter (by simp [none])
    · exact attached.told none (attached.backed.released present owner) (by simp)
        (alone (congrArg Phase.lease was))
  | acquireFails id | releaseFails id | stop id =>
    simp only [step] at taken
    split at taken
    · cases taken
      exact attached.enter (by simp)
    · cases taken
  | renewFails id =>
    simp only [step] at taken
    split at taken
    · next lease phase =>
      cases taken
      exact attached.enter fun _ has => (congrArg Phase.lease phase).trans has
    · cases taken
  | finish id =>
    simp only [step] at taken
    split at taken
    · next lease renewing phase =>
      cases taken
      exact attached.enter fun _ has => (congrArg Phase.lease phase).trans has
    · cases taken
  | crash ownerID =>
    cases taken
    refine attached.fewer attached.backed rfl fun id lease has => ?_
    simp only at has
    split at has
    · cases has
    · exact has
  | cleanup | tick =>
    obtain ⟨db, ran, rfl⟩ := Option.map_eq_some_iff.mp taken
    obtain ⟨-, ⟨⟩⟩ := Option.ite_none_right_eq_some.mp ran
    exact attached.fewer (attached.backed.moves (LeaseState.step_moves ran)) rfl fun _ _ has => has

section Exclusion

variable {other : C}

omit [DecidableEq C] in
theorem Attached.row {lease : Lease} (attached : Attached calls s)
    (has : (s.phase id).lease = some lease) (valid : s.db.clock < lease.expiresAt) :
    ∃ row, s.db.leases (calls id).scope = some row ∧ row.lease = lease ∧
      row.ownerID = (calls id).ownerID := by
  obtain ⟨-, returned⟩ := attached.latest id lease has
  obtain ⟨row, present, rfl⟩ := attached.backed.row _ _ _ returned valid
  exact ⟨row, present, rfl, attached.backed.own _ _ _ returned⟩

/-- Another instance does not get a lease that has not expired. -/
theorem acquire_misses {row : LeaseRow (calls id).scope}
    (present : s.db.leases (calls id).scope = some row) (owner : row.ownerID = (calls id).ownerID)
    (valid : s.db.clock < row.expiresAt) (sameScope : (calls other).scope = (calls id).scope)
    (different : (calls other).ownerID ≠ (calls id).ownerID) {timing : Timing}
    (taken : s.step calls (.acquire other timing) = some t) : (t.phase other).lease = none := by
  obtain ⟨began, ⟨phase, none, rfl⟩ | ⟨-, next, -, free, -⟩⟩ := acquire_cases taken
  · exact (congrArg Phase.lease (Function.update_self ..)).trans none
  · rw [sameScope] at free
    rcases free row present with expired | same
    · exact absurd valid (Int.not_lt.mpr (Int.le_trans expired began))
    · exact absurd (same.symm.trans owner) different

/-- What is written over a row of one instance leaves the rows of the others. -/
theorem update_of_owner {leases : LeaseTable} {scope scope' : Scope} {row : LeaseRow scope}
    {old : LeaseRow scope'} (present : leases scope = some row) (oldPresent : leases scope' = some old)
    (different : scope' = scope → old.ownerID ≠ row.ownerID) (written : Option (LeaseRow scope')) :
    Function.update leases scope' written scope = leases scope := by
  refine Function.update_of_ne (fun same => ?_) ..
  subst same
  cases present.symm.trans oldPresent
  exact different rfl rfl

theorem renew_keeps (attached : Attached calls s) {row : LeaseRow (calls id).scope}
    (present : s.db.leases (calls id).scope = some row) (owner : row.ownerID = (calls id).ownerID)
    (has : (s.phase id).lease.isSome) (ne : other ≠ id) {timing : Timing}
    (taken : s.step calls (.renew other timing) = some t) :
    t.db.leases (calls id).scope = s.db.leases (calls id).scope := by
  obtain ⟨lease, phase, rfl | ⟨_, old, next, granted, oldPresent, oldOwner, rfl⟩⟩ :=
    renew_cases attached taken
  · rfl
  · have different := attached.alone id other ne has (by rw [phase]; rfl)
    rw [← owner, ← oldOwner] at different
    exact (congrFun granted.wrote _).trans (update_of_owner present oldPresent different _)

theorem release_keeps (attached : Attached calls s) {row : LeaseRow (calls id).scope}
    (present : s.db.leases (calls id).scope = some row) (owner : row.ownerID = (calls id).ownerID)
    (has : (s.phase id).lease.isSome) (ne : other ≠ id)
    (taken : s.step calls (.release other) = some t) :
    t.db.leases (calls id).scope = s.db.leases (calls id).scope := by
  obtain ⟨lease, _, phase, -, rfl | ⟨old, oldPresent, oldOwner, rfl⟩⟩ := release_cases attached taken
  · rfl
  · have different := attached.alone id other ne has (by rw [phase]; rfl)
    rw [← owner, ← oldOwner] at different
    exact update_of_owner present oldPresent different none

end Exclusion

end CallState

open CallState

/-- While a call works under a lease that has not expired, the row is its own; no other call
gets the lease, and no other call's renewal or release touches the row. -/
theorem one_call_per_scope {C : Type} [DecidableEq C] {calls : C → UserCall} {clock : Int}
    {leases : LeaseTable} {actions : List (CallAction C)} {t : CallState C}
    (separate : Machine.Meets (step calls) (Separate calls) (initial clock leases) actions)
    (ran : Machine.run (step calls) (initial clock leases) actions = some t)
    {id : C} {lease : Lease} {renewing : Bool} (working : t.phase id = .working lease renewing)
    (valid : t.db.clock < lease.expiresAt) :
    (∃ row, t.db.leases (calls id).scope = some row ∧ row.lease = lease) ∧
    ∀ other, other ≠ id →
      (∀ timing u, Separate calls t (.acquire other timing) →
        t.step calls (.acquire other timing) = some u →
        (calls other).scope = (calls id).scope → (u.phase other).lease = none) ∧
      (∀ timing u, t.step calls (.renew other timing) = some u →
        u.db.leases (calls id).scope = t.db.leases (calls id).scope) ∧
      ∀ u, t.step calls (.release other) = some u →
        u.db.leases (calls id).scope = t.db.leases (calls id).scope := by
  have attached : Attached calls t := Machine.invariant
    (fun _ _ _ attached separate taken => attached_step attached separate taken)
    (attached_initial clock leases) separate ran
  have has : (t.phase id).lease = some lease := congrArg Phase.lease working
  have some : (t.phase id).lease.isSome := Option.isSome_iff_exists.mpr ⟨lease, has⟩
  obtain ⟨row, present, rfl, owner⟩ := attached.row has valid
  refine ⟨⟨row, present, rfl⟩, fun other ne => ⟨?_, ?_, ?_⟩⟩
  · intro timing u apart taken sameScope
    have different := apart id ne.symm some sameScope.symm
    exact acquire_misses present owner valid sameScope different.symm taken
  · intro timing u taken
    exact renew_keeps attached present owner some ne taken
  · intro u taken
    exact release_keeps attached present owner some ne taken

/-- Snapshots of the users for the region `us`. -/
def snapshotScope : Scope := ⟨"snapshot", "eu", "us", "users"⟩

/-- Two calls for the same snapshot on one instance, as two consume streams of a peer make
them: both work at once, and the first to finish removes the row of the other. -/
theorem two_calls_share_a_lease :
    let calls : Bool → UserCall := fun _ => ⟨.withLease, snapshotScope, "pod-1"⟩
    let started : List (CallAction Bool) := [.acquire false ⟨0, 0, 30⟩, .acquire true ⟨1, 1, 30⟩]
    (Machine.run (step calls) (initial 10 fun _ => none) started).map (fun t =>
        (t.phase false, t.phase true)) =
      some (.working ⟨snapshotScope, "pod-1", 1, 30, 0⟩ true,
        .working ⟨snapshotScope, "pod-1", 1, 31, 1⟩ true) ∧
    (Machine.run (step calls) (initial 10 fun _ => none)
        (started ++ [.finish false, .release false])).map (fun t =>
        (t.phase true, (t.db.leases snapshotScope).isSome)) =
      some (.working ⟨snapshotScope, "pod-1", 1, 31, 1⟩ true, false) := by
  decide

/-- The same snapshot on two pods. -/
def twoPods (second : Bool) : UserCall :=
  ⟨.withLease, snapshotScope, if second then "pod-2" else "pod-1"⟩

theorem one_call_per_scope_pods :
    ∃ t lease, Machine.run (step twoPods) (initial 10 fun _ => none)
        [.acquire false ⟨0, 0, 30⟩, .renew false ⟨8, 8, 30⟩] = some t ∧
      t.phase false = .working lease true ∧ t.db.clock < lease.expiresAt ∧
      (∃ row, t.db.leases (twoPods false).scope = some row ∧ row.lease = lease) ∧
      ∀ other, other ≠ false →
        (∀ timing u, Separate twoPods t (.acquire other timing) →
          t.step twoPods (.acquire other timing) = some u →
          (twoPods other).scope = (twoPods false).scope → (u.phase other).lease = none) ∧
        (∀ timing u, t.step twoPods (.renew other timing) = some u →
          u.db.leases (twoPods false).scope = t.db.leases (twoPods false).scope) ∧
        ∀ u, t.step twoPods (.release other) = some u →
          u.db.leases (twoPods false).scope = t.db.leases (twoPods false).scope := by
  refine ⟨_, ⟨snapshotScope, "pod-1", 1, 38, 8⟩, rfl, rfl, by decide, ?_⟩
  refine @one_call_per_scope Bool _ twoPods 10 (fun _ => none)
    [.acquire false ⟨0, 0, 30⟩, .renew false ⟨8, 8, 30⟩] _ ⟨?_, trivial, trivial⟩ rfl _ _ _ rfl (by decide)
  intro other _ _ _
  cases other <;> simp_all [twoPods]

end Transmogr.Leases
