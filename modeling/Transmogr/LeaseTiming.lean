import Transmogr.Leases

/-! Leases that are renewed in time. An expiry is counted from the pod's clock and compared with the
database's, so the clocks must not be too far apart for the time to live. -/
namespace Transmogr.Leases

/-- How a holder renews: the time to live it asks for, what at most passes on the database clock from
the start of one renewal to the next, and how far its own clock is behind. -/
structure Pace where
  ttl : Int
  interval : Int
  skew : Int
  fits : interval + skew < ttl

structure Holder where
  scope : Scope
  ownerID : String
  generation : Nat

/-- A renewal that keeps the pace when the database clock shows `clock`. -/
def Pace.Keeps (pace : Pace) (clock : Int) (timing : Timing) : Prop :=
  timing.ttl = pace.ttl ∧ timing.now - pace.skew ≤ timing.podClock ∧ clock ≤ timing.now + pace.interval

/-- No interval passes without a renewal of the holder, which is at work: it neither acquires the lease
again nor releases it. The others do as they like. -/
def Timely (pace : Pace) (h : Holder) (s : LeaseState) : LeaseCall → Prop
  | .renew scope ownerID _ timing => scope = h.scope → ownerID = h.ownerID → pace.Keeps s.clock timing
  | .acquire scope ownerID _ | .release scope ownerID _ => scope = h.scope → ownerID ≠ h.ownerID
  | .cleanup _ => True
  | .tick clock => ∀ row, s.leases h.scope = some row → clock ≤ row.updatedAt + pace.interval

/-- The row of the lease, written by a recent statement of the holder. -/
structure Kept (pace : Pace) (h : Holder) (s : LeaseState) (row : LeaseRow h.scope) : Prop where
  present : s.leases h.scope = some row
  named : row.tableName = nullableText h.scope.table
  owner : row.ownerID = h.ownerID
  generation : row.generation = h.generation
  recent : s.clock ≤ row.updatedAt + pace.interval
  counted : row.updatedAt + pace.ttl - pace.skew ≤ row.expiresAt

section Kept

variable {pace : Pace} {h : Holder} {s t : LeaseState} {row : LeaseRow h.scope} {timing : Timing}

theorem Kept.valid (kept : Kept pace h s row) : s.clock < row.expiresAt := by
  have recent := kept.recent
  have counted := kept.counted
  have fits := pace.fits
  omega

theorem Kept.same (kept : Kept pace h s row) (leases : t.leases h.scope = s.leases h.scope)
    (clock : t.clock = s.clock) : Kept pace h t row :=
  { kept with
    present := leases.trans kept.present
    recent := clock ▸ kept.recent }

/-- The holder writes the row anew. -/
def LeaseRow.renewed (row : LeaseRow h.scope) (timing : Timing) : LeaseRow h.scope :=
  { row with expiresAt := timing.podClock + timing.ttl, updatedAt := timing.now }

theorem Kept.renewed (kept : Kept pace h s row) (timely : pace.Keeps s.clock timing)
    (written : t.leases h.scope = some (row.renewed timing)) (clock : t.clock = s.clock) :
    Kept pace h t (row.renewed timing) := by
  obtain ⟨ttl, near, soon⟩ := timely
  refine ⟨written, kept.named, kept.owner, kept.generation, clock ▸ soon, ?_⟩
  change timing.now + pace.ttl - pace.skew ≤ timing.podClock + timing.ttl
  omega

/-- A lease begins kept: the row it is acquired with is recent. A row that was there before has the
table name this code writes. -/
theorem kept_of_acquired {next : LeaseTable} {lease : Lease} (timely : pace.Keeps s.clock timing)
    (named : ∀ old, s.leases h.scope = some old → old.tableName = nullableText h.scope.table)
    (ran : tryStateAcquireLease s.leases h.scope h.ownerID timing = .ok (next, some lease))
    (generation : lease.generation = h.generation) :
    ∃ row, Kept pace h (s.answered h.scope h.ownerID (.ok (next, some lease))) row := by
  obtain ⟨ttl, near, soon⟩ := timely
  obtain ⟨expiresAt, expiry, ran⟩ := Fallible.bind_eq_ok.mp ran
  have counted : timing.now + pace.ttl - pace.skew ≤ expiresAt := by
    unfold leaseExpiry at expiry
    split at expiry
    · cases expiry
    · cases expiry
      omega
  split at ran
  · cases ran
    exact ⟨_, Function.update_self .., rfl, rfl, generation, soon, counted⟩
  · next old present =>
    split at ran
    · split at ran
      · cases ran
      · cases ran
        exact ⟨_, Function.update_self .., named old present, rfl, generation, soon, counted⟩
    · cases ran

theorem renewStateLease_kept (kept : Kept pace h s row) (began : timing.now ≤ s.clock)
    (positive : 0 < timing.ttl) :
    renewStateLease s.leases h.scope h.ownerID h.generation timing = .ok
      (Function.update s.leases h.scope (some (row.renewed timing)), some (row.renewed timing).lease) := by
  have expiry : leaseExpiry timing = .ok (timing.podClock + timing.ttl) :=
    if_neg (Int.not_le.mpr positive)
  have mine : owned s.leases h.scope h.ownerID h.generation = some row :=
    Option.filter_eq_some_iff.mpr
      ⟨kept.present, decide_eq_true ⟨kept.named, kept.owner, kept.generation⟩⟩
  have found : (owned s.leases h.scope h.ownerID h.generation).filter
      (fun row => timing.now < row.expiresAt) = some row :=
    Option.filter_eq_some_iff.mpr ⟨mine, decide_eq_true (Int.lt_of_le_of_lt began kept.valid)⟩
  unfold renewStateLease
  rw [expiry, found]
  rfl

theorem tryStateAcquireLease_other (kept : Kept pace h s row) {other : String}
    (different : other ≠ h.ownerID) (began : timing.now ≤ s.clock) (positive : 0 < timing.ttl) :
    tryStateAcquireLease s.leases h.scope other timing = .ok (s.leases, none) := by
  have valid : ¬ row.expiresAt ≤ timing.now := Int.not_le.mpr (Int.lt_of_le_of_lt began kept.valid)
  have expiry : leaseExpiry timing = .ok (timing.podClock + timing.ttl) :=
    if_neg (Int.not_le.mpr positive)
  simp [tryStateAcquireLease, expiry, kept.present, kept.owner, valid, different.symm, bind, Except.bind,
    pure, Except.pure]

variable {scope : Scope} {ownerID : String} {generation : Nat}

theorem Kept.acquire (kept : Kept pace h s row) (other : scope = h.scope → ownerID ≠ h.ownerID)
    (began : timing.now ≤ s.clock) :
    Kept pace h (s.answered scope ownerID (tryStateAcquireLease s.leases scope ownerID timing)) row := by
  rcases ran : tryStateAcquireLease s.leases scope ownerID timing with err | ⟨next, answer⟩
  · exact kept
  · obtain ⟨rfl, rfl, -⟩ | ⟨_, rfl, granted, free⟩ := tryStateAcquireLease_cases ran
    · exact kept
    · have elsewhere : h.scope ≠ scope := by
        rintro rfl
        have valid := kept.valid
        have mine := (free row kept.present).resolve_left (by omega)
        exact other rfl (mine.symm.trans kept.owner)
      have same := (congrFun granted.wrote h.scope).trans (Function.update_of_ne elsewhere ..)
      exact kept.same same rfl

/-- A renewal leaves the row, or is the holder's and writes it anew. -/
theorem Kept.renew (kept : Kept pace h s row)
    (timely : scope = h.scope → ownerID = h.ownerID → pace.Keeps s.clock timing) :
    ∃ row, Kept pace h
      (s.answered scope ownerID (renewStateLease s.leases scope ownerID generation timing)) row := by
  rcases ran : renewStateLease s.leases scope ownerID generation timing with err | ⟨next, answer⟩
  · exact ⟨row, kept⟩
  · obtain ⟨expiresAt, expiry, ran⟩ := Fallible.bind_eq_ok.mp ran
    split at ran
    · cases ran
      exact ⟨row, kept⟩
    · next found =>
      cases ran
      obtain ⟨present, owner, -⟩ := owned_eq_some (Option.filter_eq_some_iff.mp found).1
      by_cases here : h.scope = scope
      · subst here
        cases present.symm.trans kept.present
        unfold leaseExpiry at expiry
        split at expiry
        · cases expiry
        · cases expiry
          have mine := owner.symm.trans kept.owner
          exact ⟨_, kept.renewed (timely rfl mine) (Function.update_self ..) rfl⟩
      · exact ⟨row, kept.same (Function.update_of_ne here ..) rfl⟩

theorem Kept.step {call : LeaseCall} (kept : Kept pace h s row) (timely : Timely pace h s call)
    (taken : s.step call = some t) : ∃ row, Kept pace h t row := by
  cases call with
  | acquire scope ownerID timing =>
    obtain ⟨began, taken⟩ := Option.ite_none_right_eq_some.mp taken
    cases taken
    exact ⟨row, kept.acquire timely began⟩
  | renew scope ownerID generation timing =>
    obtain ⟨-, taken⟩ := Option.ite_none_right_eq_some.mp taken
    cases taken
    exact kept.renew timely
  | release scope ownerID generation =>
    cases taken
    generalize ran : releaseStateLease s.leases scope ownerID generation = result
    obtain ⟨next, released⟩ := result
    obtain ⟨rfl, rfl⟩ | ⟨rfl, rfl, old, present, owner, -⟩ := releaseStateLease_cases ran
    · exact ⟨row, kept⟩
    · have other : h.scope ≠ scope := by
        rintro rfl
        cases present.symm.trans kept.present
        exact timely rfl (owner.symm.trans kept.owner)
      exact ⟨row, kept.same (Function.update_of_ne other ..) rfl⟩
  | cleanup now =>
    obtain ⟨began, taken⟩ := Option.ite_none_right_eq_some.mp taken
    cases taken
    refine ⟨row, kept.same ?_ rfl⟩
    rw [kept.present]
    exact Option.filter_eq_some_iff.mpr
      ⟨kept.present, decide_eq_true (Int.lt_of_le_of_lt began kept.valid)⟩
  | tick clock =>
    obtain ⟨-, taken⟩ := Option.ite_none_right_eq_some.mp taken
    cases taken
    exact ⟨row, { kept with recent := timely row kept.present }⟩

end Kept

/-- A lease that is renewed in time stays with its holder, whatever the others call: the row keeps owner
and generation, has not expired, is given to nobody else, and the next renewal finds it. -/
theorem timely_renewals_keep_lease {pace : Pace} {h : Holder} {s t : LeaseState}
    {row : LeaseRow h.scope} {calls : List LeaseCall} (start : Kept pace h s row)
    (timely : Machine.Meets LeaseState.step (Timely pace h) s calls)
    (ran : Machine.run LeaseState.step s calls = some t) :
    (∃ row, t.leases h.scope = some row ∧ row.ownerID = h.ownerID ∧ row.generation = h.generation ∧
      t.clock < row.expiresAt) ∧
    ∀ timing : Timing, timing.now ≤ t.clock → 0 < timing.ttl →
      (∀ other, other ≠ h.ownerID →
        tryStateAcquireLease t.leases h.scope other timing = .ok (t.leases, none)) ∧
      ∃ next lease, renewStateLease t.leases h.scope h.ownerID h.generation timing =
        .ok (next, some lease) := by
  have keeps : ∀ s call t, (∃ row, Kept pace h s row) → Timely pace h s call →
      LeaseState.step s call = some t → ∃ row, Kept pace h t row :=
    fun _ _ _ ⟨_, kept⟩ timely taken => kept.step timely taken
  obtain ⟨row, kept⟩ := Machine.invariant keeps ⟨row, start⟩ timely ran
  refine ⟨⟨row, kept.present, kept.owner, kept.generation, kept.valid⟩, fun timing began positive => ?_⟩
  exact ⟨fun other different => tryStateAcquireLease_other kept different began positive,
    _, _, renewStateLease_kept kept began positive⟩

/-- A pod whose clock is 5 behind acquires a lease of 30, which it renews every 20. -/
def acquired : LeaseState :=
  (LeaseState.initial 10 fun _ => none).answered producerScope "pod-1"
    (tryStateAcquireLease (fun _ => none) producerScope "pod-1" ⟨10, 5, 30⟩)

/-- Another pod tries in between. -/
theorem timely_renewals_keep_lease_producer :
    ∃ t, Machine.run LeaseState.step acquired [.acquire producerScope "pod-2" ⟨10, 40, 30⟩, .tick 30,
        .renew producerScope "pod-1" 1 ⟨29, 24, 30⟩, .tick 48] = some t ∧
      tryStateAcquireLease t.leases producerScope "pod-2" ⟨48, 48, 30⟩ = .ok (t.leases, none) := by
  have begins : Pace.Keeps ⟨30, 20, 5, by decide⟩ 10 ⟨10, 5, 30⟩ := ⟨rfl, by decide, by decide⟩
  obtain ⟨row, kept⟩ : ∃ row, Kept ⟨30, 20, 5, by decide⟩ ⟨producerScope, "pod-1", 1⟩ acquired row :=
    kept_of_acquired (s := .initial 10 fun _ => none) begins (fun _ present => by cases present) rfl rfl
  have timely : Machine.Meets LeaseState.step (Timely ⟨30, 20, 5, by decide⟩ ⟨producerScope, "pod-1", 1⟩)
      acquired [.acquire producerScope "pod-2" ⟨10, 40, 30⟩, .tick 30,
        .renew producerScope "pod-1" 1 ⟨29, 24, 30⟩, .tick 48] := by
    refine ⟨fun _ => by decide, ?_, fun _ _ => ⟨rfl, by decide, by decide⟩, ?_, trivial⟩
    all_goals
      intro row present
      cases present
      decide
  have result := timely_renewals_keep_lease kept timely rfl
  exact ⟨_, rfl, (result.2 ⟨48, 48, 30⟩ (by decide) (by decide)).1 "pod-2" (by decide)⟩

end Transmogr.Leases
