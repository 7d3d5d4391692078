import Mathlib.Data.List.Perm.Basic
import Transmogr.Outbox

/-! The tables of the outbox over whole runs. Any number of pods take sequences, insert batches, delete
acked ones, and clean up, their statements in any order. -/
namespace Transmogr.Retention

/-- `PRIMARY KEY (peer_region, table_name, sequence)` -/
def primaryKey (row : OutboxBatch) : String × String × Nat := (row.peerRegion, row.table, row.sequence)

/-- What `OutboxEnqueue` returns. -/
inductive Enqueued where
  | refused (err : String)
  /-- `ON CONFLICT` did nothing. -/
  | present
  /-- Another unique index has the row: an error. -/
  | violated
  | stored (row : OutboxBatch)

/-- `OutboxEnqueue`; the database gives the row an id and a time. -/
def outboxEnqueue (rows : List OutboxBatch) (batch : OutboxBatch) (id now : Nat) : Enqueued :=
  match batch.validate with
  | .error err => .refused err
  | .ok () =>
    if (insertPending rows (batch.stamped id now)).isNone then .present
    else if rows.any fun row => row.id = id ∨ primaryKey row = primaryKey batch then .violated
    else .stored (batch.stamped id now)

/-- `created_at < NOW() - $1`; an age that is not positive deletes nothing. -/
def overAge (now : Nat) (maxBatchAge : Int) (row : OutboxBatch) : Bool :=
  0 < maxBatchAge ∧ (row.createdAt : Int) < now - maxBatchAge

/-- `row_number() OVER (PARTITION BY peer_region ORDER BY id DESC)` -/
def rowNum (rows : List OutboxBatch) (row : OutboxBatch) : Nat :=
  rows.countP fun other => other.peerRegion = row.peerRegion ∧ row.id ≤ other.id

/-- `row_num > $1`; a bound that is not positive deletes nothing. -/
def overCount (rows : List OutboxBatch) (maxPendingPerPeer : Int) (row : OutboxBatch) : Bool :=
  0 < maxPendingPerPeer ∧ maxPendingPerPeer < rowNum rows row

/-- The counters of a service. -/
structure Counters where
  cleanupDeleted : Nat
  cleanupDeletedByAge : Nat
  cleanupDeletedByCount : Nat

/-- The end of `Cleanup`. -/
def Counters.add (c : Counters) (deletedByAge deletedByCount : Nat) : Counters :=
  ⟨c.cleanupDeleted + (deletedByAge + deletedByCount), c.cleanupDeletedByAge + deletedByAge,
    c.cleanupDeletedByCount + deletedByCount⟩

/-- How a row was deleted. -/
inductive Fate (P : Type) where
  | acked
  | byAge (pod : P)
  | byCount (pod : P)
  deriving DecidableEq

structure State (P : Type) where
  /-- `next_sequence` by peer and table; zero where there is no row. -/
  sequences : String → String → Nat
  rows : List OutboxBatch
  /-- Sequences that `NextSequence` returned and that were not passed to `Enqueue` so far. -/
  handed : List (String × String × Nat)
  counters : P → Counters
  /-- `deletedByAge` of a cleanup that has run the first of its statements. -/
  cleaning : P → Option Nat
  inserted : List OutboxBatch
  deleted : List (Fate P × OutboxBatch)
  /-- How many rows cleanups that failed had deleted. -/
  uncounted : P → Nat

variable {P : Type} [DecidableEq P]

namespace State

def initial : State P := ⟨fun _ _ => 0, [], [], fun _ => ⟨0, 0, 0⟩, fun _ => none, [], [], fun _ => 0⟩

/-- `OutboxNextSequence` -/
def nextSequence (s : State P) (peer table : String) : State P :=
  { s with
    sequences := fun peer' table' =>
      if peer' = peer ∧ table' = table then s.sequences peer table + 1 else s.sequences peer' table'
    handed := (peer, table, s.sequences peer table + 1) :: s.handed }

/-- `Enqueue`; its sequence is not used again, whatever it returns. -/
def enqueue (s : State P) (batch : OutboxBatch) (id now : Nat) : State P :=
  match outboxEnqueue s.rows batch id now with
  | .stored row => { s with
      handed := s.handed.erase (primaryKey batch)
      rows := s.rows ++ [row]
      inserted := s.inserted ++ [row] }
  | _ => { s with handed := s.handed.erase (primaryKey batch) }

def delete (s : State P) (fate : Fate P) (hit : OutboxBatch → Bool) : State P :=
  { s with
    rows := s.rows.filter fun row => ¬ hit row
    deleted := s.deleted ++ (s.rows.filter hit).map (fate, ·) }

/-- `Ack` -/
def ack (s : State P) (peerRegion table lastEventID : String) : State P :=
  s.delete .acked fun b => b.peerRegion = peerRegion ∧ b.table = table ∧ b.lastEventID = lastEventID

/-- The first statement of `OutboxCleanup`. -/
def deleteByAge (s : State P) (pod : P) (now : Nat) (maxBatchAge : Int) : State P :=
  { s.delete (.byAge pod) (overAge now maxBatchAge) with
    cleaning := Function.update s.cleaning pod (some (s.rows.countP (overAge now maxBatchAge))) }

/-- The second statement, and the rest of `Cleanup`. -/
def deleteByCount (s : State P) (pod : P) (deletedByAge : Nat) (maxPendingPerPeer : Int) : State P :=
  let hit := overCount s.rows maxPendingPerPeer
  { s.delete (.byCount pod) hit with
    cleaning := Function.update s.cleaning pod none
    counters := Function.update s.counters pod
      ((s.counters pod).add deletedByAge (s.rows.countP hit)) }

/-- The second statement fails: `Cleanup` returns the error and counts nothing. -/
def failCleanup (s : State P) (pod : P) (deletedByAge : Nat) : State P :=
  { s with
    cleaning := Function.update s.cleaning pod none
    uncounted := Function.update s.uncounted pod (s.uncounted pod + deletedByAge) }

end State

/-- The id sequence gives no id twice. A statement that fails as a whole changes nothing and is left
out, and so is a pod that stops. -/
inductive Step (s : State P) : State P → Prop where
  | nextSequence (peer table : String) : Step s (s.nextSequence peer table)
  | enqueue {batch : OutboxBatch} {id : Nat} (now : Nat) (handed : primaryKey batch ∈ s.handed)
      (fresh : ∀ row ∈ s.inserted, row.id ≠ id) : Step s (s.enqueue batch id now)
  | ack (peerRegion table lastEventID : String) : Step s (s.ack peerRegion table lastEventID)
  | deleteByAge {pod : P} (now : Nat) (maxBatchAge : Int) (idle : s.cleaning pod = none) :
      Step s (s.deleteByAge pod now maxBatchAge)
  | deleteByCount {pod : P} {deletedByAge : Nat} (maxPendingPerPeer : Int)
      (begun : s.cleaning pod = some deletedByAge) :
      Step s (s.deleteByCount pod deletedByAge maxPendingPerPeer)
  | failCleanup {pod : P} {deletedByAge : Nat} (begun : s.cleaning pod = some deletedByAge) :
      Step s (s.failCleanup pod deletedByAge)

inductive Reachable : State P → Prop where
  | start : Reachable .initial
  | next {s t : State P} : Reachable s → Step s t → Reachable t

section Unique

variable {s t : State P} {rows : List OutboxBatch} {batch row : OutboxBatch} {id now : Nat}

theorem outboxEnqueue_stored (stored : outboxEnqueue rows batch id now = .stored row) :
    row = batch.stamped id now ∧ ∀ other ∈ rows, other.conflicts row = false := by
  unfold outboxEnqueue at stored
  split at stored
  · cases stored
  · split at stored
    · cases stored
    · next absent =>
      split at stored
      · cases stored
      · cases stored
        refine ⟨rfl, fun other mem => ?_⟩
        by_contra conflict
        apply absent
        unfold insertPending
        rw [if_pos (List.any_eq_true.mpr ⟨other, mem, Bool.not_eq_false _ ▸ conflict⟩)]
        rfl

theorem outboxEnqueue_violated (violated : outboxEnqueue rows batch id now = .violated) :
    ∃ row ∈ rows, row.id = id ∨ primaryKey row = primaryKey batch := by
  unfold outboxEnqueue at violated
  split at violated
  · cases violated
  · split at violated
    · cases violated
    · split at violated
      · next found =>
        obtain ⟨row, mem, same⟩ := List.any_eq_true.mp found
        exact ⟨row, mem, of_decide_eq_true same⟩
      · cases violated

/-- The keys of rows, and those rows may still get. -/
def State.keys (s : State P) : List (String × String × Nat) := s.handed ++ s.rows.map primaryKey

structure Unique (s : State P) : Prop where
  keys : s.keys.Nodup
  below : ∀ key ∈ s.keys, key.2.2 ≤ s.sequences key.1 key.2.1
  events : s.rows.Pairwise fun a b => a.conflicts b = false

omit [DecidableEq P] in
/-- Rows are only deleted. -/
theorem Unique.delete (unique : Unique s) (handed : t.handed = s.handed)
    (sequences : t.sequences = s.sequences) (fewer : t.rows.Sublist s.rows) : Unique t := by
  have keys : t.keys.Sublist s.keys := by
    unfold State.keys
    rw [handed]
    exact (List.Sublist.refl _).append (fewer.map primaryKey)
  refine ⟨unique.keys.sublist keys, fun key mem => ?_, unique.events.sublist fewer⟩
  rw [sequences]
  exact unique.below key (keys.subset mem)

omit [DecidableEq P] in
theorem Unique.nextSequence (unique : Unique s) (peer table : String) :
    Unique (s.nextSequence peer table) := by
  have new : (peer, table, s.sequences peer table + 1) ∉ s.keys := by
    intro mem
    have below := unique.below _ mem
    simp only at below
    omega
  refine ⟨List.nodup_cons.mpr ⟨new, unique.keys⟩, fun key mem => ?_, unique.events⟩
  change key.2.2 ≤ if key.1 = peer ∧ key.2.1 = table then _ else _
  rcases List.mem_cons.mp mem with rfl | old
  · rw [if_pos ⟨rfl, rfl⟩]
  · have below := unique.below key old
    split
    · next same =>
      rw [same.1, same.2] at below
      omega
    · exact below

omit [DecidableEq P] in
theorem Unique.enqueue (unique : Unique s) (handed : primaryKey batch ∈ s.handed) :
    Unique (s.enqueue batch id now) := by
  unfold State.enqueue
  split
  case h_1 row stored =>
    obtain ⟨rfl, apart⟩ := outboxEnqueue_stored stored
    -- The key moves from the sequences handed out to the rows.
    have moved : (s.handed.erase (primaryKey batch) ++
        (s.rows ++ [batch.stamped id now]).map primaryKey).Perm s.keys := by
      have there := List.perm_cons_erase handed
      rw [List.map_append, ← List.append_assoc]
      apply (List.perm_append_singleton _ _).trans
      exact there.symm.append_right _
    refine ⟨moved.nodup_iff.mpr unique.keys, fun key mem => unique.below key (moved.subset mem), ?_⟩
    rw [List.pairwise_append]
    refine ⟨unique.events, List.pairwise_singleton _ _, fun other mem last isLast => ?_⟩
    rw [List.mem_singleton.mp isLast]
    exact apart other mem
  case h_2 =>
    have fewer : (s.handed.erase (primaryKey batch) ++ s.rows.map primaryKey).Sublist s.keys :=
      List.erase_sublist.append (List.Sublist.refl _)
    exact ⟨unique.keys.sublist fewer, fun key mem => unique.below key (fewer.subset mem),
      unique.events⟩

theorem Unique.step (unique : Unique s) (taken : Step s t) : Unique t := by
  cases taken with
  | nextSequence peer table => exact unique.nextSequence peer table
  | enqueue now handed fresh => exact unique.enqueue handed
  | ack | deleteByAge | deleteByCount => exact unique.delete rfl rfl List.filter_sublist
  | failCleanup => exact unique.delete rfl rfl (List.Sublist.refl _)

theorem unique_of_reachable (reachable : Reachable s) : Unique s := by
  induction reachable with
  | start => exact ⟨.nil, List.forall_mem_nil _, .nil⟩
  | next _ taken unique => exact unique.step taken

end Unique

section Fates

variable {s t : State P}

/-- Every row that was inserted is in one place. -/
structure Ledger (s : State P) : Prop where
  ids : (s.inserted.map (·.id)).Nodup
  places : s.inserted.Perm (s.rows ++ s.deleted.map (·.2))

omit [DecidableEq P] in
theorem Ledger.delete (ledger : Ledger s) (fate : Fate P) (hit : OutboxBatch → Bool) :
    Ledger (s.delete fate hit) := by
  refine ⟨ledger.ids, List.perm_iff_count.mpr fun row => ?_⟩
  have places := ledger.places.count_eq row
  have split := (List.filter_append_perm hit s.rows).count_eq row
  have untagged : ((s.rows.filter hit).map (fate, ·)).map (·.2) = s.rows.filter hit := by simp
  simp only [State.delete, List.map_append, untagged, List.count_append, Bool.not_eq_true,
    Bool.decide_eq_false] at places split ⊢
  omega

omit [DecidableEq P] in
theorem Ledger.enqueue (ledger : Ledger s) {batch : OutboxBatch} {id now : Nat}
    (fresh : ∀ row ∈ s.inserted, row.id ≠ id) : Ledger (s.enqueue batch id now) := by
  unfold State.enqueue
  split
  case h_1 row stored =>
    obtain ⟨rfl, _⟩ := outboxEnqueue_stored stored
    constructor
    · rw [List.map_append, List.nodup_append]
      refine ⟨ledger.ids, List.nodup_singleton _, fun a mem b isLast => ?_⟩
      obtain ⟨row, inserted, rfl⟩ := List.mem_map.mp mem
      rw [List.mem_singleton.mp isLast]
      exact fresh row inserted
    · apply List.perm_iff_count.mpr
      intro row
      have places := ledger.places.count_eq row
      simp only [List.count_append] at places ⊢
      omega
  case h_2 => exact ⟨ledger.ids, ledger.places⟩

theorem Ledger.step (ledger : Ledger s) (taken : Step s t) : Ledger t := by
  cases taken with
  | nextSequence | failCleanup => exact ⟨ledger.ids, ledger.places⟩
  | enqueue now handed fresh => exact ledger.enqueue fresh
  | ack => exact ledger.delete ..
  | @deleteByAge pod => exact { ledger.delete (.byAge pod) _ with }
  | @deleteByCount pod => exact { ledger.delete (.byCount pod) _ with }

omit [DecidableEq P] in
theorem Ledger.rows_ids (ledger : Ledger s) : (s.rows.map (·.id)).Nodup := by
  have ids := (ledger.places.map (·.id)).nodup_iff.mp ledger.ids
  rw [List.map_append] at ids
  exact (List.nodup_append.mp ids).1

/-- How many rows were deleted in a way. -/
def State.number (s : State P) (fate : Fate P) : Nat := s.deleted.countP (·.1 = fate)

theorem number_delete (s : State P) (fate other : Fate P) (hit : OutboxBatch → Bool) :
    (s.delete fate hit).number other =
      s.number other + if fate = other then s.rows.countP hit else 0 := by
  unfold State.number State.delete
  rw [List.countP_append, List.countP_map, List.countP_eq_length_filter (p := hit)]
  split
  · next same => simp [Function.comp_def, same]
  · next ne => simp [Function.comp_def, ne]

theorem number_delete_other (s : State P) {fate other : Fate P} (ne : fate ≠ other)
    (hit : OutboxBatch → Bool) : s.number other = (s.delete fate hit).number other := by
  rw [number_delete, if_neg ne, Nat.add_zero]

/-- The counters of a pod have the rows that its finished cleanups deleted. -/
structure Counted (s : State P) (pod : P) : Prop where
  total : (s.counters pod).cleanupDeleted =
    (s.counters pod).cleanupDeletedByAge + (s.counters pod).cleanupDeletedByCount
  byAge : (s.counters pod).cleanupDeletedByAge + s.uncounted pod + (s.cleaning pod).getD 0 =
    s.number (.byAge pod)
  byCount : (s.counters pod).cleanupDeletedByCount = s.number (.byCount pod)

theorem Counted.step {pod : P} (counted : Counted s pod) (taken : Step s t) : Counted t pod := by
  obtain ⟨total, byAge, byCount⟩ := counted
  cases taken with
  | nextSequence => exact ⟨total, byAge, byCount⟩
  | enqueue =>
    unfold State.enqueue
    split <;> exact ⟨total, byAge, byCount⟩
  | ack =>
    exact ⟨total, byAge.trans (number_delete_other s (by simp) _),
      byCount.trans (number_delete_other s (by simp) _)⟩
  | @deleteByAge other now maxBatchAge idle =>
    have more := number_delete s (.byAge other) (.byAge pod) (overAge now maxBatchAge)
    have untouched := number_delete_other s (by simp : .byAge other ≠ .byCount pod)
      (overAge now maxBatchAge)
    refine ⟨total, Eq.trans ?_ more.symm, byCount.trans untouched⟩
    by_cases same : other = pod
    · subst same
      rw [idle, Option.getD_none] at byAge
      simp only [State.deleteByAge, State.delete, Function.update_self, Option.getD_some, if_true]
      omega
    · simpa [State.deleteByAge, State.delete, Function.update_of_ne (Ne.symm same), same] using byAge
  | @deleteByCount other deletedByAge maxPendingPerPeer begun =>
    have more := number_delete s (.byCount other) (.byCount pod) (overCount s.rows maxPendingPerPeer)
    have untouched := number_delete_other s (by simp : .byCount other ≠ .byAge pod)
      (overCount s.rows maxPendingPerPeer)
    by_cases same : other = pod
    · subst same
      rw [begun, Option.getD_some] at byAge
      refine ⟨?_, Eq.trans ?_ untouched, Eq.trans ?_ more.symm⟩
      all_goals simp only [State.deleteByCount, State.delete, Function.update_self, Counters.add,
        Option.getD_none, if_true]
      all_goals omega
    · refine ⟨?_, Eq.trans ?_ untouched, Eq.trans ?_ more.symm⟩
      all_goals simp only [State.deleteByCount, State.delete, Function.update_of_ne (Ne.symm same),
        Fate.byCount.injEq, if_neg same]
      all_goals omega
  | @failCleanup other deletedByAge begun =>
    refine ⟨total, Eq.trans ?_ byAge, byCount⟩
    by_cases same : other = pod
    · subst same
      simp only [State.failCleanup, Function.update_self, Option.getD_none, begun, Option.getD_some]
      omega
    · simp only [State.failCleanup, Function.update_of_ne (Ne.symm same)]

theorem ledger_of_reachable (reachable : Reachable s) : Ledger s ∧ ∀ pod, Counted s pod := by
  induction reachable with
  | start => exact ⟨⟨.nil, .nil⟩, fun _ => ⟨rfl, rfl, rfl⟩⟩
  | next _ taken ih => exact ⟨ih.1.step taken, fun pod => (ih.2 pod).step taken⟩

end Fates

section Newest

variable {α : Type} {key : α → Nat} {l : List α}

/-- How many have this key or a greater one. -/
def rank (key : α → Nat) (l : List α) (a : α) : Nat := l.countP fun b => key a ≤ key b

/-- The ones with the greatest keys. -/
def topmost (key : α → Nat) (l : List α) (n : Nat) : List α := l.filter fun a => rank key l a ≤ n

theorem length_topmost_sorted (sorted : l.Pairwise fun a b => key b < key a) (n : Nat) :
    (topmost key l n).length = min n l.length := by
  induction l generalizing n with
  | nil => simp [topmost]
  | cons a l ih =>
    obtain ⟨below, sorted⟩ := List.pairwise_cons.mp sorted
    -- The first has no other above it, and is above the others.
    have first : rank key (a :: l) a = 1 := by
      have none : l.countP (fun b => key a ≤ key b) = 0 :=
        List.countP_eq_zero.mpr fun b mem => by simpa using below b mem
      simp [rank, none]
    have others : ∀ b ∈ l, rank key (a :: l) b = rank key l b + 1 := fun b mem =>
      List.countP_cons_of_pos (decide_eq_true (below b mem).le)
    cases n with
    | zero => simp +contextual [topmost, first, others]
    | succ n =>
      have rest : l.filter (fun b => rank key (a :: l) b ≤ n + 1) = topmost key l n :=
        List.filter_congr fun b mem => by simp [others b mem]
      rw [topmost, List.filter_cons_of_pos (by simp [first]), List.length_cons, rest, ih sorted,
        List.length_cons]
      omega

theorem length_topmost (distinct : (l.map key).Nodup) (n : Nat) :
    (topmost key l n).length = min n l.length := by
  have perm := l.mergeSort_perm fun a b => decide (key b ≤ key a)
  have ranks : rank key l = rank key _ := funext fun a => perm.symm.countP_eq _
  have descends := @List.pairwise_mergeSort _ (fun a b => decide (key b ≤ key a)) (by simp; omega)
    (by simp; omega) l
  have apart := List.pairwise_map.mp ((perm.map key).nodup_iff.mpr distinct)
  rw [← perm.length_eq, topmost, ranks, (perm.symm.filter _).length_eq]
  apply length_topmost_sorted
  exact (descends.and apart).imp fun both => by
    have := of_decide_eq_true both.1
    omega

theorem lt_of_mem_topmost {n : Nat} {a b : α} (mem : a ∈ topmost key l n)
    (gone : n < rank key l b) : key b < key a := by
  have fits := of_decide_eq_true (List.mem_filter.mp mem).2
  by_contra le
  have more : rank key l b ≤ rank key l a := by
    apply List.countP_mono_left
    intro c _ above
    simp only [decide_eq_true_eq] at above ⊢
    omega
  omega

end Newest

/-! ## What holds in every state -/

/-- Two batches for `us` are enqueued by one pod. -/
def users : State Unit :=
  (((State.initial.nextSequence "us" "users").enqueue (userBatch "a" 1) 1 5).nextSequence "us"
    "users").enqueue { userBatch "b" 2 with sequence := 2 } 2 6

theorem reachable_users : Reachable users := by
  apply Reachable.next _ (.enqueue 6 (by decide) (by decide))
  apply Reachable.next _ (.nextSequence "us" "users")
  apply Reachable.next _ (.enqueue 5 (by decide) (by decide))
  exact .next .start (.nextSequence "us" "users")

section Results

variable {s : State P}

/-- No two rows have a key or a last event in common, and no batch with a sequence that was handed out
for it violates a key. -/
theorem sequences_never_clash (reachable : Reachable s) :
    s.keys.Nodup ∧ s.rows.Pairwise (fun a b => a.conflicts b = false) ∧
      ∀ batch id now, primaryKey batch ∈ s.handed → (∀ row ∈ s.inserted, row.id ≠ id) →
        outboxEnqueue s.rows batch id now ≠ .violated := by
  have unique := unique_of_reachable reachable
  refine ⟨unique.keys, unique.events, fun batch id now handed fresh violated => ?_⟩
  obtain ⟨row, mem, same | same⟩ := outboxEnqueue_violated violated
  · have places := (ledger_of_reachable reachable).1.places
    exact fresh row (places.mem_iff.mpr (List.mem_append_left _ mem)) same
  · have apart := (List.nodup_append.mp unique.keys).2.2 _ handed _ (List.mem_map_of_mem mem)
    exact apart same.symm

/-- A third batch, with the next sequence. -/
theorem sequences_never_clash_users :
    (users.nextSequence "us" "users").handed = [("us", "users", 3)] ∧
      outboxEnqueue users.rows { userBatch "c" 3 with sequence := 3 } 3 7 ≠ .violated := by
  have reachable := Reachable.next reachable_users (.nextSequence "us" "users")
  exact ⟨rfl, (sequences_never_clash reachable).2.2 _ _ _ (by decide) (by decide)⟩

/-- Every batch that was inserted is pending or was deleted once, by an ack or a cleanup. The counters of
a pod say how its cleanups deleted them, and miss only what those deleted by age that then failed. -/
theorem every_batch_has_one_fate (reachable : Reachable s) :
    (s.inserted.map (·.id)).Nodup ∧ s.inserted.Perm (s.rows ++ s.deleted.map (·.2)) ∧
      ∀ pod, s.cleaning pod = none →
        (s.counters pod).cleanupDeleted + s.uncounted pod =
            s.number (.byAge pod) + s.number (.byCount pod) ∧
          (s.counters pod).cleanupDeletedByAge + s.uncounted pod = s.number (.byAge pod) ∧
          (s.counters pod).cleanupDeletedByCount = s.number (.byCount pod) := by
  obtain ⟨ledger, counted⟩ := ledger_of_reachable reachable
  refine ⟨ledger.ids, ledger.places, fun pod idle => ?_⟩
  obtain ⟨total, byAge, byCount⟩ := counted pod
  rw [idle, Option.getD_none] at byAge
  omega

/-- The first batch is deleted by a cleanup that then fails, and no counter has it. -/
def usersFailed : State Unit := (users.deleteByAge () 16 10).failCleanup () 1

theorem every_batch_has_one_fate_users :
    usersFailed.rows.map (·.id) = [2] ∧ usersFailed.number (.byAge ()) = 1 ∧
      (usersFailed.counters ()).cleanupDeletedByAge + 1 = 1 ∧
      (usersFailed.counters ()).cleanupDeletedByCount = 0 := by
  have begun : Reachable (users.deleteByAge () 16 10) := reachable_users.next (.deleteByAge 16 10 rfl)
  have failed : Reachable usersFailed := begun.next (.failCleanup (by decide))
  exact ⟨by decide, by decide, ((every_batch_has_one_fate failed).2.2 () rfl).2⟩

theorem rowNum_eq (rows : List OutboxBatch) (row : OutboxBatch) :
    rowNum rows row = rank (·.id) (rows.filter (·.peerRegion = row.peerRegion)) row := by
  unfold rowNum rank
  rw [List.countP_filter]
  apply List.countP_congr
  simp [and_comm]

theorem filter_overCount {n : Nat} (positive : 0 < n) (rows : List OutboxBatch) (peer : String) :
    (rows.filter fun row => ¬ overCount rows n row).filter (·.peerRegion = peer) =
      topmost (·.id) (rows.filter (·.peerRegion = peer)) n := by
  unfold topmost
  rw [List.filter_filter, List.filter_filter]
  apply List.filter_congr
  intro row mem
  by_cases same : row.peerRegion = peer
  · subst same
    simp [overCount, positive, rowNum_eq]
  · simp [same]

/-- A cleanup by count leaves every peer its newest rows, as many as the bound allows. -/
theorem cleanup_keeps_newest (reachable : Reachable s) {n : Nat} (positive : 0 < n) (pod : P)
    (deletedByAge : Nat) (peer : String) :
    ((s.deleteByCount pod deletedByAge n).rows.filter (·.peerRegion = peer)).length =
        min n (s.rows.filter (·.peerRegion = peer)).length ∧
      ∀ kept ∈ (s.deleteByCount pod deletedByAge n).rows, ∀ gone ∈ s.rows,
        gone ∉ (s.deleteByCount pod deletedByAge n).rows → gone.peerRegion = kept.peerRegion →
          gone.id < kept.id := by
  have ids := (ledger_of_reachable reachable).1.rows_ids
  constructor
  · change ((s.rows.filter _).filter _).length = _
    rw [filter_overCount positive]
    exact length_topmost (ids.sublist (List.filter_sublist.map _)) n
  · intro kept stays gone mem deleted same
    have newest : kept ∈ topmost (·.id) (s.rows.filter (·.peerRegion = kept.peerRegion)) n := by
      rw [← filter_overCount positive]
      exact List.mem_filter.mpr ⟨stays, decide_eq_true rfl⟩
    apply lt_of_mem_topmost newest
    rw [← same, ← rowNum_eq]
    have hit : overCount s.rows n gone = true := by
      by_contra fits
      exact deleted (List.mem_filter.mpr ⟨mem, decide_eq_true fits⟩)
    have beyond := (of_decide_eq_true hit).2
    omega

theorem cleanup_keeps_newest_users :
    ((users.deleteByCount () 0 1).rows.filter (·.peerRegion = "us")).length = min 1 2 :=
  (cleanup_keeps_newest reachable_users Nat.one_pos () 0 "us").1

end Results

end Transmogr.Retention
