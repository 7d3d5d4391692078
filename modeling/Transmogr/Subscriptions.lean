import Mathlib.Data.List.Nodup
import Std.Data.ExtTreeMap.Lemmas
import Transmogr.Channels
import Transmogr.Machine
import Transmogr.Outbox

/-! The two keyed in-memory buses, `outbox.Service` and `fanout.Memory`. Subscribing, unsubscribing
and collecting the targets of a message hold the mutex; the sends to the collected targets do not. -/
namespace Transmogr

open Std (ExtTreeMap)
open Channels

/-- The function `Subscribe` returns closes over the key, the id and the channel. -/
structure Unsubscribe where
  key : String
  id : Nat
  chan : Nat
  deriving DecidableEq, Repr

/-- A publish that released the mutex and has not come to these targets yet. -/
structure Publishing (T : Type) where
  message : T
  targets : List Nat

inductive Panic
  | sendOnClosed (chan : Nat)
  | closeOfClosed (chan : Nat)
  deriving DecidableEq, Repr

/-- How a send to a full channel goes on: `publishLive` has a default case, `Publish` waits for
room or for its context. -/
inductive WhenFull
  | drop
  | wait
  deriving DecidableEq, Repr

structure Bus (T : Type) where
  nextID : Nat := 0
  subs : String → ExtTreeMap Nat Nat := fun _ => ∅
  unsubscribes : List Unsubscribe := []
  chans : List (Chan T) := []
  publishing : List (Publishing T) := []
  panic : Option Panic := none

namespace Bus

variable {T : Type}

inductive Action (T : Type)
  | subscribe (key : String)
  | unsubscribe (call : Nat)
  | collect (key : String) (message : T)
  | send (publish : Nat) (target : Nat)
  | contextDone (publish : Nat)
  | receive (chan : Nat)

-- `nextID` is a `uint64`.
def subscribe (bufferSize : Nat) (bus : Bus T) (key : String) : Bus T :=
  let id := (bus.nextID + 1) % 2 ^ 64
  { bus with
    nextID := id
    subs := Function.update bus.subs key ((bus.subs key).insert id bus.chans.length)
    unsubscribes := bus.unsubscribes ++ [⟨key, id, bus.chans.length⟩]
    chans := bus.chans ++ [Chan.make bufferSize] }

def unsubscribe (bus : Bus T) (call : Unsubscribe) : Bus T :=
  if call.id ∈ bus.subs call.key then
    match bus.chans[call.chan]?.bind Chan.close with
    | some chan =>
      { bus with
        subs := Function.update bus.subs call.key ((bus.subs call.key).erase call.id)
        chans := bus.chans.set call.chan chan }
    | none => { bus with panic := some (.closeOfClosed call.chan) }
  else bus

def collect (bus : Bus T) (key : String) (message : T) : Bus T :=
  { bus with publishing := bus.publishing ++ [⟨message, (bus.subs key).toList.map (·.2)⟩] }

/-- The publish has no more to do for one target. -/
def leave (bus : Bus T) (publish : Nat) (call : Publishing T) (target : Nat) : Bus T :=
  { bus with publishing :=
      bus.publishing.set publish { call with targets := call.targets.erase target } }

-- A map is ranged over in any order, so any of the targets left may be next.
def send (whenFull : WhenFull) (bus : Bus T) (publish target : Nat) : Option (Bus T) := do
  let call ← bus.publishing[publish]?
  let chan ← bus.chans[target]?
  if target ∈ call.targets then
    match chan.send call.message with
    | .sent next =>
      some { bus.leave publish call target with chans := bus.chans.set target next }
    | .full =>
      match whenFull with
      | .drop => some (bus.leave publish call target)
      | .wait => none
    | .panic => some { bus with panic := some (.sendOnClosed target) }
  else none

def contextDone (whenFull : WhenFull) (bus : Bus T) (publish : Nat) : Option (Bus T) := do
  let call ← bus.publishing[publish]?
  match whenFull with
  | .drop => none
  | .wait => some { bus with publishing := bus.publishing.set publish { call with targets := [] } }

def receive (bus : Bus T) (target : Nat) : Option (Bus T) := do
  let chan ← bus.chans[target]?
  match chan.receive with
  | .received _ next => some { bus with chans := bus.chans.set target next }
  | .ended => some bus
  | .empty => none

/-- One mutex section or one channel operation. A panic ends the process. -/
def step (whenFull : WhenFull) (bufferSize : Nat) (bus : Bus T) (action : Action T) :
    Option (Bus T) :=
  if bus.panic.isSome then none
  else match action with
    | .subscribe key => some (bus.subscribe bufferSize key)
    | .unsubscribe call => bus.unsubscribes[call]?.map bus.unsubscribe
    | .collect key message => some (bus.collect key message)
    | .send publish target => bus.send whenFull publish target
    | .contextDone publish => bus.contextDone whenFull publish
    | .receive chan => bus.receive chan

/-- The buses as `New` and `NewMemoryWithBuffer` return them. -/
def empty : Bus T := {}

def defaultBufferSize : Nat := 128

/-- `publishLive` takes the key from the batch. -/
def Action.OfOutbox : Action OutboxBatch → Prop
  | .collect key batch => key = batch.peerRegion
  | _ => True

instance : DecidablePred Action.OfOutbox
  | .collect key batch => inferInstanceAs (Decidable (key = batch.peerRegion))
  | .subscribe _ | .unsubscribe _ | .send _ _ | .contextDone _ | .receive _ => .isTrue trivial

/-- `outbox.Service`: `Subscribe`, its unsubscribe and `publishLive`. -/
def outboxStep (bus : Bus OutboxBatch) (action : Action OutboxBatch) : Option (Bus OutboxBatch) :=
  if action.OfOutbox then step .drop liveReplicationBufferSize bus action else none

/-- `fanout.Memory`: `Subscribe`, its unsubscribe and `Publish`. -/
def memoryStep (bufferSize : Int) : Bus T → Action T → Option (Bus T) :=
  step .wait (if bufferSize ≤ 0 then defaultBufferSize else bufferSize.toNat)

/-- The channel exists and is open. -/
def Opened (bus : Bus T) (c : Nat) : Prop := ∃ chan, bus.chans[c]? = some chan ∧ chan.closed = false

/-- What subscribing and unsubscribing keep: the id of a subscription is the number of its
channel plus one, and a channel in the map is open and belongs to the subscription found there. -/
structure Registered (bus : Bus T) : Prop where
  nextID : bus.nextID = bus.chans.length
  calls : bus.unsubscribes.length = bus.chans.length
  named : ∀ c call, bus.unsubscribes[c]? = some call → call.id = c + 1 ∧ call.chan = c
  own : ∀ (key : String) (id c : Nat), (bus.subs key)[id]? = some c →
    bus.unsubscribes[c]? = some (Unsubscribe.mk key id c)
  opened : ∀ (key : String) (id c : Nat), (bus.subs key)[id]? = some c → bus.Opened c
  once : ∀ c, bus.panic ≠ some (.closeOfClosed c)

/-- No publish is still to come to a channel that is closed. -/
def Aimed (bus : Bus T) : Prop := ∀ call ∈ bus.publishing, ∀ c ∈ call.targets, bus.Opened c

/-- What the steps outside the mutex leave alone, and how they panic. -/
structure Frame (bus next : Bus T) : Prop where
  nextID : next.nextID = bus.nextID
  subs : next.subs = bus.subs
  unsubscribes : next.unsubscribes = bus.unsubscribes
  length : next.chans.length = bus.chans.length
  opened : ∀ c, bus.Opened c → next.Opened c
  targets : ∀ call ∈ next.publishing, ∀ c ∈ call.targets, ∃ before ∈ bus.publishing,
    c ∈ before.targets
  panic : next.panic = bus.panic ∨ ∃ call ∈ bus.publishing, ∃ c ∈ call.targets,
    ¬ bus.Opened c ∧ next.panic = some (.sendOnClosed c)

theorem opened_set {bus next : Bus T} {target c : Nat} {chan chan' : Chan T}
    (found : bus.chans[target]? = some chan) (closed : chan'.closed = chan.closed)
    (chans : next.chans = bus.chans.set target chan') (opened : bus.Opened c) : next.Opened c := by
  obtain ⟨other, at_c, isOpen⟩ := opened
  unfold Opened
  rw [chans]
  by_cases same : target = c
  · subst same
    obtain rfl := Option.some.inj (found.symm.trans at_c)
    have bound := (List.getElem?_eq_some_iff.mp found).1
    exact ⟨chan', by simp [bound], closed.trans isOpen⟩
  · exact ⟨other, by simp [List.getElem?_set_ne same, at_c], isOpen⟩

/-- A publish that only loses targets. -/
theorem targets_set {publishing : List (Publishing T)} {publish : Nat} {call : Publishing T}
    {targets : List Nat} (found : publishing[publish]? = some call)
    (fewer : ∀ c ∈ targets, c ∈ call.targets) :
    ∀ left ∈ publishing.set publish { call with targets := targets }, ∀ c ∈ left.targets,
      ∃ before ∈ publishing, c ∈ before.targets := by
  intro left mem c target
  rcases List.mem_or_eq_of_mem_set mem with mem | rfl
  · exact ⟨left, mem, target⟩
  · exact ⟨call, List.mem_of_getElem? found, fewer c target⟩

theorem Frame.leave {bus : Bus T} {publish target : Nat} {call : Publishing T}
    (found : bus.publishing[publish]? = some call) : Frame bus (bus.leave publish call target) where
  nextID := rfl
  subs := rfl
  unsubscribes := rfl
  length := rfl
  opened _ opened := opened
  targets := targets_set found fun _ => List.mem_of_mem_erase
  panic := .inl rfl

theorem Frame.set {bus next : Bus T} {target : Nat} {chan chan' : Chan T} (frame : Frame bus next)
    (found : bus.chans[target]? = some chan) (closed : chan'.closed = chan.closed) :
    Frame bus { next with chans := bus.chans.set target chan' } :=
  { frame with
    length := by simp
    opened := fun _ opened => opened_set found closed rfl opened }

theorem Frame.refl (bus : Bus T) : Frame bus bus where
  nextID := rfl
  subs := rfl
  unsubscribes := rfl
  length := rfl
  opened _ opened := opened
  targets call mem _ target := ⟨call, mem, target⟩
  panic := .inl rfl

theorem send_frame {whenFull : WhenFull} {bus next : Bus T} {publish target : Nat}
    (sent : bus.send whenFull publish target = some next) : Frame bus next := by
  obtain ⟨call, found, sent⟩ := Option.bind_eq_some_iff.mp sent
  obtain ⟨chan, at_target, sent⟩ := Option.bind_eq_some_iff.mp sent
  split at sent
  · next isTarget =>
    split at sent
    · next chan' accepted =>
      cases sent
      obtain ⟨-, rfl⟩ := Chan.send_eq_sent accepted
      exact (Frame.leave found).set at_target rfl
    · split at sent <;> cases sent
      exact .leave found
    · next panics =>
      cases sent
      refine { Frame.refl bus with
        panic := .inr ⟨call, List.mem_of_getElem? found, target, isTarget, ?_, rfl⟩ }
      rintro ⟨other, at_other, isOpen⟩
      obtain rfl := Option.some.inj (at_target.symm.trans at_other)
      simp [Chan.send_eq_panic.mp panics] at isOpen
  · cases sent

theorem contextDone_frame {whenFull : WhenFull} {bus next : Bus T} {publish : Nat}
    (done : bus.contextDone whenFull publish = some next) : Frame bus next := by
  obtain ⟨call, found, done⟩ := Option.bind_eq_some_iff.mp done
  cases whenFull with
  | drop => cases done
  | wait =>
    cases done
    exact { Frame.refl bus with targets := targets_set found (by simp) }

theorem receive_frame {bus next : Bus T} {target : Nat} (got : bus.receive target = some next) :
    Frame bus next := by
  obtain ⟨chan, found, got⟩ := Option.bind_eq_some_iff.mp got
  split at got
  · next received =>
    cases got
    exact (Frame.refl bus).set found (Chan.receive_eq_received received).2
  · cases got
    exact .refl bus
  · cases got

theorem Registered.frame {bus next : Bus T} (registered : bus.Registered) (frame : Frame bus next) :
    next.Registered where
  nextID := by rw [frame.nextID, frame.length, registered.nextID]
  calls := by rw [frame.unsubscribes, frame.length, registered.calls]
  named := frame.unsubscribes ▸ registered.named
  own := by
    rw [frame.subs, frame.unsubscribes]
    exact registered.own
  opened key id c found := by
    rw [frame.subs] at found
    exact frame.opened c (registered.opened key id c found)
  once c := by
    rcases frame.panic with same | ⟨-, -, d, -, -, panics⟩
    · rw [same]
      exact registered.once c
    · simp [panics]

theorem Registered.collect {bus : Bus T} (registered : bus.Registered) (key : String) (message : T) :
    (bus.collect key message).Registered :=
  { registered with }

theorem opened_append {bus next : Bus T} {chan : Chan T} {c : Nat}
    (chans : next.chans = bus.chans ++ [chan]) (opened : bus.Opened c) : next.Opened c := by
  obtain ⟨other, found, isOpen⟩ := opened
  refine ⟨other, ?_, isOpen⟩
  rw [chans, List.getElem?_append_left (List.getElem?_eq_some_iff.mp found).1]
  exact found

/-- What the map holds after a subscription. -/
theorem lookup_insert {subs : String → ExtTreeMap Nat Nat} {key key' : String} {id id' c c' : Nat}
    (found : (Function.update subs key ((subs key).insert id c) key')[id']? = some c') :
    (key' = key ∧ id' = id ∧ c' = c) ∨ (subs key')[id']? = some c' := by
  by_cases same : key' = key
  · subst same
    rw [Function.update_self, ExtTreeMap.getElem?_insert] at found
    split at found
    · next here =>
      cases found
      exact .inl ⟨rfl, (Std.LawfulEqCmp.eq_of_compare here).symm, rfl⟩
    · exact .inr found
  · rw [Function.update_of_ne same] at found
    exact .inr found

/-- What the map holds after a subscription was removed. -/
theorem lookup_erase {subs : String → ExtTreeMap Nat Nat} {key key' : String} {id id' c' : Nat}
    (found : (Function.update subs key ((subs key).erase id) key')[id']? = some c') :
    ¬ (key' = key ∧ id' = id) ∧ (subs key')[id']? = some c' := by
  by_cases same : key' = key
  · subst same
    rw [Function.update_self, ExtTreeMap.getElem?_erase] at found
    split at found
    · cases found
    · next other =>
      refine ⟨?_, found⟩
      rintro ⟨-, rfl⟩
      exact other Std.ReflCmp.compare_self
  · rw [Function.update_of_ne same] at found
    exact ⟨fun both => same both.1, found⟩

/-- The number the next subscription gets was given to none before. -/
theorem Registered.subscribe {bus : Bus T} (registered : bus.Registered) (bufferSize : Nat)
    (key : String) (inRange : bus.nextID + 1 < 2 ^ 64) :
    (bus.subscribe bufferSize key).Registered := by
  have id : (bus.nextID + 1) % 2 ^ 64 = bus.chans.length + 1 := by
    rw [Nat.mod_eq_of_lt inRange, registered.nextID]
  have last : (bus.subscribe bufferSize key).unsubscribes[bus.chans.length]? =
      some ⟨key, bus.chans.length + 1, bus.chans.length⟩ := by
    simp only [Bus.subscribe, id, ← registered.calls, List.getElem?_concat_length]
  have earlier : ∀ (c : Nat) (call : Unsubscribe), bus.unsubscribes[c]? = some call →
      (bus.subscribe bufferSize key).unsubscribes[c]? = some call := by
    intro c call found
    simp only [Bus.subscribe, List.getElem?_append_left (List.getElem?_eq_some_iff.mp found).1]
    exact found
  constructor
  · simp only [Bus.subscribe, id, List.length_append, List.length_singleton]
  · simp only [Bus.subscribe, List.length_append, List.length_singleton, registered.calls]
  · intro c call found
    by_cases old : c < bus.unsubscribes.length
    · rw [Bus.subscribe, List.getElem?_append_left old] at found
      exact registered.named c call found
    · have bound := (List.getElem?_eq_some_iff.mp found).1
      simp only [Bus.subscribe, List.length_append, List.length_singleton] at bound
      obtain rfl : c = bus.chans.length := by rw [← registered.calls]; omega
      obtain rfl := Option.some.inj (last.symm.trans found)
      exact ⟨rfl, rfl⟩
  · intro key' id' c found
    simp only [Bus.subscribe, id] at found
    rcases lookup_insert found with ⟨rfl, rfl, rfl⟩ | found
    · exact last
    · exact earlier _ _ (registered.own key' id' c found)
  · intro key' id' c found
    simp only [Bus.subscribe, id] at found
    rcases lookup_insert found with ⟨-, -, rfl⟩ | found
    · exact ⟨Chan.make bufferSize, by simp [Bus.subscribe], rfl⟩
    · exact opened_append rfl (registered.opened key' id' c found)
  · exact registered.once

/-- What the map holds under an unsubscribe's own key and id is the unsubscribe's own channel. -/
theorem Registered.own_chan {bus : Bus T} (registered : bus.Registered) {i c : Nat}
    {call : Unsubscribe} (found : bus.unsubscribes[i]? = some call)
    (mapped : (bus.subs call.key)[call.id]? = some c) : c = call.chan := by
  obtain ⟨id, chan⟩ := registered.named i call found
  obtain ⟨id', -⟩ := registered.named c _ (registered.own _ _ _ mapped)
  simp only at id'
  omega

theorem unsubscribe_cases {bus : Bus T} (registered : bus.Registered) {i : Nat}
    {call : Unsubscribe} (found : bus.unsubscribes[i]? = some call) :
    bus.unsubscribe call = bus ∨
      call.id ∈ bus.subs call.key ∧ ∃ chan, bus.chans[call.chan]? = some chan ∧
        bus.unsubscribe call =
          { bus with
            subs := Function.update bus.subs call.key ((bus.subs call.key).erase call.id)
            chans := bus.chans.set call.chan { chan with closed := true } } := by
  by_cases mem : call.id ∈ bus.subs call.key
  · obtain ⟨c, mapped⟩ := Option.isSome_iff_exists.mp (ExtTreeMap.isSome_getElem?_iff_mem.mpr mem)
    obtain rfl := registered.own_chan found mapped
    obtain ⟨chan, at_chan, isOpen⟩ := registered.opened _ _ _ mapped
    refine .inr ⟨mem, chan, at_chan, ?_⟩
    simp [unsubscribe, mem, at_chan, Chan.close, isOpen]
  · exact .inl (by simp [unsubscribe, mem])

theorem opened_close {bus next : Bus T} {closing c : Nat} {chan : Chan T}
    (chans : next.chans = bus.chans.set closing chan) (other : closing ≠ c)
    (opened : bus.Opened c) : next.Opened c := by
  obtain ⟨found, at_c, isOpen⟩ := opened
  refine ⟨found, ?_, isOpen⟩
  rw [chans, List.getElem?_set_ne other]
  exact at_c

theorem Registered.unsubscribe {bus : Bus T} (registered : bus.Registered) {i : Nat}
    {call : Unsubscribe} (found : bus.unsubscribes[i]? = some call) :
    (bus.unsubscribe call).Registered := by
  rcases unsubscribe_cases registered found with same | ⟨-, chan, -, removed⟩
  · rw [same]
    exact registered
  · rw [removed]
    constructor
    · simp [registered.nextID]
    · simp [registered.calls]
    · exact registered.named
    · intro key id c mapped
      exact registered.own key id c (lookup_erase mapped).2
    · intro key id c mapped
      obtain ⟨other, mapped⟩ := lookup_erase mapped
      apply opened_close rfl ?_ (registered.opened key id c mapped)
      -- the entry left would be the one removed: a channel has one subscription
      rintro rfl
      have own := registered.own key id _ mapped
      obtain ⟨-, chan⟩ := registered.named i call found
      rw [chan, found] at own
      cases own
      exact other ⟨rfl, rfl⟩
    · exact registered.once

/-- The ids have not come round. -/
def Fresh (bus : Bus T) : Action T → Prop
  | .subscribe _ => bus.nextID + 1 < 2 ^ 64
  | _ => True

/-- An unsubscribe that closes its channel finds no publish on its way to it. -/
def Clear (bus : Bus T) : Action T → Prop
  | .unsubscribe i => ∀ call ∈ bus.unsubscribes[i]?, call.id ∈ bus.subs call.key →
      ∀ p ∈ bus.publishing, call.chan ∉ p.targets
  | _ => True

instance (bus : Bus T) : DecidablePred bus.Fresh
  | .subscribe _ => inferInstanceAs (Decidable (_ < _))
  | .unsubscribe _ | .collect _ _ | .send _ _ | .contextDone _ | .receive _ => .isTrue trivial

instance (bus : Bus T) : DecidablePred bus.Clear
  | .unsubscribe i => inferInstanceAs (Decidable (∀ call ∈ bus.unsubscribes[i]?, _))
  | .subscribe _ | .collect _ _ | .send _ _ | .contextDone _ | .receive _ => .isTrue trivial

variable {whenFull : WhenFull} {bufferSize : Nat} {bus next : Bus T} {action : Action T}

theorem step_registered (registered : bus.Registered) (fresh : bus.Fresh action)
    (taken : step whenFull bufferSize bus action = some next) : next.Registered := by
  unfold step at taken
  split at taken
  · cases taken
  · cases action with
    | subscribe key =>
      cases taken
      exact registered.subscribe bufferSize key fresh
    | unsubscribe i =>
      obtain ⟨call, found, rfl⟩ := Option.map_eq_some_iff.mp taken
      exact registered.unsubscribe found
    | collect key message =>
      cases taken
      exact registered.collect key message
    | send publish target => exact registered.frame (send_frame taken)
    | contextDone publish => exact registered.frame (contextDone_frame taken)
    | receive chan => exact registered.frame (receive_frame taken)

/-- Aimed at open channels only, and nothing panicked. -/
def Calm (bus : Bus T) : Prop := bus.Aimed ∧ bus.panic = none

theorem Calm.frame (calm : bus.Calm) (frame : Frame bus next) : next.Calm := by
  constructor
  · intro call mem c target
    obtain ⟨before, mem, target⟩ := frame.targets call mem c target
    exact frame.opened c (calm.1 before mem c target)
  · rcases frame.panic with same | ⟨call, mem, c, target, shut, -⟩
    · rw [same]
      exact calm.2
    · exact absurd (calm.1 call mem c target) shut

theorem Calm.collect (calm : bus.Calm) (registered : bus.Registered) (key : String) (message : T) :
    (bus.collect key message).Calm := by
  refine ⟨?_, calm.2⟩
  intro call mem c target
  rcases List.mem_append.mp mem with mem | mem
  · exact calm.1 call mem c target
  · obtain rfl := List.mem_singleton.mp mem
    obtain ⟨⟨id, _⟩, entry, rfl⟩ := List.mem_map.mp target
    exact registered.opened key id _ (ExtTreeMap.mem_toList_iff_getElem?_eq_some.mp entry)

theorem Calm.unsubscribe (calm : bus.Calm) (registered : bus.Registered) {i : Nat}
    {call : Unsubscribe} (found : bus.unsubscribes[i]? = some call)
    (clear : bus.Clear (.unsubscribe i)) : (bus.unsubscribe call).Calm := by
  rcases unsubscribe_cases registered found with same | ⟨mem, chan, -, removed⟩
  · rw [same]
    exact calm
  · rw [removed]
    refine ⟨?_, calm.2⟩
    intro p publishing c target
    apply opened_close rfl ?_ (calm.1 p publishing c target)
    rintro rfl
    exact clear call found mem p publishing target

theorem step_calm (registered : bus.Registered) (calm : bus.Calm) (clear : bus.Clear action)
    (taken : step whenFull bufferSize bus action = some next) : next.Calm := by
  unfold step at taken
  split at taken
  · cases taken
  · cases action with
    | subscribe key =>
      cases taken
      exact ⟨fun call mem c target => opened_append rfl (calm.1 call mem c target), calm.2⟩
    | unsubscribe i =>
      obtain ⟨call, found, rfl⟩ := Option.map_eq_some_iff.mp taken
      exact calm.unsubscribe registered found clear
    | collect key message =>
      cases taken
      exact calm.collect registered key message
    | send publish target => exact calm.frame (send_frame taken)
    | contextDone publish => exact calm.frame (contextDone_frame taken)
    | receive chan => exact calm.frame (receive_frame taken)

theorem registered_empty : (empty : Bus T).Registered := by
  constructor <;> simp [empty]

/-- Over every run no channel is closed twice, and over the runs whose unsubscribes are clear
nothing is sent to a closed channel. -/
def Safe (step : Bus T → Action T → Option (Bus T)) : Prop :=
  ∀ actions bus, Machine.run step empty actions = some bus → Machine.Meets step Fresh empty actions →
    (∀ c, bus.panic ≠ some (.closeOfClosed c)) ∧
      (Machine.Meets step Clear empty actions → bus.panic = none)

theorem safe_of_step {taking : Bus T → Action T → Option (Bus T)}
    (steps : ∀ bus action next, taking bus action = some next →
      step whenFull bufferSize bus action = some next) : Safe taking := by
  intro actions bus ran fresh
  constructor
  · exact (Machine.invariant (fun b a n registered fresh taken =>
      step_registered registered fresh (steps b a n taken)) registered_empty fresh ran).once
  · intro clear
    have both := @Machine.invariant _ _ _ (fun b : Bus T => b.Registered ∧ b.Calm) _
      (fun b a n holds cond taken =>
        ⟨step_registered holds.1 cond.1 (steps b a n taken),
          step_calm holds.1 holds.2 cond.2 (steps b a n taken)⟩)
      _ _ _ ⟨registered_empty, by simp [Aimed, empty], rfl⟩ (fresh.and clear) ran
    exact both.2.2

/-- Neither bus closes a channel twice; neither sends to a closed channel if an unsubscribe closes
a channel only when no publish has it among the targets it has still to send to. -/
theorem publish_sends_to_open_channels (bufferSize : Int) :
    Safe outboxStep ∧ Safe (memoryStep (T := T) bufferSize) := by
  constructor
  · apply safe_of_step
    intro bus action next taken
    unfold outboxStep at taken
    split at taken
    · exact taken
    · cases taken
  · apply safe_of_step
    exact fun _ _ _ taken => taken

def liveBatch : OutboxBatch := ⟨1, "eu", "users", 1, [], 1, ""⟩

/-- One subscriber gets a message and then unsubscribes twice. -/
def unsubscribing (message : T) : List (Action T) :=
  [.subscribe "eu", .collect "eu" message, .send 0 0, .receive 0, .unsubscribe 0, .unsubscribe 0]

theorem unsubscribing_sends_to_open_channels :
    (Machine.run outboxStep empty (unsubscribing liveBatch)).map (·.panic) = some none ∧
      ∀ bus, Machine.run outboxStep empty (unsubscribing liveBatch) = some bus → bus.panic = none := by
  refine ⟨by decide, fun bus ran => ?_⟩
  exact ((publish_sends_to_open_channels (T := Nat) 1).1 _ bus ran (by decide)).2 (by decide)

/-- The subscriber leaves between the collecting of the targets and the send. -/
theorem unsubscribe_between_collect_and_send :
    (Machine.run outboxStep empty [.subscribe "eu", .collect "eu" liveBatch, .unsubscribe 0,
        .send 0 0]).map (·.panic) = some (some (.sendOnClosed 0)) ∧
      (Machine.run (memoryStep 1) empty [.subscribe "eu", .collect "eu" 7, .unsubscribe 0,
        .send 0 0]).map (·.panic) = some (some (.sendOnClosed 0)) := by
  decide

end Bus

end Transmogr
