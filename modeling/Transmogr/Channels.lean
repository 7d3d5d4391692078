import Mathlib.Data.List.Basic

/-! Buffered channels: a send waits while the buffer is full, a receive from a closed channel
empties the buffer first, and sending to a closed channel or closing it again panics. -/
namespace Transmogr.Channels

structure Chan (α : Type) where
  capacity : Nat
  buffer : List α
  closed : Bool
  deriving DecidableEq, Repr

variable {α : Type}

def Chan.make (capacity : Nat) : Chan α := ⟨capacity, [], false⟩

/-- What comes of a send. -/
inductive Send (α : Type)
  | sent (chan : Chan α)
  | full
  | panic

def Chan.send (chan : Chan α) (a : α) : Send α :=
  if chan.closed then .panic
  else if chan.buffer.length < chan.capacity then .sent { chan with buffer := chan.buffer ++ [a] }
  else .full

/-- What comes of a receive. -/
inductive Receive (α : Type)
  | received (a : α) (chan : Chan α)
  | ended
  | empty

def Chan.receive (chan : Chan α) : Receive α :=
  match chan.buffer with
  | a :: rest => .received a { chan with buffer := rest }
  | [] => if chan.closed then .ended else .empty

/-- The channel is closed; `none` if it was closed already. -/
def Chan.close (chan : Chan α) : Option (Chan α) :=
  if chan.closed then none else some { chan with closed := true }

theorem Chan.send_eq_panic {chan : Chan α} {a : α} : chan.send a = .panic ↔ chan.closed = true := by
  unfold send
  split
  · simp [*]
  · split <;> simp [*]

theorem Chan.send_eq_sent {chan next : Chan α} {a : α} (sent : chan.send a = .sent next) :
    chan.closed = false ∧ next = { chan with buffer := chan.buffer ++ [a] } := by
  unfold send at sent
  split at sent
  · cases sent
  · next opened =>
    split at sent
    · cases sent
      exact ⟨by simpa using opened, rfl⟩
    · cases sent

theorem Chan.receive_eq_received {chan next : Chan α} {a : α} (got : chan.receive = .received a next) :
    chan.buffer = a :: next.buffer ∧ next.closed = chan.closed := by
  unfold receive at got
  split at got
  · next first rest buffered =>
    cases got
    exact ⟨buffered, rfl⟩
  · split at got <;> cases got

theorem Chan.close_eq_some {chan next : Chan α} (done : chan.close = some next) :
    chan.closed = false ∧ next = { chan with closed := true } := by
  unfold close at done
  split at done
  · cases done
  · next opened =>
    cases done
    exact ⟨by simpa using opened, rfl⟩

end Transmogr.Channels
