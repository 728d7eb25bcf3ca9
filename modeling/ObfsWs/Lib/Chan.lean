import Mathlib.Data.List.Basic

/-!
# Bounded channels

A bounded first-in first-out channel with many senders and many receivers. It is closed once all
ends of one side are gone: nothing more can be sent then, but what is queued can still be
received.

A receive that has to wait registers a listener; the next send, and closing, wake every listener.
`tryRecv` never waits and registers nothing. The listeners that an operation wakes are part of
its result.

## The two ways to receive

`pollRecv` is one poll of a waiting receive: it either has a result or leaves a listener behind,
and a listener is woken by the next send or by closing. `tryRecv` has the same results and leaves
nothing behind. The difference cannot be seen in the queue; it is why `listeners` is part of the
channel at all. A program that polls with the one and relies on being woken as with the other
looks right in every statement about queues.

Waking is told in the result and has no effect here. What a woken receiver does is up to the
machine that owns the channel, and whether it does anything is a matter of its schedule.

## Main definitions

* `Chan α ω` — messages of type `α`, listeners of type `ω`; that the queue fits is a field
* `Chan.trySend`, `Chan.tryRecv`, `Chan.pollRecv`, `Chan.close`

## Implementation notes

A channel is closed from one side only as far as this file goes: `closed` says that no send can
succeed any more, whoever went away. A machine whose two sides can go away one after the other
keeps track of the ends itself and calls `close` at the first of them.

A send wakes every listener at once, and a listener that finds nothing polls again.
Implementations wake one listener for each message; with a single waiting receiver the two are the
same, and with several of them waking more is the assumption under which fewer receivers are
forgotten. So a lost wakeup that is shown here is one of the implementations as well.

The queue is a list and messages are in it once. That it fits the capacity is a field, so that a
send is the only operation with anything to prove, and no invariant of a machine repeats the
bound.
-/

namespace ObfsWs

/-- A bounded channel. -/
structure Chan (α ω : Type) where
  /-- How many messages fit. -/
  cap : ℕ
  /-- The messages sent and not yet received, oldest first. -/
  queue : List α
  /-- All ends of one side are gone. -/
  closed : Bool
  /-- The receives that wait. -/
  listeners : List ω
  /-- The queue fits. -/
  queue_le : queue.length ≤ cap
  deriving DecidableEq

/-- Why a send did not store its message. -/
inductive TrySendError
  | full
  | closed
  deriving DecidableEq

/-- Why a receive did not get a message. -/
inductive TryRecvError
  | empty
  | closed
  deriving DecidableEq

/-- The result of polling. -/
inductive Poll (α : Type)
  | pending
  | ready (a : α)
  deriving DecidableEq

namespace Chan

variable {α ω : Type}

/-- `bounded(cap)`. -/
def bounded (cap : ℕ) : Chan α ω := ⟨cap, [], false, [], Nat.zero_le _⟩

/-- Store `m` unless the channel is closed or full. Returns the channel and the listeners woken. -/
def trySend (c : Chan α ω) (m : α) : Except TrySendError (Chan α ω × List ω) :=
  if c.closed then .error .closed
  else if h : c.queue.length < c.cap then
    .ok ({ c with
      queue := c.queue ++ [m]
      listeners := []
      queue_le := by simpa using Nat.succ_le_of_lt h },
      c.listeners)
  else .error .full

/-- Take the oldest message if there is one. Registers nothing. -/
def tryRecv (c : Chan α ω) : Except TryRecvError (α × Chan α ω) :=
  match c.queue with
  | m :: _ =>
    .ok (m, { c with
      queue := c.queue.tail
      queue_le := Nat.le_trans (by simp) c.queue_le })
  | [] => .error (if c.closed then .closed else .empty)

/-- Poll a waiting receive: a message, the end of the channel, or registering `w`. -/
def pollRecv [DecidableEq ω] (c : Chan α ω) (w : ω) :
    Poll (Except TryRecvError α) × Chan α ω :=
  match c.tryRecv with
  | .ok (m, c') => (.ready (.ok m), c')
  | .error .closed => (.ready (.error .closed), c)
  | .error .empty => (.pending, { c with listeners := c.listeners.insert w })

/-- The last end of one side goes away. Returns the channel and the listeners woken. -/
def close (c : Chan α ω) : Chan α ω × List ω :=
  ({ c with closed := true, listeners := [] }, c.listeners)

/-- There is room for a message. -/
def hasRoom (c : Chan α ω) : Bool := c.queue.length < c.cap

@[simp] theorem queue_bounded (cap : ℕ) : (bounded cap : Chan α ω).queue = [] := rfl

@[simp] theorem closed_bounded (cap : ℕ) : (bounded cap : Chan α ω).closed = false := rfl

@[simp] theorem listeners_bounded (cap : ℕ) : (bounded cap : Chan α ω).listeners = [] := rfl

@[simp] theorem cap_bounded (cap : ℕ) : (bounded cap : Chan α ω).cap = cap := rfl

@[simp] theorem queue_close (c : Chan α ω) : c.close.1.queue = c.queue := rfl

@[simp] theorem closed_close (c : Chan α ω) : c.close.1.closed = true := rfl

@[simp] theorem listeners_close (c : Chan α ω) : c.close.1.listeners = [] := rfl

@[simp] theorem cap_close (c : Chan α ω) : c.close.1.cap = c.cap := rfl

/-- What a successful send does. -/
theorem trySend_ok {c c' : Chan α ω} {m : α} {ws : List ω} (h : c.trySend m = .ok (c', ws)) :
    c.closed = false ∧ c.queue.length < c.cap ∧ c'.queue = c.queue ++ [m] ∧ c'.closed = false ∧
      c'.listeners = [] ∧ c'.cap = c.cap ∧ ws = c.listeners := by
  unfold trySend at h
  split at h
  · cases h
  · rename_i hc
    split at h
    · rename_i hlt
      cases h
      exact ⟨by simpa using hc, hlt, rfl, by simpa using hc, rfl, rfl, rfl⟩
    · cases h

/-- When a send finds the channel full. -/
theorem trySend_full_iff {c : Chan α ω} {m : α} :
    c.trySend m = .error .full ↔ c.closed = false ∧ c.hasRoom = false := by
  unfold trySend hasRoom
  split
  · simp_all
  · split <;> simp_all

theorem trySend_closed_iff {c : Chan α ω} {m : α} :
    c.trySend m = .error .closed ↔ c.closed = true := by
  unfold trySend
  split
  · simp_all
  · split <;> simp_all

/-- A send that stored its message found room. -/
theorem hasRoom_of_trySend_ok {c : Chan α ω} {m : α} {r : Chan α ω × List ω}
    (h : c.trySend m = .ok r) : c.hasRoom = true :=
  decide_eq_true (trySend_ok h).2.1

/-- A send that failed on an open channel found it full. -/
theorem full_of_trySend_error {c : Chan α ω} {m : α} {e : TrySendError} (hc : c.closed = false)
    (h : c.trySend m = .error e) : c.hasRoom = false := by
  cases e with
  | full => exact (trySend_full_iff.mp h).2
  | closed => exact absurd (hc.symm.trans (trySend_closed_iff.mp h)) (by simp)

/-- What a successful receive does. -/
theorem tryRecv_ok {c c' : Chan α ω} {m : α} (h : c.tryRecv = .ok (m, c')) :
    c.queue = m :: c'.queue ∧ c'.closed = c.closed ∧ c'.listeners = c.listeners ∧
      c'.cap = c.cap := by
  unfold tryRecv at h
  split at h
  · rename_i hq
    cases h
    exact ⟨by simp [hq], rfl, rfl, rfl⟩
  · cases h

/-- A receive fails on an empty queue only; closed and empty are told apart by the flag. -/
theorem tryRecv_error_iff {c : Chan α ω} {e : TryRecvError} :
    c.tryRecv = .error e ↔ c.queue = [] ∧ e = if c.closed then .closed else .empty := by
  unfold tryRecv
  split
  · simp_all
  · rename_i hq
    simp only [Except.error.injEq, hq, true_and]
    exact eq_comm

theorem exists_tryRecv_of_cons {c : Chan α ω} {m : α} {q : List α} (h : c.queue = m :: q) :
    ∃ c', c.tryRecv = .ok (m, c') := by
  cases hr : c.tryRecv with
  | error e => simp [(tryRecv_error_iff.mp hr).1] at h
  | ok p =>
    obtain ⟨m', c'⟩ := p
    have := (tryRecv_ok hr).1
    rw [h] at this
    obtain ⟨rfl, -⟩ := List.cons.inj this
    exact ⟨c', rfl⟩

/-- What polling a waiting receive does, in its three cases. -/
theorem pollRecv_cases [DecidableEq ω] (c : Chan α ω) (w : ω) :
    (∃ m c', c.pollRecv w = (.ready (.ok m), c') ∧ c.tryRecv = .ok (m, c')) ∨
    (c.pollRecv w = (.ready (.error .closed), c) ∧ c.queue = [] ∧ c.closed = true) ∨
    (c.pollRecv w = (.pending, { c with listeners := c.listeners.insert w }) ∧ c.queue = [] ∧
      c.closed = false) := by
  unfold pollRecv
  cases hr : c.tryRecv with
  | ok p => exact .inl ⟨p.1, p.2, rfl, rfl⟩
  | error e =>
    obtain ⟨hq, rfl⟩ := tryRecv_error_iff.mp hr
    cases hc : c.closed with
    | true => exact .inr (.inl ⟨by simp, hq, rfl⟩)
    | false => exact .inr (.inr ⟨by simp, hq, rfl⟩)

end Chan

end ObfsWs
