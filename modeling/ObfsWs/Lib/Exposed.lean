import ObfsWs.Lib.Link

/-!
# A handler and any peer

A handler at one end of a byte stream, whose other end may do anything: it puts whatever bytes it
likes on the stream, whenever it likes. The stream carries them in order until it breaks; some of
the bytes under way are then lost from the end.

A handler may panic. It says itself which of its steps do, by what can be known before the step;
that it is right is a field. Then it panics nowhere in a run exactly when it makes no such step.

## Main definitions

* `Handler` — what a handler does and which of its steps panic
* `Exposed`, `Handler.machine` — a handler and the bytes under way to it
* `Handler.NeverPanics`, `Handler.TripsAt`

## Main results

* `Handler.neverPanics_iff_of_run` — when a handler panics nowhere

## Why the peer is not a program

What a handler survives should not depend on who is at the other end. The peer here is a list of
bytes that grows by anything at any time; a peer that follows a protocol is a special case, and so
is one that sends half a message and is silent, or one that sends nothing but noise. What the
handler puts on the stream is observed and goes nowhere: a peer that reacts to it is again a
special case.

The condition of `neverPanics_iff_of_run` is on the state before a step and the bytes that are
there to be read, and may not look at what the step leads to. Otherwise it could say that the
handler has panicked, and the theorem would say nothing.
-/

namespace ObfsWs

variable {σ α ο : Type}

/-- A handler. Its steps may depend on the bytes under way to it and on whether the stream is
broken. -/
structure Handler (σ α ο : Type) where
  /-- One step. -/
  step : σ → Bool → List UInt8 → α → Option (σ × Effect ο)
  /-- It has panicked. -/
  panicked : σ → Bool
  /-- The steps that panic, by the state before them and the bytes under way. -/
  trips : σ → List UInt8 → α → Prop
  /-- These steps panic and no others do. -/
  panicked_iff : ∀ (s : σ) (broken : Bool) (input : List UInt8) (a : α) (s' : σ) (e : Effect ο),
    step s broken input a = some (s', e) → (panicked s' = true ↔ trips s input a)

/-- A handler and the bytes under way to it. -/
structure Exposed (σ : Type) where
  /-- The handler. -/
  handler : σ
  /-- Put on the stream by the peer and not yet read. -/
  input : List UInt8
  /-- The stream is broken. -/
  broken : Bool

/-- A handler on a new stream. -/
def Exposed.start (s : σ) : Exposed σ := ⟨s, [], false⟩

/-- What can happen to a handler. -/
inductive ExposedAct (α : Type)
  /-- The peer puts bytes on the stream. -/
  | put (bs : List UInt8)
  /-- The stream breaks; so many of the bytes under way will still arrive. -/
  | brk (n : ℕ)
  /-- The handler makes a step. -/
  | step (a : α)

namespace Handler

variable (H : Handler σ α ο)

/-- One step; what is observed is the effect of a step of the handler. -/
def exposedStep (x : Exposed σ) : ExposedAct α → Option (Exposed σ × Option (Effect ο))
  | .put bs => if x.broken then none else some ({ x with input := x.input ++ bs }, none)
  | .brk n => some ({ x with input := x.input.take n, broken := true }, none)
  | .step a =>
    (H.step x.handler x.broken x.input a).map fun r =>
      ({ x with handler := r.1, input := r.2.input }, some r.2)

/-- The handler and its peer as a machine. -/
def machine : Machine (Exposed σ) (ExposedAct α) (Option (Effect ο)) := ⟨H.exposedStep⟩

/-- A recorded run. -/
abbrev Trace (_ : Handler σ α ο) := List (Event (Exposed σ) (ExposedAct α) (Option (Effect ο)))

/-- At no moment of the run has the handler panicked. -/
def NeverPanics (s : σ) (tr : H.Trace) : Prop :=
  H.machine.Always (.start s) (fun _ x => H.panicked x.handler = false) tr

/-- The step is one of those that panic. -/
def TripsAt (e : Event (Exposed σ) (ExposedAct α) (Option (Effect ο))) : Prop :=
  ∃ a, e.act = .step a ∧ H.trips e.pre.handler e.pre.input a

variable {H}

/-- One step. -/
theorem panicked_of_step {x x' : Exposed σ} {a : ExposedAct α} {o : Option (Effect ο)}
    (h : H.machine.step x a = some (x', o)) (hx : H.panicked x.handler = false) :
    H.panicked x'.handler = false ↔ ¬ H.TripsAt ⟨x, a, o, x'⟩ := by
  cases a with
  | put bs =>
    have hsame : x'.handler = x.handler := by
      replace h : (if x.broken then none else some _) = some (x', o) := h
      split at h
      · cases h
      · obtain ⟨rfl, -⟩ := Machine.next_inj h
        rfl
    rw [hsame]
    exact ⟨fun _ ⟨a, ha, _⟩ => (by cases ha), fun _ => hx⟩
  | brk n =>
    obtain ⟨rfl, -⟩ := Machine.next_inj h
    exact ⟨fun _ ⟨a, ha, _⟩ => (by cases ha), fun _ => hx⟩
  | step a =>
    obtain ⟨⟨s', e⟩, hstep, heq⟩ := Option.map_eq_some_iff.mp h
    obtain ⟨rfl, rfl⟩ := Prod.mk.inj heq
    have hiff := H.panicked_iff _ _ _ _ _ _ hstep
    rw [← Bool.not_eq_true, hiff, not_iff_not]
    constructor
    · exact fun ht => ⟨a, rfl, ht⟩
    · rintro ⟨a', ha, ht⟩
      obtain rfl := ExposedAct.step.inj ha
      exact ht

/-- **When a handler panics nowhere**: when it makes no step that panics. -/
theorem neverPanics_iff_of_run {s : σ} {tr : H.Trace} {x : Exposed σ}
    (hs : H.panicked s = false) (h : H.machine.Run (.start s) tr x) :
    H.NeverPanics s tr ↔ ∀ e ∈ tr, ¬ H.TripsAt e :=
  Machine.Run.always_iff (Q := fun _ => True) hs
    (fun _ _ _ _ _ _ _ _ hx hstep => panicked_of_step hstep hx) h fun _ _ => trivial

/-- The states reached show whether the handler panicked. -/
theorem neverPanics_iff_states {s : σ} {tr : H.Trace} {x : Exposed σ}
    (hs : H.panicked s = false) (h : H.machine.Run (.start s) tr x) :
    H.NeverPanics s tr ↔ ∀ e ∈ tr, H.panicked e.post.handler = false := by
  rw [NeverPanics, h.always_state_iff]
  exact and_iff_right hs

end Handler

end ObfsWs
