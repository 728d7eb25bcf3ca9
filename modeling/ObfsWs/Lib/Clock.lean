import ObfsWs.Lib.Machine

/-!
# Tasks with a clock

A task reads a clock, and others act on the state it works on. Where it stands it stays for some
time at least, as in a timer, and for some time at most, as a task that can go on is scheduled in
bounded time. What the others do leaves it where it stands.

The clock goes on by any amount as long as the task does not become overdue. So the bounds on the
scheduler are data of the task, and what is proved about its runs holds for every scheduler that
keeps them.

## Time as an action

The clock is a number and passing of time is an action like any other, with the amount as its
argument. It is enabled as long as the task is not overdue afterwards. So a run in which the clock
stands still for ever is a run, and a run in which the task is late by more than it may is not
one. A statement about runs of `TimedTask.machine` therefore holds under the assumption on the
scheduler that `most` expresses and under no other, and a statement that something has happened by
some time says so by reading the clock of the last state.

`most` is `none` for a task at rest: it waits for others, and any amount of time may pass. `least`
is what a timer needs: the task cannot go on before.

## Main definitions

* `TimedTask`, `TimedTask.machine` — a task with its clock
* `TimedTask.OnTime` — it has not been where it stands for longer than it may
* `TimedTask.Bound` — a bound on the time that is left until a step of some kind

## Main results

* `TimedTask.Bound.recurs` — the bounded recurrence rule: at every moment of a run, the time since
  the last step of that kind, or since the beginning, is within the bound

## The bounded recurrence rule

A bound on the time until something happens is found by giving every position of the task the time
that it takes from there at most, the sum of the stays that are still to come. `Bound` asks for
this function and for what one step has to do with it; that a run keeps it is proved once. The
good steps start the count anew. So the rule bounds the distance between two good steps and not
only the time until the first.

Units are those of the instance.
-/

namespace ObfsWs

/-- A task, those who act on its state, and how long it stays where it stands. -/
structure TimedTask (σ α ω : Type) where
  /-- What each action does at a time, when it is enabled. -/
  step : ℕ → σ → α → Option (σ × ω)
  /-- The action is one of the task, not of the others. -/
  own : α → Bool
  /-- How long it stays at least. -/
  least : σ → ℕ
  /-- How long it stays at most, `none` when it is at rest. -/
  most : σ → Option ℕ
  /-- The others leave it where it stands. -/
  most_other : ∀ {now x a x' o}, step now x a = some (x', o) → own a = false → most x' = most x

/-- A state with the time, and since when the task stands where it does. -/
structure Timed (σ : Type) where
  now : ℕ
  since : ℕ
  state : σ

/-- Time passes, or something is done. -/
inductive ClockAct (α : Type)
  | tick (d : ℕ)
  | act (a : α)
  deriving DecidableEq

/-- The time that passes. -/
def ClockAct.passes {α : Type} : ClockAct α → ℕ
  | .tick d => d
  | .act _ => 0

namespace TimedTask

variable {σ α ω : Type} (T : TimedTask σ α ω)

/-- A recorded step of a task with its clock. -/
abbrev Recorded (σ α ω : Type) := Event (Timed σ) (ClockAct α) (Option ω)

/-- The task with its clock. -/
def machine : Machine (Timed σ) (ClockAct α) (Option ω) where
  step s
    | .tick d =>
      if (T.most s.state).all fun m => s.now + d ≤ s.since + m then
        some ({ s with now := s.now + d }, none)
      else none
    | .act a =>
      if T.own a = false ∨ s.since + T.least s.state ≤ s.now then
        (T.step s.now s.state a).map fun r =>
          (⟨s.now, if T.own a then s.now else s.since, r.1⟩, some r.2)
      else none

/-- What a step can be. -/
inductive Rule (s : Timed σ) : ClockAct α → Option ω → Timed σ → Prop
  | tick {d : ℕ} : (∀ m, T.most s.state = some m → s.now + d ≤ s.since + m) →
      Rule s (.tick d) none ⟨s.now + d, s.since, s.state⟩
  | own {a : α} {x : σ} {o : ω} : T.own a = true → s.since + T.least s.state ≤ s.now →
      T.step s.now s.state a = some (x, o) → Rule s (.act a) (some o) ⟨s.now, s.now, x⟩
  | other {a : α} {x : σ} {o : ω} : T.own a = false → T.step s.now s.state a = some (x, o) →
      Rule s (.act a) (some o) ⟨s.now, s.since, x⟩

variable {T} {s t : Timed σ} {c : ClockAct α} {o : Option ω} {tr : List (Recorded σ α ω)}

theorem rule_of_step (h : T.machine.step s c = some (t, o)) : T.Rule s c o t := by
  cases c with
  | tick d =>
    simp only [machine] at h
    split at h
    · rename_i hall
      obtain ⟨rfl, rfl⟩ := Machine.next_inj h
      refine .tick fun m hm => ?_
      rw [hm] at hall
      exact of_decide_eq_true hall
    · cases h
  | act a =>
    simp only [machine] at h
    split at h
    · rename_i hready
      obtain ⟨⟨x, p⟩, hstep, heq⟩ := Option.map_eq_some_iff.mp h
      obtain ⟨rfl, rfl⟩ := Prod.mk.inj heq
      cases hown : T.own a with
      | true =>
        refine .own hown ?_ hstep
        exact hready.resolve_left (by simp [hown])
      | false => exact .other hown hstep
    · cases h

/-- What is done when the clock is left out. -/
theorem step_of_act {a : α} (h : T.machine.step s (.act a) = some (t, o)) :
    ∃ p, o = some p ∧ T.step s.now s.state a = some (t.state, p) := by
  cases rule_of_step h with
  | own _ _ hstep | other _ hstep => exact ⟨_, rfl, hstep⟩

/-- Time passes for the clock only. -/
theorem state_of_tick {d : ℕ} (h : T.machine.step s (.tick d) = some (t, o)) :
    t.state = s.state ∧ o = none := by
  cases rule_of_step h with
  | tick => exact ⟨rfl, rfl⟩

theorem now_of_step (h : T.machine.step s c = some (t, o)) : t.now = s.now + c.passes := by
  cases rule_of_step h with
  | tick | own | other => rfl

/-- The task goes on. -/
theorem step_own {a : α} {x : σ} {p : ω} (hown : T.own a = true)
    (hready : s.since + T.least s.state ≤ s.now) (hstep : T.step s.now s.state a = some (x, p)) :
    T.machine.step s (.act a) = some (⟨s.now, s.now, x⟩, some p) := by
  simp only [machine, hown, hready, or_true, if_true, hstep, Option.map_some]

/-- Time passes. -/
theorem step_tick {d : ℕ} (h : ∀ m, T.most s.state = some m → s.now + d ≤ s.since + m) :
    T.machine.step s (.tick d) = some (⟨s.now + d, s.since, s.state⟩, none) := by
  have hall : ((T.most s.state).all fun m => decide (s.now + d ≤ s.since + m)) = true := by
    rw [Option.all_eq_true]
    exact fun m hm => decide_eq_true (h m hm)
  simp only [machine, hall, if_true]

/-- The clock does not go back. -/
theorem now_le_of_step (h : T.machine.step s c = some (t, o)) : s.now ≤ t.now := by
  rw [now_of_step h]
  exact Nat.le_add_right _ _

/-! ### Being on time -/

/-- The task has not been where it stands for longer than it may. -/
structure OnTime (T : TimedTask σ α ω) (s : Timed σ) : Prop where
  since_le : s.since ≤ s.now
  now_le : ∀ {m}, T.most s.state = some m → s.now ≤ s.since + m

/-- It has just come to where it stands. -/
theorem onTime_start (now : ℕ) (x : σ) : T.OnTime ⟨now, now, x⟩ :=
  ⟨le_rfl, fun _ => Nat.le_add_right _ _⟩

theorem Rule.onTime (h : T.Rule s c o t) (hs : T.OnTime s) : T.OnTime t := by
  cases h with
  | tick hmost => exact ⟨hs.since_le.trans (Nat.le_add_right _ _), fun hm => hmost _ hm⟩
  | own => exact onTime_start _ _
  | other hown hstep =>
    refine ⟨hs.since_le, fun hm => hs.now_le ?_⟩
    rwa [← T.most_other hstep hown]

theorem onTime_of_run (h : T.machine.Run s tr t) (hs : T.OnTime s) : T.OnTime t :=
  h.invariant T.OnTime hs fun _ _ _ _ ht hstep => (rule_of_step hstep).onTime ht

/-! ### Bounded recurrence -/

/-- `left` bounds the time that is left until a step that satisfies `G` or until the task is at
rest, as long as all steps satisfy `Q`. -/
structure Bound (T : TimedTask σ α ω) (Q G : Recorded σ α ω → Prop) (left : σ → ℕ) : Prop where
  /-- It stays no longer than what is left. -/
  stay : ∀ {x m}, T.most x = some m → m ≤ left x
  /-- A task at rest stays at rest. -/
  rest : ∀ {now x a x' o}, T.step now x a = some (x', o) → T.most x = none → T.most x' = none
  /-- Each step of the task uses up the time it may have stayed. -/
  own : ∀ {s : Timed σ} {a x o m}, T.own a = true → T.step s.now s.state a = some (x, o) →
    Q ⟨s, .act a, some o, ⟨s.now, s.now, x⟩⟩ → T.most s.state = some m → T.most x ≠ none →
    G ⟨s, .act a, some o, ⟨s.now, s.now, x⟩⟩ ∨ m + left x ≤ left s.state
  /-- The others do not prolong it. -/
  other : ∀ {s : Timed σ} {a x o}, T.own a = false → T.step s.now s.state a = some (x, o) →
    Q ⟨s, .act a, some o, ⟨s.now, s.since, x⟩⟩ → left x ≤ left s.state

namespace Bound

variable {Q G : Recorded σ α ω → Prop} {left : σ → ℕ}

/-- The time that is left was counted from the beginning, or from the last step that satisfies
`G`. -/
def Counted (G : Recorded σ α ω → Prop) (left : σ → ℕ) (s : Timed σ) (tr : List (Recorded σ α ω))
    (t : Timed σ) : Prop :=
  t.since + left t.state ≤ s.since + left s.state ∨
    ∃ e ∈ tr, G e ∧ t.since + left t.state ≤ e.post.now + left e.post.state

theorem Counted.snoc {u : Timed σ} (h : Counted G left s tr t)
    (hle : u.since + left u.state ≤ t.since + left t.state) (e : Recorded σ α ω) :
    Counted G left s (tr ++ [e]) u := by
  rcases h with hfirst | ⟨f, hf, hG, hlast⟩
  · exact .inl (hle.trans hfirst)
  · exact .inr ⟨f, List.mem_append_left _ hf, hG, hle.trans hlast⟩

/-- One step. -/
theorem counted_of_rule (hb : T.Bound Q G left) (ht : T.OnTime t) {u : Timed σ}
    (h : T.Rule t c o u) (hQ : Q ⟨t, c, o, u⟩) (hu : T.most u.state ≠ none)
    (hc : Counted G left s tr t) : Counted G left s (tr ++ [⟨t, c, o, u⟩]) u := by
  cases h with
  | tick => exact hc.snoc le_rfl _
  | other hown hstep => exact hc.snoc (Nat.add_le_add_left (hb.other hown hstep hQ) _) _
  | @own a x p hown _ hstep =>
    cases hm : T.most t.state with
    | none => exact absurd (hb.rest hstep hm) hu
    | some m =>
      rcases hb.own hown hstep hQ hm hu with hG | hle
      · exact .inr ⟨_, List.mem_append_right _ (List.mem_singleton_self _), hG, le_rfl⟩
      · refine hc.snoc ?_ _
        have hnow := ht.now_le hm
        show t.now + left x ≤ t.since + left t.state
        omega

/-- **The bounded recurrence rule.** In a run whose steps satisfy `Q` and after which the task is
not at rest, the time that was left at the beginning has not passed, or there was a step that
satisfies `G` after which the time that was left then has not passed. -/
theorem recurs (hb : T.Bound Q G left) (hs : T.OnTime s) (h : T.machine.Run s tr t)
    (hQ : ∀ e ∈ tr, Q e) (ht : T.most t.state ≠ none) :
    t.now ≤ s.since + left s.state ∨ ∃ e ∈ tr, G e ∧ t.now ≤ e.post.now + left e.post.state := by
  have hcounted : Counted G left s tr t := by
    refine h.induct (fun tr t => (∀ e ∈ tr, Q e) → T.most t.state ≠ none → Counted G left s tr t)
      (fun _ _ => .inl le_rfl) ?_ hQ ht
    intro tr t c u o hrun ih hstep hQ hu
    have hrule := rule_of_step hstep
    have hbusy : T.most t.state ≠ none := by
      intro hrest
      cases hrule with
      | tick => exact hu hrest
      | own _ _ hown | other _ hown => exact hu (hb.rest hown hrest)
    have hQtr : ∀ e ∈ tr, Q e := fun e he => hQ e (List.mem_append_left _ he)
    exact hb.counted_of_rule (onTime_of_run hrun hs) hrule
      (hQ _ (List.mem_append_right _ (List.mem_singleton_self _))) hu (ih hQtr hbusy)
  obtain ⟨m, hm⟩ := Option.ne_none_iff_exists'.mp ht
  have hnow : t.now ≤ t.since + left t.state :=
    ((onTime_of_run h hs).now_le hm).trans (Nat.add_le_add_left (hb.stay hm) _)
  rcases hcounted with hfirst | ⟨e, he, hG, hlast⟩
  · exact .inl (hnow.trans hfirst)
  · exact .inr ⟨e, he, hG, hnow.trans hlast⟩

end Bound

end TimedTask

end ObfsWs
