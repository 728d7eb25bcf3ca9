import Mathlib.Data.List.Basic
import Mathlib.Data.List.Infix
import Mathlib.Order.WellFounded

/-!
# Machines and their runs

A machine is a partial step function: an action is enabled in a state or it is not, and when it
is, it leads to exactly one next state with exactly one observable outcome. All nondeterminism
(schedules, the environment, the arguments of calls) sits in the choice of the actions.

A run records, for each step, the states before and after it, the action and the outcome.
Histories are then functions of the recorded list, and the state itself carries no ghost fields.

## Why the step function is partial

An action that is not enabled has no next state: it cannot be taken, and no run contains it. This
is not an error. A system that fails has an action for failing, with its own outcome and its own
next state, and a system that panics has a state for having panicked. So every statement about
runs speaks about steps that the system can take, and a statement that something can always go on
has to produce an enabled action.

The step function is a function because the statements about single steps are then equations, and
because runs on fixed inputs can be computed. A relation would have to be inverted first. What a
relation would be used for, the case analysis on what a step can be, is a separate inductive type
in every instance, proved to hold of each step once.

## Main definitions

* `Machine`, `Event`, `Machine.Run` — machines, recorded steps, recorded runs
* `Machine.Always` — a property of every moment of a run
* `Machine.exec` — running a list of actions, for concrete runs

## Main results

* `Machine.Run.induct` — what every step keeps holds after every run
* `Machine.Run.always_state_iff` — a property of states at every moment of a run
* `Machine.Run.always_iff` — the exactness rule: when one step keeps a property exactly under a
  condition on that step, a run has the property at every moment exactly when all its steps meet
  the condition
* `Machine.Run.always_iff_history` — the same for a condition on a step and the run before it
* `Machine.Run.exists_goal` — the progress rule: what can be brought nearer step by step can be
  reached
* `Machine.Run.map` — a run seen through maps is a run
* `Machine.run_of_mem_exec` — executed actions form a run
* `Machine.Simulation.run` — a step simulation lifts to runs

## How the rules are used

An invariant is a predicate on states and the steps before them, kept by `snoc`. When a statement
is about the state alone, `Run.invariant` is enough; when it relates a state to what was observed
on the way, `Run.induct` carries the recorded steps along.

`Run.always_iff` is for systems that do not have the property they should have. It does not ask
what goes wrong in the whole run but what goes wrong in one step from a moment at which nothing
has gone wrong yet, and the answer is then exact for runs of any length. The version with
histories is for conditions that no single step shows, as "this is the first step of its kind".

`Run.exists_goal` is for progress. It says that a goal can be reached by steps of some kind, not
that every schedule reaches it. Where every schedule does, that is a bound on the length of the
runs which consist of such steps, and is proved by `Run.induct`.

## Implementation notes

Runs grow at their end. Histories are folds over the recorded steps, so appending one step appends
to every history, and an invariant that relates histories to the state is kept by reading one
step. `exec` grows at its beginning, because it is there to be computed; `run_of_mem_exec` turns
what it computes into a run.
-/

namespace ObfsWs

/-- What each action does from each state, when it is enabled. -/
structure Machine (σ α ω : Type) where
  /-- The next state and the outcome, `none` when the action is not enabled. -/
  step : σ → α → Option (σ × ω)

/-- One recorded step. -/
structure Event (σ α ω : Type) where
  /-- The state the step started from. -/
  pre : σ
  /-- The action taken. -/
  act : α
  /-- What was observed. -/
  out : ω
  /-- The state the step led to. -/
  post : σ

/-- A recorded step, seen through maps of its parts. -/
def Event.map {σ σ' α α' ω ω' : Type} (f : σ → σ') (g : α → α') (k : ω → ω') (e : Event σ α ω) :
    Event σ' α' ω' :=
  ⟨f e.pre, g e.act, k e.out, f e.post⟩

namespace Machine

variable {σ α ω : Type} {M : Machine σ α ω}

/-- What a step leads to is determined. -/
theorem next_inj {s t : σ} {o p : ω} (h : some (s, o) = some (t, p)) : s = t ∧ o = p :=
  Prod.mk.inj (Option.some.inj h)

/-- `M.Run s tr t`: the recorded steps `tr` lead from `s` to `t`. -/
inductive Run (M : Machine σ α ω) (s : σ) : List (Event σ α ω) → σ → Prop
  | nil : Run M s [] s
  | snoc {tr t a t' o} : Run M s tr t → M.step t a = some (t', o) →
      Run M s (tr ++ [⟨t, a, o, t'⟩]) t'

theorem Run.single {s t : σ} {a : α} {o : ω} (h : M.step s a = some (t, o)) :
    M.Run s [⟨s, a, o, t⟩] t :=
  (Run.nil : M.Run s [] s).snoc h

theorem exists_run_single {s t : σ} {a : α} {o : ω} (h : M.step s a = some (t, o)) :
    ∃ tr, M.Run s tr t ∧ tr.map Event.act = [a] :=
  ⟨_, .single h, rfl⟩

theorem Run.append {s t u : σ} {tr₁ tr₂ : List (Event σ α ω)} (h₁ : M.Run s tr₁ t)
    (h₂ : M.Run t tr₂ u) : M.Run s (tr₁ ++ tr₂) u := by
  induction h₂ with
  | nil => simpa using h₁
  | snoc _ hstep ih => rw [← List.append_assoc]; exact ih.snoc hstep

/-- A run of one more step is a run and a step. -/
theorem Run.snoc_inv {s u : σ} {tr : List (Event σ α ω)} {e : Event σ α ω}
    (h : M.Run s (tr ++ [e]) u) :
    M.Run s tr e.pre ∧ M.step e.pre e.act = some (u, e.out) ∧ e.post = u := by
  generalize hl : tr ++ [e] = l at h
  cases h with
  | nil => simp at hl
  | snoc hrun hstep =>
    obtain ⟨rfl, he⟩ := List.append_inj' hl rfl
    obtain rfl := List.singleton_inj.mp he
    exact ⟨hrun, hstep, rfl⟩

/-- The run before one of its steps. -/
theorem Run.before {s t : σ} {tr₁ tr₂ : List (Event σ α ω)} {e : Event σ α ω}
    (h : M.Run s (tr₁ ++ e :: tr₂) t) : M.Run s tr₁ e.pre := by
  induction tr₂ using List.reverseRecOn generalizing t with
  | nil => exact h.snoc_inv.1
  | append_singleton tr₂ e' ih =>
    rw [← List.cons_append, ← List.append_assoc] at h
    exact ih h.snoc_inv.1

/-- One of the steps of a run, and the run after it. -/
theorem Run.after {s t : σ} {tr₁ tr₂ : List (Event σ α ω)} {e : Event σ α ω}
    (h : M.Run s (tr₁ ++ e :: tr₂) t) :
    M.step e.pre e.act = some (e.post, e.out) ∧ M.Run e.post tr₂ t := by
  induction tr₂ using List.reverseRecOn generalizing t with
  | nil =>
    obtain ⟨-, hstep, rfl⟩ := h.snoc_inv
    exact ⟨hstep, .nil⟩
  | append_singleton tr₂ e' ih =>
    rw [← List.cons_append, ← List.append_assoc] at h
    obtain ⟨hrun, hstep, rfl⟩ := h.snoc_inv
    obtain ⟨he, hrest⟩ := ih hrun
    exact ⟨he, hrest.snoc hstep⟩

/-- A run ends in one state only. -/
theorem Run.end_unique {s t t' : σ} {tr : List (Event σ α ω)} (h : M.Run s tr t)
    (h' : M.Run s tr t') : t = t' := by
  cases h with
  | nil =>
    generalize hl : ([] : List (Event σ α ω)) = l at h'
    cases h' with
    | nil => rfl
    | snoc => simp at hl
  | snoc => exact h'.snoc_inv.2.2

/-- **Induction over runs.** `I` may speak about the whole history; a step may use that its start
was reached by a run. -/
theorem Run.induct {s t : σ} {tr : List (Event σ α ω)} (I : List (Event σ α ω) → σ → Prop)
    (h0 : I [] s)
    (hstep : ∀ tr t a t' o, M.Run s tr t → I tr t → M.step t a = some (t', o) →
      I (tr ++ [⟨t, a, o, t'⟩]) t')
    (h : M.Run s tr t) : I tr t := by
  induction h with
  | nil => exact h0
  | snoc hrun hs ih => exact hstep _ _ _ _ _ hrun ih hs

/-- **The invariant rule.** -/
theorem Run.invariant {s t : σ} {tr : List (Event σ α ω)} (I : σ → Prop) (h0 : I s)
    (hstep : ∀ t a t' o, I t → M.step t a = some (t', o) → I t') (h : M.Run s tr t) : I t :=
  h.induct (fun _ => I) h0 fun _ _ _ _ _ _ hi hs => hstep _ _ _ _ hi hs

/-- The invariant rule for runs whose steps all satisfy `Q`. -/
theorem Run.invariant_of {s t : σ} {tr : List (Event σ α ω)} {Q : Event σ α ω → Prop}
    (I : σ → Prop) (h0 : I s)
    (hstep : ∀ t a t' o, I t → Q ⟨t, a, o, t'⟩ → M.step t a = some (t', o) → I t')
    (h : M.Run s tr t) (hQ : ∀ e ∈ tr, Q e) : I t := by
  refine h.induct (fun tr t => (∀ e ∈ tr, Q e) → I t) (fun _ => h0) ?_ hQ
  intro tr t a t' o _ ih hs hQ
  have hQtr : ∀ e ∈ tr, Q e := fun e he => hQ e (List.mem_append_left _ he)
  have hQe : Q ⟨t, a, o, t'⟩ := hQ _ (List.mem_append_right _ (List.mem_singleton_self _))
  exact hstep t a t' o (ih hQtr) hQe hs

/-- `P` holds at every moment of the run: of every initial part of it and the state reached
there. -/
def Always (M : Machine σ α ω) (s : σ) (P : List (Event σ α ω) → σ → Prop)
    (tr : List (Event σ α ω)) : Prop :=
  ∀ tr₁ t₁, tr₁ <+: tr → M.Run s tr₁ t₁ → P tr₁ t₁

theorem Always.of_append {s : σ} {P : List (Event σ α ω) → σ → Prop}
    {tr₁ tr₂ : List (Event σ α ω)} (h : M.Always s P (tr₁ ++ tr₂)) : M.Always s P tr₁ :=
  fun tr t hp hr => h tr t (hp.trans (List.prefix_append tr₁ tr₂)) hr

theorem Always.last {s t : σ} {P : List (Event σ α ω) → σ → Prop} {tr : List (Event σ α ω)}
    (h : M.Always s P tr) (hr : M.Run s tr t) : P tr t :=
  h tr t List.prefix_rfl hr

/-- One more moment. -/
theorem Run.always_snoc_iff {s t t' : σ} {P : List (Event σ α ω) → σ → Prop}
    {tr : List (Event σ α ω)} {a : α} {o : ω} (hr : M.Run s tr t)
    (hs : M.step t a = some (t', o)) :
    M.Always s P (tr ++ [⟨t, a, o, t'⟩]) ↔ M.Always s P tr ∧ P (tr ++ [⟨t, a, o, t'⟩]) t' := by
  constructor
  · exact fun h => ⟨h.of_append, h.last (hr.snoc hs)⟩
  · rintro ⟨h, hlast⟩ tr₁ t₁ hp hr₁
    rcases List.prefix_concat_iff.mp (by simpa using hp) with rfl | hp'
    · rwa [hr₁.end_unique (hr.snoc hs)]
    · exact h tr₁ t₁ hp' hr₁

/-- For a property of states: every state reached has it. -/
theorem Run.always_state_iff {s t : σ} {P : σ → Prop} {tr : List (Event σ α ω)} (h : M.Run s tr t) :
    M.Always s (fun _ => P) tr ↔ P s ∧ ∀ e ∈ tr, P e.post := by
  induction h with
  | nil =>
    constructor
    · exact fun h => ⟨h.last .nil, fun _ he => absurd he List.not_mem_nil⟩
    · rintro ⟨hs, -⟩ tr₁ t₁ hp hr
      obtain rfl := List.prefix_nil.mp hp
      rwa [hr.end_unique .nil]
  | snoc hr hs ih =>
    rw [hr.always_snoc_iff hs, ih, and_assoc, List.forall_mem_append, List.forall_mem_singleton]

/-- **The exactness rule.** Among runs whose steps all satisfy `Q`: if a step from a moment where
`P` holds leads to one where `P` holds exactly when the step satisfies `C`, then `P` holds at
every moment of a run exactly when all its steps satisfy `C`. -/
theorem Run.always_iff {s t : σ} {tr : List (Event σ α ω)} {P : List (Event σ α ω) → σ → Prop}
    {Q C : Event σ α ω → Prop} (h0 : P [] s)
    (hstep : ∀ tr t a t' o, M.Run s tr t → (∀ e ∈ tr, Q e) → Q ⟨t, a, o, t'⟩ → P tr t →
      M.step t a = some (t', o) → (P (tr ++ [⟨t, a, o, t'⟩]) t' ↔ C ⟨t, a, o, t'⟩))
    (h : M.Run s tr t) (hQ : ∀ e ∈ tr, Q e) : M.Always s P tr ↔ ∀ e ∈ tr, C e := by
  induction h with
  | nil =>
    refine ⟨fun _ _ he => absurd he List.not_mem_nil, fun _ tr₁ t₁ hp hr => ?_⟩
    obtain rfl := List.prefix_nil.mp hp
    rwa [hr.end_unique .nil]
  | @snoc tr t a t' o hr hs ih =>
    have hQtr : ∀ e ∈ tr, Q e := fun e he => hQ e (List.mem_append_left _ he)
    have hQe : Q ⟨t, a, o, t'⟩ := hQ _ (List.mem_append_right _ (List.mem_singleton_self _))
    rw [hr.always_snoc_iff hs, ih hQtr]
    constructor
    · rintro ⟨hC, hP⟩ e he
      rcases List.mem_append.mp he with he | he
      · exact hC e he
      · obtain rfl := List.mem_singleton.mp he
        exact (hstep _ _ _ _ _ hr hQtr hQe (((ih hQtr).mpr hC).last hr) hs).mp hP
    · intro hC
      have hCtr : ∀ e ∈ tr, C e := fun e he => hC e (List.mem_append_left _ he)
      refine ⟨hCtr, (hstep _ _ _ _ _ hr hQtr hQe (((ih hQtr).mpr hCtr).last hr) hs).mpr ?_⟩
      exact hC _ (List.mem_append_right _ (List.mem_singleton_self _))

/-- **The exactness rule with histories.** As `Run.always_iff`, for a condition on a step that
may speak about the run before it. -/
theorem Run.always_iff_history {s t : σ} {tr : List (Event σ α ω)}
    {P : List (Event σ α ω) → σ → Prop} {C : List (Event σ α ω) → Event σ α ω → Prop}
    (h0 : P [] s)
    (hstep : ∀ tr t a t' o, M.Run s tr t → P tr t → M.step t a = some (t', o) →
      (P (tr ++ [⟨t, a, o, t'⟩]) t' ↔ C tr ⟨t, a, o, t'⟩))
    (h : M.Run s tr t) :
    M.Always s P tr ↔ ∀ tr₁ e tr₂, tr = tr₁ ++ e :: tr₂ → C tr₁ e := by
  induction h with
  | nil =>
    refine ⟨fun _ tr₁ e tr₂ he => by simp at he, fun _ tr₁ t₁ hp hr => ?_⟩
    obtain rfl := List.prefix_nil.mp hp
    rwa [hr.end_unique .nil]
  | @snoc tr t a t' o hr hs ih =>
    rw [hr.always_snoc_iff hs, ih]
    constructor
    · rintro ⟨hC, hP⟩ tr₁ e tr₂ he
      rcases List.eq_nil_or_concat tr₂ with rfl | ⟨tr₂, e', rfl⟩
      · obtain ⟨rfl, hlast⟩ := List.append_inj' he rfl
        obtain rfl := List.singleton_inj.mp hlast
        exact (hstep _ _ _ _ _ hr ((ih.mpr hC).last hr) hs).mp hP
      · rw [List.concat_eq_append, ← List.cons_append, ← List.append_assoc] at he
        exact hC _ _ _ (List.append_inj' he rfl).1
    · intro hC
      have hCtr : ∀ tr₁ e tr₂, tr = tr₁ ++ e :: tr₂ → C tr₁ e := by
        rintro tr₁ e tr₂ rfl
        exact hC tr₁ e (tr₂ ++ [⟨t, a, o, t'⟩]) (by simp)
      exact ⟨hCtr, (hstep _ _ _ _ _ hr ((ih.mpr hCtr).last hr) hs).mpr (hC tr _ [] rfl)⟩

/-! ### Progress -/

/-- **The progress rule.** If from every moment where `I` holds and which is not the goal `G` some
step that satisfies `Q` keeps `I` and lowers the rank, then a run goes on to the goal by such
steps. -/
theorem Run.exists_goal {β : Type} [Preorder β] [WellFoundedLT β] {s t : σ}
    {tr : List (Event σ α ω)} {I : List (Event σ α ω) → σ → Prop} {Q : Event σ α ω → Prop}
    {G : σ → Prop} (rank : σ → β)
    (hprog : ∀ tr t, M.Run s tr t → I tr t → ¬ G t → ∃ a t' o, M.step t a = some (t', o) ∧
      Q ⟨t, a, o, t'⟩ ∧ I (tr ++ [⟨t, a, o, t'⟩]) t' ∧ rank t' < rank t)
    (h : M.Run s tr t) (hI : I tr t) :
    ∃ tr' t', M.Run t tr' t' ∧ (∀ e ∈ tr', Q e) ∧ I (tr ++ tr') t' ∧ G t' := by
  induction hn : rank t using WellFoundedLT.induction generalizing tr t with
  | ind n ih =>
    by_cases hG : G t
    · exact ⟨[], t, .nil, fun _ he => absurd he List.not_mem_nil, by rwa [List.append_nil], hG⟩
    · obtain ⟨a, t', o, hs, hQ, hI', hlt⟩ := hprog tr t h hI hG
      obtain ⟨tr', t'', hrun, hQ', hI'', hG'⟩ := ih _ (hn ▸ hlt) (h.snoc hs) hI' rfl
      refine ⟨⟨t, a, o, t'⟩ :: tr', t'', (Run.single hs).append hrun, ?_, ?_, hG'⟩
      · rintro e (_ | ⟨_, he⟩)
        · exact hQ
        · exact hQ' e he
      · rwa [List.append_assoc] at hI''

/-! ### Seen through a map -/

/-- When each step is a step of another machine, seen through maps, so is each run. -/
theorem Run.map {σ' α' ω' : Type} {N : Machine σ' α' ω'} {f : σ → σ'} {g : α → α'} {k : ω → ω'}
    (hstep : ∀ s a t o, M.step s a = some (t, o) → N.step (f s) (g a) = some (f t, k o))
    {s t : σ} {tr : List (Event σ α ω)} (h : M.Run s tr t) :
    N.Run (f s) (tr.map (Event.map f g k)) (f t) := by
  induction h with
  | nil => exact .nil
  | snoc _ hs ih =>
    rw [List.map_append]
    exact ih.snoc (hstep _ _ _ _ hs)

/-! ### Executing a list of actions -/

/-- Run the actions in order, recording each step; `none` as soon as one is not enabled. -/
def exec (M : Machine σ α ω) : σ → List α → Option (List (Event σ α ω) × σ)
  | s, [] => some ([], s)
  | s, a :: as =>
    match M.step s a with
    | none => none
    | some (t, o) => (M.exec t as).map fun r => (⟨s, a, o, t⟩ :: r.1, r.2)

/-- Executing one more action. -/
theorem exec_cons {s : σ} {a : α} {as : List α} {r : List (Event σ α ω) × σ}
    (h : r ∈ M.exec s (a :: as)) :
    ∃ t o, M.step s a = some (t, o) ∧
      ∃ r' ∈ M.exec t as, r = (⟨s, a, o, t⟩ :: r'.1, r'.2) := by
  simp only [exec] at h
  cases hs : M.step s a with
  | none => simp [hs] at h
  | some p =>
    obtain ⟨t, o⟩ := p
    simp only [hs, Option.mem_def, Option.map_eq_some_iff] at h
    obtain ⟨r', hr', rfl⟩ := h
    exact ⟨t, o, rfl, r', hr', rfl⟩

theorem run_of_mem_exec {s : σ} {as : List α} {r : List (Event σ α ω) × σ}
    (h : r ∈ M.exec s as) : M.Run s r.1 r.2 := by
  induction as generalizing s r with
  | nil =>
    obtain rfl : ([], s) = r := by simpa [exec] using h
    exact .nil
  | cons a as ih =>
    obtain ⟨t, o, hs, r', hr', rfl⟩ := exec_cons h
    exact (Run.single hs).append (ih hr')

theorem acts_of_mem_exec {s : σ} {as : List α} {r : List (Event σ α ω) × σ}
    (h : r ∈ M.exec s as) : r.1.map Event.act = as := by
  induction as generalizing s r with
  | nil =>
    obtain rfl : ([], s) = r := by simpa [exec] using h
    rfl
  | cons a as ih =>
    obtain ⟨t, o, -, r', hr', rfl⟩ := exec_cons h
    rw [List.map_cons, ih hr']

/-- A run exhibited by executing concrete actions. -/
theorem exists_run_of_exec (M : Machine σ α ω) (s : σ) (as : List α)
    {P : List (Event σ α ω) → σ → Prop} (h : ∃ r ∈ M.exec s as, P r.1 r.2) :
    ∃ tr t, M.Run s tr t ∧ tr.map Event.act = as ∧ P tr t := by
  obtain ⟨r, hr, hP⟩ := h
  exact ⟨r.1, r.2, run_of_mem_exec hr, acts_of_mem_exec hr, hP⟩

/-- Two runs, one after the other. -/
theorem exists_runs_of_exec (M : Machine σ α ω) (s : σ) (as bs : List α)
    {P : List (Event σ α ω) → σ → List (Event σ α ω) → σ → Prop}
    (h : ∃ r ∈ M.exec s as, ∃ r' ∈ M.exec r.2 bs, P r.1 r.2 r'.1 r'.2) :
    ∃ tr t tr' t', M.Run s tr t ∧ M.Run t tr' t' ∧ P tr t tr' t' := by
  obtain ⟨r, hr, r', hr', hP⟩ := h
  exact ⟨r.1, r.2, r'.1, r'.2, run_of_mem_exec hr, run_of_mem_exec hr', hP⟩

/-! ### Simulation -/

/-- A simulation of the steps of `M` by runs of `N`: related states stay related when a step of
`M` is matched by the run of `N` whose actions are `label` of the recorded step. -/
structure Simulation {σ' α' ω' : Type} (M : Machine σ α ω) (N : Machine σ' α' ω') where
  /-- The relation between the states. -/
  rel : σ → σ' → Prop
  /-- The abstract actions one concrete step stands for. -/
  label : Event σ α ω → List α'
  /-- Which concrete steps are covered. -/
  covers : Event σ α ω → Prop
  /-- One step. -/
  step : ∀ s t a s' o, rel s t → covers ⟨s, a, o, s'⟩ → M.step s a = some (s', o) →
    ∃ tr t', N.Run t tr t' ∧ tr.map Event.act = label ⟨s, a, o, s'⟩ ∧ rel s' t'

/-- A step simulation lifts to runs. -/
theorem Simulation.run {σ' α' ω' : Type} {N : Machine σ' α' ω'} (S : Simulation M N) {s s' : σ}
    {t : σ'} {tr : List (Event σ α ω)} (h0 : S.rel s t) (h : M.Run s tr s')
    (hc : ∀ e ∈ tr, S.covers e) :
    ∃ tr' t', N.Run t tr' t' ∧ tr'.map Event.act = tr.flatMap S.label ∧ S.rel s' t' := by
  induction h with
  | nil => exact ⟨[], t, .nil, rfl, h0⟩
  | snoc _ hs ih =>
    obtain ⟨tr₁, t₁, hr₁, hl₁, hrel₁⟩ := ih fun e he => hc e (List.mem_append_left _ he)
    have hcov := hc _ (List.mem_append_right _ (List.mem_singleton_self _))
    obtain ⟨tr₂, t₂, hr₂, hl₂, hrel₂⟩ := S.step _ _ _ _ _ hrel₁ hcov hs
    exact ⟨tr₁ ++ tr₂, t₂, hr₁.append hr₂, by simp [hl₁, hl₂], hrel₂⟩

end Machine

end ObfsWs
