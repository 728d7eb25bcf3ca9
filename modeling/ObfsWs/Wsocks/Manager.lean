import Mathlib.Data.Prod.Lex
import ObfsWs.Lib.Clock
import ObfsWs.Lib.Sync
import ObfsWs.Wsocks.Outlives

/-!
# The pipe manager of a session

`server_session_loop` spawns a manager that looks at the pipes of the mux about every second. It
removes the closed ones, notes the time when some are left, and declares the session dead when that
was more than 100 seconds ago.

Times are nanoseconds. That a task which can go on is scheduled within `lag`, and that a timer fires
no more than `lag` late, is the only assumption on the scheduler. The pipes close, come and go at
any moment, also between two steps of the manager.

## What is assumed

A mux keeps a collection of pipes, and others may change it at any moment: a pipe closes, a pipe
is added, a pipe is removed. `add_pipe` of the mux may evict a pipe when there are too many; that
is an addition and a removal. `retain` keeps the pipes that are not closed. A pipe that has been
closed stays closed.

The clock is monotonic. An await that can go on is polled within `lag`, and what the manager does
between two awaits takes no time. The send of the deadline is into an empty channel of one slot,
so it does not wait.

## The gap

The manager looks at the pipes once per turn: it removes, looks, notes the time, compares, and
sleeps. Between two looks at open pipes lies a second and the delays of five steps. `gap` is this
number, and it is why a stretch must be longer than that: a pipe that is open for a shorter time
may never be seen. `last_alive` is then at most `gap` old, so that the 100 seconds begin to run
with at most `gap` gone.

## Main definitions

* `MuxPipes` — the pipes of a mux, and what others do to them
* `Pipemgr`, `Pipemgr.task` — the manager
* `Watched.machine` — the manager and the tasks of its session

## Main results

* `Pipemgr.lastAlive_of_stretch` — while pipes are open the manager notices it again and again
* `Pipemgr.now_le_of_dark` — once no pipe is open the manager ends
* `Watched.kept` — a session is kept as long as its client has an open pipe
* `Watched.told` — a session without open pipes is declared dead in bounded time
* `Watched.goes_on` — the bounds on the scheduler can always be met

## Implementation notes

A turn of the manager is a path through six positions, and each bound is a function on positions:
what is left until something happens. `TimedTask.Bound` turns such a function into a statement
about runs. `goes_on` shows that the assumptions on the scheduler are not contradictory: from
every reachable state time can pass as far as one likes.
-/

namespace ObfsWs

/-- A second. -/
def second : ℕ := 1000000000

/-! ### The pipes of a mux

A pipe is here what `retain` can see of it. `peer_addr` is empty once the pipe's flag is set, and
the flag is never cleared, so a pipe is a Boolean that goes from true to false. Positions in the
list are used to say which pipe is meant, and by nothing else. -/

/-- The pipes of a mux: of each, whether its `peer_addr` is not empty, as it is until the pipe is
closed. -/
abbrev MuxPipes := List Bool

/-- What others do to the pipes of a mux. -/
inductive PipesAct
  /-- A pipe is closed. -/
  | close (i : ℕ)
  /-- `mux.add_pipe(pipe)`. -/
  | add (live : Bool)
  /-- The mux drops a pipe by itself. -/
  | remove (i : ℕ)
  deriving DecidableEq

namespace MuxPipes

/-- The pipes after that. -/
def after (ps : MuxPipes) : PipesAct → MuxPipes
  | .close i => ps.set i false
  | .add live => ps ++ [live]
  | .remove i => ps.eraseIdx i

/-- `mux.retain(|p| { p.peer_addr().len() > 0 })`. -/
def retain (ps : MuxPipes) : MuxPipes := ps.filter id

/-- Some pipe is open. -/
def Lit (ps : MuxPipes) : Prop := true ∈ ps

instance (ps : MuxPipes) : Decidable (Lit ps) := inferInstanceAs (Decidable (true ∈ ps))

theorem retain_eq_nil {ps : MuxPipes} (h : ¬ Lit ps) : retain ps = [] := by
  rw [retain, List.filter_eq_nil_iff]
  intro p hp hopen
  obtain rfl : p = true := hopen
  exact h hp

theorem Lit.length_pos {ps : MuxPipes} (h : Lit ps) : 0 < ps.length := List.length_pos_of_mem h

/-- Only a new pipe makes it light again. -/
theorem not_lit_after {ps : MuxPipes} {a : PipesAct} (h : ¬ Lit ps) (ha : ∀ live, a ≠ .add live) :
    ¬ Lit (after ps a) := by
  intro hlit
  cases a with
  | close i =>
    rcases List.mem_or_eq_of_mem_set hlit with hmem | heq
    · exact h hmem
    · cases heq
  | add live => exact ha live rfl
  | remove i => exact h (List.mem_of_mem_eraseIdx hlit)

end MuxPipes

/-! ### The manager

One turn of the manager is five steps, or four when it sees no pipe. Between any two of them the
pipes may change. The comparison with 100 seconds is strict. The source makes it on floating point
seconds and here it is on nanoseconds, which is the same: one nanosecond more than 100 seconds is
a larger floating point number. -/

/-- Where the manager stands. -/
inductive PipemgrPc
  /-- Before `mux.retain`. -/
  | retain
  /-- Before `mux.iter_pipes`. -/
  | iterPipes
  /-- It has seen a pipe. -/
  | seen
  /-- Before it looks at `last_alive`. -/
  | elapsed
  /-- In `Timer::after`. -/
  | timer
  /-- It has found the session dead, and sends. -/
  | notify
  | returned
  deriving DecidableEq

/-- `pipemgr_fut` of `server_session_loop`, with the pipes of the mux. -/
structure Pipemgr where
  pipes : MuxPipes
  lastAlive : ℕ
  pc : PipemgrPc

/-- The manager goes on, or something happens to the pipes. -/
inductive PipemgrAct
  | go
  | others (a : PipesAct)
  deriving DecidableEq

/-- What is observed of the manager. -/
inductive PipemgrOut
  | tau
  /-- It sets `last_alive`. -/
  | alive
  /-- It looks at `last_alive`. -/
  | checked (dead : Bool)
  /-- `deadline_tx.send(())`. -/
  | notified
  deriving DecidableEq

namespace Pipemgr

/-- One step. -/
def step (now : ℕ) (s : Pipemgr) : PipemgrAct → Option (Pipemgr × PipemgrOut)
  | .go =>
    match s.pc with
    | .retain => some ({ s with pipes := s.pipes.retain, pc := .iterPipes }, .tau)
    | .iterPipes => some ({ s with pc := if s.pipes.length > 0 then .seen else .elapsed }, .tau)
    | .seen => some ({ s with lastAlive := now, pc := .elapsed }, .alive)
    | .elapsed =>
      -- `as_secs_f64() > 100.0`
      let dead := decide (now - s.lastAlive > 100 * second)
      some ({ s with pc := if dead then .notify else .timer }, .checked dead)
    | .timer => some ({ s with pc := .retain }, .tau)
    | .notify => some ({ s with pc := .returned }, .notified)
    | .returned => none
  | .others a => some ({ s with pipes := s.pipes.after a }, .tau)

/-- The timer takes a second. -/
def least (s : Pipemgr) : ℕ := if s.pc = .timer then second else 0

/-- How long the manager stays where it stands, with a scheduler that may be late. -/
def stay (lag : ℕ) : PipemgrPc → Option ℕ
  | .timer => some (second + lag)
  | .returned => none
  | .retain | .iterPipes | .seen | .elapsed | .notify => some lag

/-- The manager with its clock. -/
def task (lag : ℕ) : TimedTask Pipemgr PipemgrAct PipemgrOut where
  step := step
  own a := a = .go
  least := least
  most s := stay lag s.pc
  most_other := by
    intro now s a s' o h hown
    cases a with
    | go => cases hown
    | others a =>
      obtain ⟨rfl, -⟩ := Machine.next_inj h
      rfl

/-- The manager at its start, `last_alive` being the time of it. -/
def start (now : ℕ) (pipes : MuxPipes) : Timed Pipemgr := ⟨now, now, ⟨pipes, now, .retain⟩⟩

/-- A recorded step. -/
abbrev PipemgrEvent := TimedTask.Recorded Pipemgr PipemgrAct PipemgrOut

/-- The recorded steps of a run. -/
abbrev Trace := List PipemgrEvent

variable {lag now : ℕ} {s s' : Pipemgr} {a : PipemgrAct} {o : PipemgrOut}

/-- What the manager does when it goes on. -/
inductive Go (now : ℕ) (s : Pipemgr) : Pipemgr → PipemgrOut → Prop
  | retain : s.pc = .retain → Go now s ⟨s.pipes.retain, s.lastAlive, .iterPipes⟩ .tau
  | found : s.pc = .iterPipes → s.pipes ≠ [] → Go now s ⟨s.pipes, s.lastAlive, .seen⟩ .tau
  | empty : s.pc = .iterPipes → s.pipes = [] → Go now s ⟨s.pipes, s.lastAlive, .elapsed⟩ .tau
  | alive : s.pc = .seen → Go now s ⟨s.pipes, now, .elapsed⟩ .alive
  | wait : s.pc = .elapsed → now ≤ s.lastAlive + 100 * second →
      Go now s ⟨s.pipes, s.lastAlive, .timer⟩ (.checked false)
  | dead : s.pc = .elapsed → s.lastAlive + 100 * second < now →
      Go now s ⟨s.pipes, s.lastAlive, .notify⟩ (.checked true)
  | timer : s.pc = .timer → Go now s ⟨s.pipes, s.lastAlive, .retain⟩ .tau
  | notified : s.pc = .notify → Go now s ⟨s.pipes, s.lastAlive, .returned⟩ .notified

theorem go_of_step (h : step now s .go = some (s', o)) : Go now s s' o := by
  simp only [step] at h
  split at h
  · rename_i hpc
    obtain ⟨rfl, rfl⟩ := Machine.next_inj h
    exact .retain hpc
  · rename_i hpc
    obtain ⟨rfl, rfl⟩ := Machine.next_inj h
    split
    · rename_i hpos
      exact .found hpc (List.length_pos_iff.mp hpos)
    · rename_i hzero
      exact .empty hpc (List.length_eq_zero_iff.mp (Nat.eq_zero_of_not_pos hzero))
  · rename_i hpc
    obtain ⟨rfl, rfl⟩ := Machine.next_inj h
    exact .alive hpc
  · rename_i hpc
    obtain ⟨rfl, rfl⟩ := Machine.next_inj h
    by_cases hdead : now - s.lastAlive > 100 * second
    · rw [decide_eq_true hdead]
      exact .dead hpc (by omega)
    · rw [decide_eq_false hdead]
      exact .wait hpc (by omega)
  · rename_i hpc
    obtain ⟨rfl, rfl⟩ := Machine.next_inj h
    exact .timer hpc
  · rename_i hpc
    obtain ⟨rfl, rfl⟩ := Machine.next_inj h
    exact .notified hpc
  · cases h

theorem eq_of_others {b : PipesAct} (h : step now s (.others b) = some (s', o)) :
    s' = ⟨s.pipes.after b, s.lastAlive, s.pc⟩ ∧ o = .tau := by
  obtain ⟨rfl, rfl⟩ := Machine.next_inj h
  exact ⟨rfl, rfl⟩

/-- What a step with the clock can be. -/
inductive Rule (lag : ℕ) (t : Timed Pipemgr) :
    ClockAct PipemgrAct → Option PipemgrOut → Timed Pipemgr → Prop
  | tick {d : ℕ} : Rule lag t (.tick d) none ⟨t.now + d, t.since, t.state⟩
  | go {s' : Pipemgr} {o : PipemgrOut} : Go t.now t.state s' o →
      Rule lag t (.act .go) (some o) ⟨t.now, t.now, s'⟩
  | others {b : PipesAct} : Rule lag t (.act (.others b)) (some .tau)
      ⟨t.now, t.since, ⟨t.state.pipes.after b, t.state.lastAlive, t.state.pc⟩⟩

theorem rule_of_step {t t' : Timed Pipemgr} {c : ClockAct PipemgrAct} {p : Option PipemgrOut}
    (h : (task lag).machine.step t c = some (t', p)) : Rule lag t c p t' := by
  cases TimedTask.rule_of_step h with
  | tick => exact .tick
  | @own a x o hown _ hstep =>
    obtain rfl : a = .go := of_decide_eq_true hown
    exact .go (go_of_step hstep)
  | @other a x o hown hstep =>
    cases a with
    | go => cases hown
    | others b =>
      replace hstep : step t.now t.state (.others b) = some (x, o) := hstep
      obtain ⟨rfl, rfl⟩ := eq_of_others hstep
      exact .others

/-- `last_alive` is a time of the past. -/
theorem Rule.lastAlive_le {t t' : Timed Pipemgr} {c : ClockAct PipemgrAct} {p : Option PipemgrOut}
    (h : Rule lag t c p t') (ht : t.state.lastAlive ≤ t.now) :
    t.state.lastAlive ≤ t'.state.lastAlive ∧ t'.state.lastAlive ≤ t'.now := by
  cases h with
  | tick => exact ⟨le_rfl, ht.trans (Nat.le_add_right _ _)⟩
  | go hgo =>
    cases hgo with
    | alive => exact ⟨ht, le_rfl⟩
    | _ => exact ⟨le_rfl, ht⟩
  | others => exact ⟨le_rfl, ht⟩

/-- It only gets later. -/
theorem lastAlive_of_run {t t' : Timed Pipemgr} {tr : Trace}
    (h : (task lag).machine.Run t tr t') (ht : t.state.lastAlive ≤ t.now) :
    t.state.lastAlive ≤ t'.state.lastAlive ∧ t'.state.lastAlive ≤ t'.now := by
  refine h.invariant (fun t' => t.state.lastAlive ≤ t'.state.lastAlive ∧
    t'.state.lastAlive ≤ t'.now) ⟨le_rfl, ht⟩ ?_
  rintro u c u' p ⟨hle, hu⟩ hs
  obtain ⟨hle', hu'⟩ := (rule_of_step hs).lastAlive_le hu
  exact ⟨hle.trans hle', hu'⟩

/-! ### While pipes are open

`untilAlive` bounds the time until `last_alive` is set again, from every position, under the
condition that some pipe is open at each moment. A pipe that is open survives `retain`, so there
is one left to be seen. The bound recurs: whenever the manager has set `last_alive` the count
begins anew. -/

/-- The time that is left at most until the manager sets `last_alive`. -/
def untilAlive (lag : ℕ) : PipemgrPc → ℕ
  | .retain => 3 * lag
  | .iterPipes => 2 * lag
  | .seen | .notify => lag
  | .elapsed => second + 5 * lag
  | .timer => second + 4 * lag
  | .returned => 0

/-- For how long the manager may fail to notice an open pipe. -/
def gap (lag : ℕ) : ℕ := second + 5 * lag

theorem untilAlive_le (lag : ℕ) (pc : PipemgrPc) : untilAlive lag pc ≤ gap lag := by
  cases pc <;> simp only [untilAlive, gap] <;> omega

/-- No more time is left than before, unless it sets `last_alive`. -/
theorem Go.untilAlive_le (h : Go now s s' o) (hlit : s.pipes.Lit) {m : ℕ}
    (hm : stay lag s.pc = some m) :
    o = .alive ∨ m + untilAlive lag s'.pc ≤ untilAlive lag s.pc := by
  cases h with
  | alive => exact .inl rfl
  | empty _ hnil =>
    have := hlit.length_pos
    rw [hnil] at this
    cases this
  | retain hpc | found hpc _ | wait hpc _ | dead hpc _ | timer hpc | notified hpc =>
    right
    rw [hpc] at hm ⊢
    obtain rfl := Option.some.inj hm
    simp only [untilAlive]
    omega

theorem Go.pc_ne (h : Go now s s' o) : s.pc ≠ .returned := by
  cases h with
  | retain hpc | found hpc _ | empty hpc _ | alive hpc | wait hpc _ | dead hpc _ | timer hpc
  | notified hpc => simp [hpc]

theorem Go.eq_of_notify (h : Go now s s' o) (hpc : s.pc = .notify) :
    s' = ⟨s.pipes, s.lastAlive, .returned⟩ := by
  cases h with
  | notified => rfl
  | retain hne | found hne _ | empty hne _ | alive hne | wait hne _ | dead hne _ | timer hne =>
    rw [hpc] at hne
    cases hne

theorem busy_of_ne {pc : PipemgrPc} (h : pc ≠ .returned) : stay lag pc ≠ none := by
  cases pc with
  | returned => exact absurd rfl h
  | _ => exact Option.some_ne_none _

/-- At rest the manager stays at rest. -/
theorem rest_of_step (h : step now s a = some (s', o)) (hs : stay lag s.pc = none) :
    stay lag s'.pc = none := by
  cases a with
  | go => exact absurd hs (busy_of_ne (go_of_step h).pc_ne)
  | others b =>
    obtain ⟨rfl, -⟩ := eq_of_others h
    exact hs

/-- A function of where the manager stands that each of its steps lowers enough is a bound. -/
theorem bound_of_go {left : PipemgrPc → ℕ} {Q : PipemgrEvent → Prop} {P : PipemgrOut → Prop}
    (hstay : ∀ {pc m}, stay lag pc = some m → m ≤ left pc)
    (hgo : ∀ {t : Timed Pipemgr} {s' o m}, Q ⟨t, .act .go, some o, ⟨t.now, t.now, s'⟩⟩ →
      Go t.now t.state s' o → stay lag t.state.pc = some m →
      P o ∨ m + left s'.pc ≤ left t.state.pc) :
    (task lag).Bound Q (fun e => ∃ o, e.out = some o ∧ P o) (fun s => left s.pc) where
  stay := hstay
  rest := rest_of_step
  own := by
    intro t a s' o m hown hstep hQ hm _
    obtain rfl : a = .go := of_decide_eq_true hown
    rcases hgo hQ (go_of_step hstep) hm with hP | hle
    · exact .inl ⟨o, rfl, hP⟩
    · exact .inr hle
  other := by
    intro t a s' o hown hstep _
    cases a with
    | go => cases hown
    | others b =>
      replace hstep : step t.now t.state (.others b) = some (s', o) := hstep
      obtain ⟨rfl, -⟩ := eq_of_others hstep
      exact le_rfl

/-- **While pipes are open** the manager notices it again and again: `last_alive` is never older
than the gap, once that much time has passed. -/
theorem lastAlive_of_stretch {t t' : Timed Pipemgr} {tr : Trace} (ht : (task lag).OnTime t)
    (h : (task lag).machine.Run t tr t')
    (hlit : ∀ e ∈ tr, e.pre.state.pipes.Lit) (hpc : t'.state.pc ≠ .returned) :
    t'.now ≤ t.now + gap lag ∨ t'.now ≤ t'.state.lastAlive + gap lag := by
  have hbound : (task lag).Bound (fun e => e.pre.state.pipes.Lit)
      (fun e => ∃ o, e.out = some o ∧ o = .alive) (fun s => untilAlive lag s.pc) := by
    refine bound_of_go ?_ fun hlit hgo hm => hgo.untilAlive_le hlit hm
    intro pc m hm
    cases pc with
    | returned => cases hm
    | _ =>
      obtain rfl := Option.some.inj hm
      simp only [untilAlive]
      omega
  rcases hbound.recurs ht h hlit (busy_of_ne hpc) with hfirst | ⟨e, he, ⟨o, ho, rfl⟩, hlater⟩
  · have hleft := untilAlive_le lag t.state.pc
    have hsince := ht.since_le
    left
    omega
  · have hleft := untilAlive_le lag e.post.state.pc
    obtain ⟨tr₁, tr₂, rfl⟩ := List.append_of_mem he
    obtain ⟨hstep, hrest⟩ := h.after
    -- it is set to the time of that step, and later ones only make it later
    have hset : e.post.state.lastAlive = e.post.now := by
      have hrule := rule_of_step hstep
      rw [ho] at hrule
      generalize e.pre = u, e.act = c, e.post = u' at hrule
      cases hrule with
      | go hgo =>
        cases hgo
        rfl
    have hmono := (lastAlive_of_run hrest hset.le).1
    right
    omega

/-- The manager has not found the session dead. -/
def Watching (s : Pipemgr) : Prop := s.pc ≠ .notify ∧ s.pc ≠ .returned

instance (s : Pipemgr) : Decidable s.Watching :=
  inferInstanceAs (Decidable (s.pc ≠ .notify ∧ s.pc ≠ .returned))

/-- It does not find it dead within 100 seconds of `last_alive`. -/
theorem watching_of_run {t t' : Timed Pipemgr} {tr : Trace} (hlast : t.state.lastAlive ≤ t.now)
    (hwatch : t.state.Watching) (h : (task lag).machine.Run t tr t')
    (hsoon : t'.now ≤ t.state.lastAlive + 100 * second) : t'.state.Watching := by
  refine h.induct (fun _ t' => t'.now ≤ t.state.lastAlive + 100 * second → t'.state.Watching)
    (fun _ => hwatch) ?_ hsoon
  intro tr u c u' p hrun ih hs hsoon
  have hu : u.state.Watching := ih ((TimedTask.now_le_of_step hs).trans hsoon)
  cases rule_of_step hs with
  | tick | others => exact hu
  | go hgo =>
    cases hgo with
    | notified hpc => exact absurd hpc hu.1
    | dead _ hlate =>
      have hmono := (lastAlive_of_run hrun hlast).1
      replace hsoon : u.now ≤ t.state.lastAlive + 100 * second := hsoon
      omega
    | retain | found | empty | alive | wait | timer => exact ⟨nofun, nofun⟩

/-! ### When no pipe is open

Without an open pipe a turn ends with the list empty, because `retain` removes what is closed and
nothing is added. A manager that was about to look when the last pipe closed may still see it
once; that is the step that `Dark` allows for. From then on `last_alive` stays, and the next
comparison after 100 seconds is the last. -/

/-- The time that is left at most until the manager ends or waits again. -/
def untilTimer (lag : ℕ) : PipemgrPc → ℕ
  | .notify => lag
  | .elapsed => 2 * lag
  | .seen => 3 * lag
  | .iterPipes => 4 * lag
  | .retain => 5 * lag
  | .timer => second + 6 * lag
  | .returned => 0

theorem untilTimer_le (lag : ℕ) (pc : PipemgrPc) : untilTimer lag pc ≤ second + 6 * lag := by
  cases pc <;> simp only [untilTimer] <;> omega

theorem Go.untilTimer_le (h : Go now s s' o) {m : ℕ} (hm : stay lag s.pc = some m) :
    o = .checked false ∨ m + untilTimer lag s'.pc ≤ untilTimer lag s.pc := by
  cases h with
  | wait => exact .inl rfl
  | retain hpc | found hpc _ | empty hpc _ | alive hpc | dead hpc _ | timer hpc | notified hpc =>
    right
    rw [hpc] at hm ⊢
    obtain rfl := Option.some.inj hm
    simp only [untilTimer]
    omega

/-- No pipe has been open since `u`: the manager may still have seen one before. -/
structure Dark (lag u : ℕ) (t : Timed Pipemgr) : Prop where
  dark : ¬ t.state.pipes.Lit
  lastAlive_le : t.state.lastAlive ≤ u + 2 * lag
  /-- It has removed the closed pipes, and what was left is closed since. -/
  iterPipes : t.state.pc = .iterPipes → t.state.pipes ≠ [] → t.since ≤ u
  seen : t.state.pc = .seen → t.since ≤ u + lag

theorem Dark.start {t : Timed Pipemgr} (ht : (task lag).OnTime t)
    (hlast : t.state.lastAlive ≤ t.now) (hdark : ¬ t.state.pipes.Lit) : Dark lag t.now t where
  dark := hdark
  lastAlive_le := hlast.trans (Nat.le_add_right _ _)
  iterPipes _ _ := ht.since_le
  seen _ := ht.since_le.trans (Nat.le_add_right _ _)

theorem Dark.step {u : ℕ} {t t' : Timed Pipemgr} {c : ClockAct PipemgrAct} {p : Option PipemgrOut}
    (hd : Dark lag u t) (ht : (task lag).OnTime t) (h : Rule lag t c p t')
    (hc : ∀ live, c ≠ .act (.others (.add live))) : Dark lag u t' := by
  cases h with
  | tick => exact ⟨hd.dark, hd.lastAlive_le, hd.iterPipes, hd.seen⟩
  | @others b =>
    refine ⟨?_, hd.lastAlive_le, fun hpc hne => hd.iterPipes hpc ?_, hd.seen⟩
    · refine MuxPipes.not_lit_after hd.dark ?_
      rintro live rfl
      exact hc live rfl
    · intro hnil
      cases b with
      | add live => exact hc live rfl
      | close | remove => simp [MuxPipes.after, hnil] at hne
  | go hgo =>
    cases hgo with
    | retain =>
      have hnil := MuxPipes.retain_eq_nil hd.dark
      refine ⟨?_, hd.lastAlive_le, fun _ hne => absurd hnil hne, nofun⟩
      simp [hnil, MuxPipes.Lit]
    | found hpc hne =>
      refine ⟨hd.dark, hd.lastAlive_le, nofun, fun _ => ?_⟩
      have hsince := hd.iterPipes hpc hne
      have hnow : t.now ≤ t.since + lag := ht.now_le (by simp [task, stay, hpc])
      show t.now ≤ u + lag
      omega
    | alive hpc =>
      refine ⟨hd.dark, ?_, nofun, nofun⟩
      have hsince := hd.seen hpc
      have hnow : t.now ≤ t.since + lag := ht.now_le (by simp [task, stay, hpc])
      show t.now ≤ u + 2 * lag
      omega
    | empty | wait | dead | timer | notified =>
      exact ⟨hd.dark, hd.lastAlive_le, nofun, nofun⟩

theorem dark_of_run {t t' : Timed Pipemgr} {tr : Trace} (ht : (task lag).OnTime t)
    (hlast : t.state.lastAlive ≤ t.now) (hdark : ¬ t.state.pipes.Lit)
    (h : (task lag).machine.Run t tr t')
    (hadd : ∀ e ∈ tr, ∀ live, e.act ≠ .act (.others (.add live))) : Dark lag t.now t' := by
  refine (h.invariant_of (fun t' => (task lag).OnTime t' ∧ Dark lag t.now t')
    (Q := fun e => ∀ live, e.act ≠ .act (.others (.add live)))
    ⟨ht, .start ht hlast hdark⟩ ?_ hadd).2
  rintro v c v' p ⟨hv, hd⟩ hQ hs
  exact ⟨(TimedTask.rule_of_step hs).onTime hv, hd.step hv (rule_of_step hs) hQ⟩

/-- **Once no pipe is open** and none is added, the manager ends within 101 seconds and what the
scheduler may add. -/
theorem now_le_of_dark {t t' : Timed Pipemgr} {tr : Trace} (ht : (task lag).OnTime t)
    (hlast : t.state.lastAlive ≤ t.now) (hdark : ¬ t.state.pipes.Lit)
    (h : (task lag).machine.Run t tr t')
    (hadd : ∀ e ∈ tr, ∀ live, e.act ≠ .act (.others (.add live)))
    (hpc : t'.state.pc ≠ .returned) : t'.now ≤ t.now + 101 * second + 8 * lag := by
  have hbound : (task lag).Bound (fun _ => True) (fun e => ∃ o, e.out = some o ∧ o = .checked false)
      (fun s => untilTimer lag s.pc) := by
    refine bound_of_go ?_ fun _ hgo hm => hgo.untilTimer_le hm
    intro pc m hm
    cases pc with
    | returned => cases hm
    | _ =>
      obtain rfl := Option.some.inj hm
      simp only [untilTimer]
      omega
  rcases hbound.recurs ht h (fun _ _ => trivial) (busy_of_ne hpc) with
    hfirst | ⟨e, he, ⟨o, ho, rfl⟩, hlater⟩
  · have hleft := untilTimer_le lag t.state.pc
    have hsince := ht.since_le
    have hpos : second ≤ 101 * second := by omega
    omega
  · have hleft := untilTimer_le lag e.post.state.pc
    obtain ⟨tr₁, tr₂, rfl⟩ := List.append_of_mem he
    have hd := dark_of_run ht hlast hdark h.before fun e he => hadd e (List.mem_append_left _ he)
    -- at that look `last_alive` was not old enough
    have hlook : e.post.now ≤ e.pre.state.lastAlive + 100 * second := by
      have hrule := rule_of_step h.after.1
      rw [ho] at hrule
      generalize e.pre = v, e.act = c, e.post = v' at hrule
      cases hrule with
      | go hgo =>
        cases hgo with
        | wait _ hle => exact hle
    have hold := hd.lastAlive_le
    omega

end Pipemgr

/-! ### The manager and its session

The session of `Deadline` has a step in which it is declared dead, at any time. Here this step is
taken together with the manager's send and not otherwise. So a run of both is a run of the session
in which the declaration comes at the right time, and what is known of sessions applies to it. -/

/-- A step of the manager or of the other tasks of the session, or the manager's send. -/
inductive WatchedAct
  | manager (c : ClockAct PipemgrAct)
  | session (a : SessionAct)
  | declare

namespace Session

/-- After it has declared the session dead, or found nobody to tell, it does not watch any more. -/
theorem not_watch_of_declare {s s' : Session} {o : SessionOut}
    (h : machine.step s .declare = some (s', o)) : s'.manager ≠ .watch := by
  replace h : s.step .declare = some (s', o) := h
  simp only [step] at h
  split at h
  · split at h
    · obtain ⟨rfl, -⟩ := Machine.next_inj h
      simp
    · obtain ⟨rfl, -⟩ := Machine.next_inj h
      simp
    · cases h
  · cases h

theorem channel_tryDeadline (s : Session) :
    s.tryDeadline.2.deadline.cap = s.deadline.cap ∧
      s.tryDeadline.2.deadline.closed = s.deadline.closed := by
  rw [tryDeadline]
  rcases hr : s.deadline.tryRecv with e | ⟨u, ch⟩
  · exact ⟨rfl, rfl⟩
  · obtain ⟨-, hclosed, -, hcap⟩ := Chan.tryRecv_ok hr
    exact ⟨hcap, hclosed⟩

/-- Only the manager closes the channel. -/
theorem channel_of_step {s s' : Session} {a : SessionAct} {o : SessionOut}
    (h : machine.step s a = some (s', o)) (ha : a ≠ .declare) :
    s'.deadline.cap = s.deadline.cap ∧ s'.deadline.closed = s.deadline.closed := by
  replace h : s.step a = some (s', o) := h
  cases a with
  | declare => exact absurd rfl ha
  | check =>
    simp only [step] at h
    split at h
    · obtain ⟨rfl, -⟩ := Machine.next_inj h
      exact s.channel_tryDeadline
    · cases h
  | forward conn a broken input =>
    simp only [step] at h
    split at h
    · split at h
      · split at h
        · split at h
          · obtain ⟨rfl, -⟩ := Machine.next_inj h
            exact s.channel_tryDeadline
          · cases h
        · obtain ⟨rfl, -⟩ := Machine.next_inj h
          exact ⟨rfl, rfl⟩
      · cases h
    · cases h
  | idle | accept | acceptFail | forwardStart | handlerEnd =>
    simp only [step] at h
    split at h
    · obtain ⟨rfl, -⟩ := Machine.next_inj h
      exact ⟨rfl, rfl⟩
    · cases h

/-- As long as the manager watches, the channel takes its value. -/
theorem open_of_run {s : Session} {tr : Trace} (h : machine.Run new tr s)
    (hwatch : s.manager = .watch) :
    s.deadline.cap = 1 ∧ s.deadline.closed = false ∧ s.deadline.queue = [] := by
  have hempty : s.deadline.queue = [] := by
    cases late_of_run h with
    | before _ hq => exact hq
    | sent _ hne | taken _ _ _ hne => exact absurd hwatch hne
  have hopen : s.deadline.cap = 1 ∧ s.deadline.closed = false := by
    refine h.invariant (fun s => s.manager = .watch →
      s.deadline.cap = 1 ∧ s.deadline.closed = false) (fun _ => ⟨rfl, rfl⟩) ?_ hwatch
    intro t a t' o ht hs hwatch
    have ha : a ≠ .declare := by
      rintro rfl
      exact not_watch_of_declare hs hwatch
    obtain ⟨hcap, hclosed⟩ := channel_of_step hs ha
    rw [hcap, hclosed]
    exact ht ((frame_of_step hs).manager ha ▸ hwatch)
  exact ⟨hopen.1, hopen.2, hempty⟩

/-- The manager never waits when it sends: it is heard, or nobody is there any more. -/
theorem exists_declare {s : Session} {tr : Trace} (h : machine.Run new tr s)
    (hwatch : s.manager = .watch) :
    ∃ s' o, machine.step s .declare = some (s', o) ∧ (o = .declared ∨ s.hasReceiver = false) := by
  obtain ⟨hcap, hclosed, hempty⟩ := open_of_run h hwatch
  show ∃ s' o, s.step .declare = some (s', o) ∧ _
  simp only [step, hwatch]
  cases hreceiver : s.hasReceiver with
  | true =>
    simp only [if_true]
    have hroom : s.deadline.queue.length < s.deadline.cap := by simp [hempty, hcap]
    simp only [Chan.trySend, hclosed, Bool.false_eq_true, if_false, hroom, dif_pos]
    exact ⟨_, _, rfl, .inl rfl⟩
  | false =>
    simp only [Bool.false_eq_true, if_false, Chan.trySend, Chan.closed_close, if_true]
    exact ⟨_, _, rfl, .inr trivial⟩

end Session

namespace Watched

open Pipemgr

/-- The step is the manager's send. -/
def isSend (c : ClockAct PipemgrAct) (t : Timed Pipemgr) : Bool :=
  c = .act .go ∧ t.state.pc = .notify

def isDeclare : SessionAct → Bool
  | .declare => true
  | _ => false

/-- The session is declared dead when the manager sends. -/
def joint : Joint (Timed Pipemgr) Session (ClockAct PipemgrAct) SessionAct (Option PipemgrOut)
    SessionOut WatchedAct where
  left
    | .manager c => some c
    | .session _ => none
    | .declare => some (.act .go)
  right
    | .manager _ => none
    | .session a => some a
    | .declare => some .declare
  agree c t _ _ _ :=
    match c with
    | .manager c => !isSend c t
    | .session a => !isDeclare a
    | .declare => isSend (.act .go) t

/-- A session with its manager. -/
abbrev machine (lag : ℕ) := (task lag).machine.sync Session.machine joint

/-- A new session. -/
def start (now : ℕ) (pipes : MuxPipes) : Timed Pipemgr × Session := (Pipemgr.start now pipes, .new)

/-- The recorded steps of a run. -/
abbrev Trace := List (JointEvent (Timed Pipemgr) Session WatchedAct (Option PipemgrOut) SessionOut)

variable {lag now : ℕ} {pipes : MuxPipes} {s s' s₁ s₂ s₃ : Timed Pipemgr × Session}
  {tr tr₁ tr₂ : Trace}

/-- What a step can be. -/
inductive Rule (lag : ℕ) (s : Timed Pipemgr × Session) :
    WatchedAct → Timed Pipemgr × Session → Prop
  | manager {c : ClockAct PipemgrAct} {p : Option PipemgrOut} {t : Timed Pipemgr} :
      isSend c s.1 = false → Pipemgr.Rule lag s.1 c p t → Rule lag s (.manager c) (t, s.2)
  | session {a : SessionAct} {o : SessionOut} {t : Session} : isDeclare a = false →
      Session.machine.step s.2 a = some (t, o) → Rule lag s (.session a) (s.1, t)
  | declare {o : SessionOut} {t : Session} : s.1.state.pc = .notify →
      Session.machine.step s.2 .declare = some (t, o) →
      Rule lag s .declare
        (⟨s.1.now, s.1.now, ⟨s.1.state.pipes, s.1.state.lastAlive, .returned⟩⟩, t)

theorem rule_of_step {c : WatchedAct} {o : Option (Option PipemgrOut) × Option SessionOut}
    (h : (machine lag).step s c = some (s', o)) : Rule lag s c s' := by
  obtain ⟨hl, hr, hagree⟩ := Machine.sync_step_iff.mp h
  obtain ⟨t, u⟩ := s'
  cases c with
  | manager c =>
    rcases Machine.stepOr_cases hl with ⟨ha, -, -⟩ | ⟨b, p, hb, -, hstep⟩
    · cases ha
    · obtain rfl := Option.some.inj hb
      rcases Machine.stepOr_cases hr with ⟨-, -, hu⟩ | ⟨_, _, ha, -, -⟩
      · obtain rfl : u = s.2 := hu
        exact .manager (by simpa [joint] using hagree) (Pipemgr.rule_of_step hstep)
      · cases ha
  | session a =>
    rcases Machine.stepOr_cases hr with ⟨ha, -, -⟩ | ⟨b, p, hb, -, hstep⟩
    · cases ha
    · obtain rfl := Option.some.inj hb
      rcases Machine.stepOr_cases hl with ⟨-, -, ht⟩ | ⟨_, _, ha, -, -⟩
      · obtain rfl : t = s.1 := ht
        exact .session (by simpa [joint] using hagree) hstep
      · cases ha
  | declare =>
    have hpc : s.1.state.pc = .notify := by simpa [joint, isSend] using hagree
    rcases Machine.stepOr_cases hr with ⟨ha, -, -⟩ | ⟨b, p, hb, -, hstep⟩
    · cases ha
    · obtain rfl := Option.some.inj hb
      rcases Machine.stepOr_cases hl with ⟨ha, -, -⟩ | ⟨b, q, hb, -, hgo⟩
      · cases ha
      · obtain rfl := Option.some.inj hb
        have ht : t = ⟨s.1.now, s.1.now, ⟨s.1.state.pipes, s.1.state.lastAlive, .returned⟩⟩ := by
          cases Pipemgr.rule_of_step hgo with
          | go hnotify => rw [hnotify.eq_of_notify hpc]
        rw [ht]
        exact .declare hpc hstep

theorem onTime_of_run (h : (machine lag).Run (start now pipes) tr s) : (task lag).OnTime s.1 :=
  TimedTask.onTime_of_run h.left (TimedTask.onTime_start _ _)

/-- The manager has not returned exactly as long as the session takes it to watch. -/
theorem watch_iff_of_run (h : (machine lag).Run (start now pipes) tr s) :
    s.2.manager = .watch ↔ s.1.state.pc ≠ .returned := by
  refine h.invariant (fun s => s.2.manager = .watch ↔ s.1.state.pc ≠ .returned)
    (by simp [start, Pipemgr.start, Session.new]) ?_
  intro s c s' o hs hstep
  cases rule_of_step hstep with
  | @manager c p t hsend hrule =>
    rw [hs]
    cases hrule with
    | tick | others => exact Iff.rfl
    | go hgo =>
      have hpc : s.1.state.pc ≠ .returned := hgo.pc_ne
      have hpc' : s.1.state.pc ≠ .notify := by simpa [isSend] using hsend
      cases hgo with
      | notified hnotify => exact absurd hnotify hpc'
      | retain | found | empty | alive | wait | dead | timer => simp [hpc]
  | session hdecl hsess =>
    rw [← hs, (Session.frame_of_step hsess).manager]
    rintro rfl
    cases hdecl
  | declare hpc hsess =>
    refine ⟨fun hwatch => ?_, fun hne => absurd rfl hne⟩
    exact absurd hwatch (Session.not_watch_of_declare hsess)

/-- **A session is kept** as long as its client has an open pipe. If some pipe is open at every
moment of a stretch of a run that is longer than the gap, and the manager has not found the session
dead by its end, then until 100 seconds less the gap after it the manager does not declare the
session dead; and the accept loop goes on, if `accept_conn` has never failed. -/
theorem kept (h₁ : (machine lag).Run (start now pipes) tr₁ s₁) (h : (machine lag).Run s₁ tr s₂)
    (hlit : ∀ e ∈ tr, e.pre.1.state.pipes.Lit) (hlong : s₁.1.now + gap lag < s₂.1.now)
    (hwatch : s₂.1.state.Watching) (h₂ : (machine lag).Run s₂ tr₂ s₃)
    (hsoon : s₃.1.now + gap lag ≤ s₂.1.now + 100 * second) :
    s₃.2.manager = .watch ∧
      ((∀ e ∈ tr₁ ++ tr ++ tr₂, e.act ≠ .session .acceptFail) → s₃.2.acceptLoop ≠ .returned) := by
  have htime := onTime_of_run h₁
  have hlast₂ : s₂.1.state.lastAlive ≤ s₂.1.now := (lastAlive_of_run (h₁.append h).left le_rfl).2
  -- the manager has noticed the open pipes not long ago
  have hrecent : s₂.1.now ≤ s₂.1.state.lastAlive + gap lag := by
    refine (lastAlive_of_stretch htime h.left (fun e he => ?_) hwatch.2).resolve_left (by omega)
    obtain ⟨f, hf, hpre⟩ := joint.pre_of_mem_leftOf he
    rw [← hpre]
    exact hlit f hf
  have hrun := (h₁.append h).append h₂
  have hman : s₃.2.manager = .watch := by
    refine (watch_iff_of_run hrun).mpr ?_
    exact (watching_of_run hlast₂ hwatch h₂.left (by omega)).2
  refine ⟨hman, fun hfail hret => ?_⟩
  rcases (Session.returned_iff_of_run hrun.right).mp hret with ⟨e, he, hact⟩ | hhead
  · obtain ⟨f, hf, hright⟩ := joint.exists_of_mem_rightOf he
    rw [hact] at hright
    have hone : f.act = .session .acceptFail := by
      cases hf' : f.act with
      | manager => simp [joint, hf'] at hright
      | session a =>
        rw [hf'] at hright
        obtain rfl := Option.some.inj hright
        rfl
      | declare => simp [joint, hf'] at hright
    exact hfail f hf hone
  · have hany := Session.any_declares_of_head? hhead
    cases Session.late_of_run hrun.right with
    | before hnone =>
      rw [hnone] at hany
      cases hany
    | sent _ hne | taken _ _ _ hne => exact hne hman

/-! ### Time goes on

A bound on lateness could be met by no run at all, if there were a state in which no step is
enabled and time may not pass either. There is none: whenever time may not pass, the manager has a
step, and it has only finitely many of them before it is in its timer or at its end. -/

/-- How many steps the manager may take before time has to pass. -/
def steps (t : Timed Pipemgr) : ℕ :=
  match t.state.pc with
  | .timer => if t.since + second ≤ t.now then 6 else 0
  | .retain => 5
  | .iterPipes => 4
  | .seen => 3
  | .elapsed => 2
  | .notify => 1
  | .returned => 0

theorem steps_lt_of_go {t : Timed Pipemgr} {x : Pipemgr} {o : PipemgrOut} (h : Go t.now t.state x o)
    (hready : t.since + least t.state ≤ t.now) : steps ⟨t.now, t.now, x⟩ < steps t := by
  cases h with
  | timer hpc =>
    have hle : t.since + second ≤ t.now := by simpa [least, hpc] using hready
    simp [steps, hpc, hle]
  | wait hpc =>
    have hlt : ¬ t.now + second ≤ t.now := by simp [second]
    simp [steps, hpc, hlt]
  | retain hpc | found hpc _ | empty hpc _ | alive hpc | dead hpc _ | notified hpc =>
    simp [steps, hpc]

/-- Where the manager has not returned it can go on. -/
theorem exists_go (s : Pipemgr) (now : ℕ) (hpc : s.pc ≠ .returned) :
    ∃ s' o, Pipemgr.step now s .go = some (s', o) := by
  cases hcase : s.pc with
  | returned => exact absurd hcase hpc
  | _ => simp [Pipemgr.step, hcase]

/-- The step is one of the manager or the clock. -/
def isManagers : WatchedAct → Bool
  | .manager (.act (.others _)) | .session _ => false
  | .manager _ | .declare => true

/-- How far the session is from a time. -/
def rank (time : ℕ) (s : Timed Pipemgr × Session) : ℕ ×ₗ ℕ := toLex (time - s.1.now, steps s.1)

/-- One step of the manager or the clock, towards a later time. -/
theorem exists_step (h : (machine lag).Run (start now pipes) tr s) {time : ℕ}
    (hnow : ¬ time ≤ s.1.now) : ∃ c s' o, (machine lag).step s c = some (s', o) ∧
      isManagers c = true ∧ rank time s' < rank time s := by
  have htime := onTime_of_run h
  have htick : ∀ d, 0 < d → (∀ m, stay lag s.1.state.pc = some m → s.1.now + d ≤ s.1.since + m) →
      ∃ c s' o, (machine lag).step s c = some (s', o) ∧ isManagers c = true ∧
        rank time s' < rank time s := by
    intro d hd hstay
    have hpass := TimedTask.step_tick (T := task lag) hstay
    refine ⟨.manager (.tick d), _, _, Machine.sync_left rfl rfl hpass ?_, rfl, ?_⟩
    · simp [joint, isSend]
    refine Prod.Lex.toLex_lt_toLex.mpr (.inl ?_)
    show time - (s.1.now + d) < time - s.1.now
    omega
  by_cases hend : s.1.state.pc = .returned
  · exact htick 1 Nat.one_pos fun m hm => by simp [stay, hend] at hm
  by_cases hready : s.1.since + least s.1.state ≤ s.1.now
  · obtain ⟨x, o, hgo⟩ := exists_go s.1.state s.1.now hend
    have hstep := TimedTask.step_own (T := task lag) (a := .go) rfl hready hgo
    have hless : toLex (time - s.1.now, steps ⟨s.1.now, s.1.now, x⟩) < rank time s :=
      Prod.Lex.toLex_lt_toLex.mpr (.inr ⟨rfl, steps_lt_of_go (go_of_step hgo) hready⟩)
    by_cases hnotify : s.1.state.pc = .notify
    · have hwatch : s.2.manager = .watch := (watch_iff_of_run h).mpr hend
      obtain ⟨u, p, hdeclare, -⟩ := Session.exists_declare h.right hwatch
      refine ⟨.declare, _, _, Machine.sync_both rfl rfl hstep hdeclare ?_, rfl, hless⟩
      simp [joint, isSend, hnotify]
    · refine ⟨.manager (.act .go), _, _, Machine.sync_left rfl rfl hstep ?_, rfl, hless⟩
      simp [joint, isSend, hnotify]
  · -- the timer has not run out
    have hpc : s.1.state.pc = .timer := by
      by_contra hne
      have hsince := htime.since_le
      simp [least, hne] at hready
      omega
    have hleast : least s.1.state = second := if_pos hpc
    refine htick (s.1.since + second - s.1.now) (by omega) fun m hm => ?_
    rw [hpc] at hm
    obtain rfl := Option.some.inj hm
    omega

/-- **Time goes on**: the manager always meets the bounds on the scheduler. From every state of a
session any later time can be reached by steps of the manager and the clock. -/
theorem goes_on (h : (machine lag).Run (start now pipes) tr s) (time : ℕ) :
    ∃ tr' s', (machine lag).Run s tr' s' ∧ (∀ e ∈ tr', isManagers e.act = true) ∧
      time ≤ s'.1.now := by
  obtain ⟨tr', s', h', hman, -, hgoal⟩ := h.exists_goal (I := fun _ _ => True)
    (Q := fun e => isManagers e.act = true) (G := fun s => time ≤ s.1.now) (rank time)
    (fun tr s hrun _ hnow => by
      obtain ⟨c, s', o, hstep, hman, hless⟩ := exists_step hrun hnow
      exact ⟨c, s', o, hstep, hman, trivial, hless⟩) trivial
  exact ⟨tr', s', h', hman, hgoal⟩

/-- The step is a failure of `accept_conn`. -/
def isAcceptFail : WatchedAct → Bool
  | .session .acceptFail => true
  | _ => false

/-- A scheduler that is late by 10 seconds, and a pipe that is closed after 52. -/
theorem kept_closed :
    ∃ tr s tr' t, (machine (10 * second)).Run (start 0 [true]) tr s ∧
      (machine (10 * second)).Run s tr' t ∧ t.1.now = 93 * second ∧ t.1.state.pipes = [] ∧
      t.2.manager = .watch ∧ t.2.acceptLoop ≠ .returned := by
  obtain ⟨tr, s, tr', t, h, h', hlit, hlong, hwatch, hsoon, hone, hnow, hdark⟩ :=
    (machine (10 * second)).exists_runs_of_exec (start 0 [true])
      ([.act .go, .act .go, .act .go, .act .go, .tick (11 * second), .act .go, .tick (10 * second),
        .act .go, .tick (10 * second), .act .go, .tick (10 * second), .act .go,
        .tick (10 * second), .act .go, .tick second].map .manager)
      ([.act (.others (.close 0)), .tick (10 * second), .act .go, .tick (10 * second), .act .go,
        .tick (10 * second), .act .go, .act .go, .tick (11 * second)].map .manager ++
        [.session .check, .session .idle])
      (P := fun tr s tr' t => (∀ e ∈ tr, e.pre.1.state.pipes.Lit) ∧
        0 + gap (10 * second) < s.1.now ∧ s.1.state.Watching ∧
        t.1.now + gap (10 * second) ≤ s.1.now + 100 * second ∧
        (∀ e ∈ [] ++ tr ++ tr', isAcceptFail e.act = false) ∧
        t.1.now = 93 * second ∧ t.1.state.pipes = []) (by decide)
  obtain ⟨hman, hgoes⟩ := kept .nil h hlit hlong hwatch h' hsoon
  refine ⟨tr, s, tr', t, h, h', hnow, hdark, hman, hgoes fun e he hact => ?_⟩
  have := hone e he
  rw [hact] at this
  cases this

/-- Without open pipes the manager returns, when no pipe is added. -/
theorem returned_of_dark (h₁ : (machine lag).Run (start now pipes) tr₁ s₁)
    (hdark : ¬ s₁.1.state.pipes.Lit) (h : (machine lag).Run s₁ tr s₂)
    (hadd : ∀ e ∈ tr, ∀ live, e.act ≠ .manager (.act (.others (.add live))))
    (hlate : s₁.1.now + 101 * second + 8 * lag < s₂.1.now) : s₂.1.state.pc = .returned := by
  have htime := onTime_of_run h₁
  have hlast : s₁.1.state.lastAlive ≤ s₁.1.now := (lastAlive_of_run h₁.left le_rfl).2
  by_contra hpc
  refine Nat.not_le_of_lt hlate (now_le_of_dark htime hlast hdark h.left ?_ hpc)
  intro e he live hact
  obtain ⟨f, hf, hleft⟩ := joint.exists_of_mem_leftOf he
  rw [hact] at hleft
  refine hadd f hf live ?_
  cases hf' : f.act with
  | manager c =>
    rw [hf'] at hleft
    obtain rfl := Option.some.inj hleft
    rfl
  | session => simp [joint, hf'] at hleft
  | declare => simp [joint, hf'] at hleft

/-- **A session without open pipes** is declared dead, or nobody is there to be told, within 101
seconds and what the scheduler may add, when no pipe is added. -/
theorem told (h₁ : (machine lag).Run (start now pipes) tr₁ s₁) (hdark : ¬ s₁.1.state.pipes.Lit)
    (h : (machine lag).Run s₁ tr s₂)
    (hadd : ∀ e ∈ tr, ∀ live, e.act ≠ .manager (.act (.others (.add live))))
    (hlate : s₁.1.now + 101 * second + 8 * lag < s₂.1.now) : s₂.2.manager ≠ .watch := by
  rw [Ne, watch_iff_of_run (h₁.append h), not_not]
  exact returned_of_dark h₁ hdark h hadd hlate

/-- The step adds a pipe. -/
def adds : WatchedAct → Bool
  | .manager (.act (.others (.add _))) => true
  | _ => false

/-- A scheduler that is late by 101 seconds. -/
theorem told_late :
    ∃ tr s tr' t, (machine (101 * second)).Run (start 0 [true]) tr s ∧
      (machine (101 * second)).Run s tr' t ∧ t.1.now = 1010 * second ∧ t.2.manager ≠ .watch := by
  obtain ⟨tr, s, tr', t, h, h', hdark, hadd, hnow, hlate⟩ :=
    (machine (101 * second)).exists_runs_of_exec (start 0 [true])
      [.manager (.act (.others (.close 0)))]
      ([.act .go, .act .go, .tick (101 * second), .act .go].map .manager ++
        [.declare, .manager (.tick (909 * second))])
      (P := fun tr s tr' t => (¬ s.1.state.pipes.Lit) ∧ (∀ e ∈ tr', adds e.act = false) ∧
        t.1.now = 1010 * second ∧ s.1.now + 101 * second + 8 * (101 * second) < t.1.now) (by decide)
  refine ⟨tr, s, tr', t, h, h', hnow, told h hdark h' (fun e he live hact => ?_) hlate⟩
  have := hadd e he
  rw [hact] at this
  cases this

end Watched

end ObfsWs
