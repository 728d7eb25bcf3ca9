import ObfsWs.Wsocks.Manager

/-!
# How a session ends

The accept loop of a session waits for at most five seconds at a time, and checks the deadline in
between. So when the client is gone, the manager declares the session dead, the accept loop hears of
it at its next check, and it returns: unless one of the forwarders has checked first.

The manager and the accept loop run by the same clock.

## The bound

Once no pipe is open the manager needs 101 seconds and eight delays at most. Then the value is in
the channel. The accept loop is at most five seconds and two delays away from its next check,
wherever it stands, because accepting a connection brings it to the check as well as a timeout
does. If no forwarder has made a check in between, it finds the value and returns.

The condition is on the observations of the run: no forwarder's check finds the deadline. A check
that was made before the declaration finds nothing, and does no harm.

## Main definitions

* `Session.task` — the tasks of a session by the clock of its accept loop
* `Expiry.machine` — the manager and its session by one clock

## Main results

* `Expiry.watched_of_run` — without the second clock this is `Watched.machine`
* `Expiry.ended` — a session whose client is gone ends in bounded time

## One clock

The manager and the session are two timed tasks, and each has a clock in its state. The joint lets
time pass in both or in none, so the two clocks show the same time throughout. Without the second
clock this is the machine of `Manager`; that projection is `watched_of_run`, and carries over what
was proved there.
-/

namespace ObfsWs

namespace Session

/-- How long the accept loop stays where it stands: `accept_conn` has a timeout of five seconds. -/
def stay (lag : ℕ) : AcceptPc → Option ℕ
  | .check => some lag
  | .accept => some (5 * second + lag)
  | .returned => none

/-- The tasks of a session, by the clock of the accept loop. -/
def task (lag : ℕ) : TimedTask Session SessionAct SessionOut where
  step _ := machine.step
  own := isAcceptLoops
  least _ := 0
  most s := stay lag s.acceptLoop
  most_other h ha := by rw [acceptLoop_of_others h ha]

/-- What the accept loop can do. -/
theorem acceptLoop_cases {s s' : Session} {a : SessionAct} {o : SessionOut}
    (h : machine.step s a = some (s', o)) (ha : isAcceptLoops a = true) :
    (s.acceptLoop = .check ∧ ∃ b, o = .checked .acceptLoop b) ∨
      (s.acceptLoop = .accept ∧ (s'.acceptLoop = .check ∨ s'.acceptLoop = .returned)) := by
  replace h : s.step a = some (s', o) := h
  cases a with
  | check =>
    simp only [step] at h
    split at h
    · rename_i hpc
      obtain ⟨-, rfl⟩ := Machine.next_inj h
      exact .inl ⟨hpc, _, rfl⟩
    · cases h
  | idle | accept =>
    simp only [step] at h
    split at h
    · rename_i hpc
      obtain ⟨rfl, -⟩ := Machine.next_inj h
      exact .inr ⟨hpc, .inl rfl⟩
    · cases h
  | acceptFail =>
    simp only [step] at h
    split at h
    · rename_i hpc
      obtain ⟨rfl, -⟩ := Machine.next_inj h
      exact .inr ⟨hpc, .inr rfl⟩
    · cases h
  | declare | forwardStart | forward | handlerEnd => cases ha

/-- The time that is left at most until the accept loop checks. -/
def untilCheck (lag : ℕ) (s : Session) : ℕ :=
  match s.acceptLoop with
  | .check => lag
  | .accept => 5 * second + 2 * lag
  | .returned => 0

/-- The accept loop checks again and again. -/
theorem bound_check (lag : ℕ) : (task lag).Bound (fun _ => True)
    (fun e => ∃ b, e.out = some (.checked .acceptLoop b)) (untilCheck lag) where
  stay := by
    intro s m hm
    replace hm : stay lag s.acceptLoop = some m := hm
    unfold untilCheck
    cases hpc : s.acceptLoop with
    | returned =>
      rw [hpc] at hm
      cases hm
    | check | accept =>
      rw [hpc] at hm
      obtain rfl := Option.some.inj hm
      dsimp only
      omega
  rest := by
    intro now s a s' o h hm
    have hret : s.acceptLoop = .returned := by
      cases hpc : s.acceptLoop with
      | returned => rfl
      | check | accept =>
        replace hm : stay lag s.acceptLoop = none := hm
        rw [hpc] at hm
        cases hm
    show stay lag s'.acceptLoop = none
    rw [returned_of_step h hret]
    rfl
  own := by
    intro t a s' o m ha h _ hm hbusy
    replace hm : stay lag t.state.acceptLoop = some m := hm
    rcases acceptLoop_cases h ha with ⟨-, b, rfl⟩ | ⟨hpc, hnext | hret⟩
    · exact .inl ⟨b, rfl⟩
    · right
      rw [hpc] at hm
      obtain rfl := Option.some.inj hm
      simp only [untilCheck, hpc, hnext]
      omega
    · refine absurd ?_ hbusy
      show stay lag s'.acceptLoop = none
      rw [hret]
      rfl
  other := by
    intro t a s' o ha h _
    rw [untilCheck, untilCheck, acceptLoop_of_others h ha]

/-! ### The first check after the declaration

Two things must be known when the value is in the channel: that nobody has taken it, and how far
the accept loop is from its next check. The first is the condition on the run and the second the
bound `untilCheck`. -/

/-- Once the manager does not watch any more it has declared the session dead, or the accept loop
has returned before. -/
theorem declared_of_run {s : Session} {tr : Trace} (h : machine.Run new tr s) :
    s.manager ≠ .watch → tr.any declares = true ∨ s.acceptLoop = .returned := by
  refine h.induct (fun tr s => s.manager ≠ .watch →
    tr.any declares = true ∨ s.acceptLoop = .returned) (fun hne => absurd rfl hne) ?_
  intro tr s a s' o hrun ih hs hne
  by_cases ha : a = .declare
  · subst ha
    by_cases hwatch : s.manager = .watch
    · obtain ⟨s'', o', hs', hheard⟩ := exists_declare hrun hwatch
      obtain ⟨rfl, rfl⟩ := Machine.next_inj (hs.symm.trans hs')
      rcases hheard with rfl | hnobody
      · left
        simp [declares]
      · right
        have hret : s.acceptLoop = .returned := by
          by_contra hloop
          simp [hasReceiver, hloop] at hnobody
        exact returned_of_run (.single hs) hret
    · replace hs : s.step .declare = some (s', o) := hs
      cases hman : s.manager with
      | watch => exact absurd hman hwatch
      | returned | panicked => simp [step, hman] at hs
  · rw [(frame_of_step hs).manager ha] at hne
    rcases ih hne with hdecl | hret
    · left
      rw [any_declares_snoc, hdecl, Bool.true_or]
    · exact .inr (returned_of_run (.single hs) hret)

/-- A late check that observed the deadline is a step. -/
theorem exists_of_mem_lateChecks {tr : Trace} {who : Checker} (h : (who, true) ∈ lateChecks tr) :
    ∃ e ∈ tr, e.out = .checked who true := by
  obtain ⟨e, he, hcheck⟩ := List.mem_flatMap.mp h
  refine ⟨e, (List.dropWhile_suffix _).subset he, ?_⟩
  rw [checksOf] at hcheck
  split at hcheck
  · rename_i who' observed hout
    obtain ⟨rfl, hboth⟩ := Prod.mk.inj (List.mem_singleton.mp hcheck)
    rw [hout, (Bool.and_eq_true_iff.mp hboth.symm).1]
  · cases hcheck

/-- When the accept loop checks after the manager has ended, and no forwarder has observed the
deadline, it returns. -/
theorem returned_of_check {s s' : Session} {tr : Trace} {a : SessionAct} {b : Bool}
    (h : machine.Run new tr s) (hman : s.manager ≠ .watch)
    (hs : machine.step s a = some (s', .checked .acceptLoop b))
    (hone : ∀ e ∈ tr, ∀ who, e.out = .checked who true → who = .acceptLoop) :
    s'.acceptLoop = .returned := by
  by_cases hret : s.acceptLoop = .returned
  · exact returned_of_run (.single hs) hret
  have hany : tr.any declares = true := (declared_of_run h hman).resolve_right hret
  cases late_of_run h with
  | before hno =>
    rw [hno] at hany
    cases hany
  | sent _ _ _ hq =>
    generalize ho : SessionOut.checked .acceptLoop b = o at hs
    cases rule_of_step hs with
    | tau | declared => cases ho
    | observed _ _ hend =>
      obtain ⟨rfl, -⟩ := SessionOut.checked.inj ho
      exact of_decide_eq_true hend
    | missed hempty =>
      rw [hq] at hempty
      cases hempty
  | taken who rest _ _ hlate =>
    obtain ⟨e, he, hout⟩ := exists_of_mem_lateChecks (hlate ▸ List.mem_cons_self)
    obtain rfl := hone e he who hout
    refine absurd ((returned_iff_of_run h).mpr (.inr ?_)) hret
    rw [lateCheckers, hlate]
    rfl

end Session

/-! ### One clock -/

/-- Time passes for all, or a task takes a step, or the manager sends. -/
inductive ExpiryAct
  | tick (d : ℕ)
  | manager (a : PipemgrAct)
  | session (a : SessionAct)
  | declare

namespace Expiry

open Watched (isSend isDeclare)

/-- The manager and its session by one clock. -/
def joint : Joint (Timed Pipemgr) (Timed Session) (ClockAct PipemgrAct) (ClockAct SessionAct)
    (Option PipemgrOut) (Option SessionOut) ExpiryAct where
  left
    | .tick d => some (.tick d)
    | .manager a => some (.act a)
    | .session _ => none
    | .declare => some (.act .go)
  right
    | .tick d => some (.tick d)
    | .manager _ => none
    | .session a => some (.act a)
    | .declare => some (.act .declare)
  agree c t _ _ _ :=
    match c with
    | .tick _ => true
    | .manager a => !isSend (.act a) t
    | .session a => !isDeclare a
    | .declare => isSend (.act .go) t

/-- A session with its manager, by one clock. -/
abbrev machine (lag : ℕ) := (Pipemgr.task lag).machine.sync (Session.task lag).machine joint

/-- A new session. -/
def start (now : ℕ) (pipes : MuxPipes) : Timed Pipemgr × Timed Session :=
  (Pipemgr.start now pipes, ⟨now, now, .new⟩)

/-- A recorded step. -/
abbrev Recorded := JointEvent (Timed Pipemgr) (Timed Session) ExpiryAct (Option PipemgrOut)
  (Option SessionOut)

/-- What a step is without the second clock. -/
def act : ExpiryAct → WatchedAct
  | .tick d => .manager (.tick d)
  | .manager a => .manager (.act a)
  | .session a => .session a
  | .declare => .declare

/-- What a state is without the second clock. -/
def state (s : Timed Pipemgr × Timed Session) : Timed Pipemgr × Session := (s.1, s.2.state)

/-- What is observed without the second clock. -/
def out (o : Option (Option PipemgrOut) × Option (Option SessionOut)) :
    Option (Option PipemgrOut) × Option SessionOut := (o.1, o.2.join)

variable {lag now : ℕ} {pipes : MuxPipes} {s s' s₁ s₂ : Timed Pipemgr × Timed Session}
  {tr tr₁ : List Recorded}

theorem watched_of_step {c : ExpiryAct}
    {o : Option (Option PipemgrOut) × Option (Option SessionOut)}
    (h : (machine lag).step s c = some (s', o)) :
    (Watched.machine lag).step (state s) (act c) = some (state s', out o) := by
  obtain ⟨hl, hr, hagree⟩ := Machine.sync_step_iff.mp h
  refine Machine.sync_step_iff.mpr ?_
  have hleft : Watched.joint.left (act c) = joint.left c := by
    cases c with
    | tick | manager | session | declare => rfl
  have hact {a : SessionAct} (hc : joint.right c = some (.act a)) :
      Session.machine.stepOr s.2.state (some a) = some (s'.2.state, o.2.join) := by
    rcases Machine.stepOr_cases hr with ⟨hnone, -, -⟩ | ⟨b, p, hb, ho, hstep⟩
    · rw [hc] at hnone
      cases hnone
    · rw [hc] at hb
      obtain rfl := Option.some.inj hb
      obtain ⟨q, rfl, hq⟩ := TimedTask.step_of_act hstep
      rw [ho]
      exact congrArg (Option.map _) hq
  refine ⟨hleft ▸ hl, ?_, ?_⟩
  · cases c with
    | tick d =>
      rcases Machine.stepOr_cases hr with ⟨hnone, -, -⟩ | ⟨b, p, hb, ho, hstep⟩
      · cases hnone
      · obtain rfl := Option.some.inj hb
        obtain ⟨hsame, rfl⟩ := TimedTask.state_of_tick hstep
        show some (s.2.state, none) = some (s'.2.state, o.2.join)
        rw [hsame, ho]
        rfl
    | manager a =>
      rcases Machine.stepOr_cases hr with ⟨-, ho, hsame⟩ | ⟨b, p, hb, -, -⟩
      · show some (s.2.state, none) = some (s'.2.state, o.2.join)
        rw [hsame, ho]
        rfl
      · cases hb
    | session | declare => exact hact rfl
  · cases c with
    | tick | manager | session | declare => exact hagree

/-- **Without the second clock** a run is one of `Watched.machine`. -/
theorem watched_of_run (h : (machine lag).Run s tr s') :
    (Watched.machine lag).Run (state s) (tr.map (Event.map state act out)) (state s') :=
  h.map fun _ _ _ _ => watched_of_step

theorem watched_of_start (h : (machine lag).Run (start now pipes) tr s) :
    (Watched.machine lag).Run (Watched.start now pipes) (tr.map (Event.map state act out))
      (state s) :=
  watched_of_run h

/-- The session by itself. -/
theorem session_of_run (h : (machine lag).Run (start now pipes) tr s) :
    Session.machine.Run .new (Watched.joint.rightOf (tr.map (Event.map state act out)))
      s.2.state :=
  (watched_of_start h).right

theorem now_of_stepOr {σ α ω : Type} {T : TimedTask σ α ω} {t t' : Timed σ}
    {c : Option (ClockAct α)} {o : Option (Option ω)} (h : T.machine.stepOr t c = some (t', o)) :
    t'.now = t.now + c.elim 0 ClockAct.passes := by
  rcases Machine.stepOr_cases h with ⟨rfl, -, rfl⟩ | ⟨b, p, rfl, -, hstep⟩
  · rfl
  · exact TimedTask.now_of_step hstep

/-- There is one clock. -/
theorem now_eq_of_run (h : (machine lag).Run (start now pipes) tr s) : s.1.now = s.2.now := by
  refine h.invariant (fun s => s.1.now = s.2.now) rfl ?_
  intro s c s' o hs hstep
  obtain ⟨hl, hr, -⟩ := Machine.sync_step_iff.mp hstep
  rw [now_of_stepOr hl, now_of_stepOr hr, hs]
  cases c with
  | tick | manager | session | declare => rfl

/-- What the session does in a step. -/
theorem session_of_step {c : ExpiryAct}
    {o : Option (Option PipemgrOut) × Option (Option SessionOut)} {p : SessionOut}
    (h : (machine lag).step s c = some (s', o)) (ho : o.2 = some (some p)) :
    ∃ a, Session.machine.step s.2.state a = some (s'.2.state, p) ∧ s'.2.now = s.2.now := by
  obtain ⟨-, hr, -⟩ := Machine.sync_step_iff.mp h
  rcases Machine.stepOr_cases hr with ⟨-, hnone, -⟩ | ⟨b, q, -, hq, hstep⟩
  · rw [ho] at hnone
    cases hnone
  · obtain rfl := Option.some.inj (ho.symm.trans hq)
    cases b with
    | tick d =>
      obtain ⟨-, hnone⟩ := TimedTask.state_of_tick hstep
      cases hnone
    | act a =>
      obtain ⟨q, hout, hown⟩ := TimedTask.step_of_act hstep
      obtain rfl := Option.some.inj hout
      exact ⟨a, hown, TimedTask.now_of_step hstep⟩

/-- What adds a pipe without the second clock adds one. -/
theorem add_of_act {c : ExpiryAct} {live : Bool}
    (h : act c = .manager (.act (.others (.add live)))) : c = .manager (.others (.add live)) := by
  cases c with
  | manager a =>
    obtain rfl := ClockAct.act.inj (WatchedAct.manager.inj h)
    rfl
  | tick | session | declare => simp [act] at h

/-- What the session does without the second clock it does in the run. -/
theorem exists_of_mem_session {e : Event Session SessionAct SessionOut}
    (h : e ∈ Watched.joint.rightOf (tr.map (Event.map state act out))) :
    ∃ f ∈ tr, f.out.2 = some (some e.out) := by
  obtain ⟨f', hf', he⟩ := List.mem_flatMap.mp h
  obtain ⟨f, hf, rfl⟩ := List.mem_map.mp hf'
  obtain ⟨-, hout, -, -⟩ := Watched.joint.eq_of_mem_rightEvent he
  exact ⟨f, hf, Option.join_eq_some_iff.mp hout⟩

/-- **A session whose client is gone ends.** From the moment at which no pipe is open, when no pipe
is added and no forwarder observes the deadline, the accept loop has returned once 106 seconds and
what the scheduler may add have passed. -/
theorem ended (h₁ : (machine lag).Run (start now pipes) tr₁ s₁) (hdark : ¬ s₁.1.state.pipes.Lit)
    (h : (machine lag).Run s₁ tr s₂)
    (hadd : ∀ e ∈ tr, ∀ live, e.act ≠ .manager (.others (.add live)))
    (hone : ∀ e ∈ tr₁ ++ tr, ∀ who, e.out.2 = some (some (.checked who true)) → who = .acceptLoop)
    (hlate : s₁.1.now + 106 * second + 10 * lag < s₂.1.now) :
    s₂.2.state.acceptLoop = .returned := by
  by_contra hret
  have hclock₁ := now_eq_of_run h₁
  have hclock₂ := now_eq_of_run (h₁.append h)
  have htime : (Session.task lag).OnTime s₁.2 :=
    TimedTask.onTime_of_run h₁.right (TimedTask.onTime_start _ _)
  have hbusy : Session.stay lag s₂.2.state.acceptLoop ≠ none := by
    cases hpc : s₂.2.state.acceptLoop with
    | returned => exact absurd hpc hret
    | check | accept => exact Option.some_ne_none _
  have hleft (s : Session) : s.untilCheck lag ≤ 5 * second + 2 * lag := by
    unfold Session.untilCheck
    split <;> omega
  rcases (Session.bound_check lag).recurs htime h.right (fun _ _ => trivial) hbusy with
    hfirst | ⟨e, he, ⟨b, hb⟩, hlast⟩
  · have hbound := hleft s₁.2.state
    have hsince := htime.since_le
    omega
  · have hbound := hleft e.post.state
    obtain ⟨f, hf, hef⟩ := List.mem_flatMap.mp he
    obtain ⟨-, hout, -, hpost⟩ := joint.eq_of_mem_rightEvent hef
    obtain ⟨tr₁', tr₂', rfl⟩ := List.append_of_mem hf
    have hbefore := h₁.append h.before
    obtain ⟨a, hs, hnow⟩ := session_of_step h.after.1 (hout.trans (congrArg some hb))
    -- that check is late enough for the manager to have ended before
    have hlate' : s₁.1.now + 101 * second + 8 * lag < f.pre.1.now := by
      rw [now_eq_of_run hbefore]
      rw [← hpost] at hlast hbound
      omega
    have hman : f.pre.2.state.manager ≠ .watch := by
      have hiff := Watched.watch_iff_of_run (watched_of_start hbefore)
      refine fun hwatch => hiff.mp hwatch ?_
      refine Watched.returned_of_dark (watched_of_start h₁) hdark (watched_of_run h.before) ?_
        hlate'
      intro g' hg' live hact
      obtain ⟨g, hg, rfl⟩ := List.mem_map.mp hg'
      exact hadd g (List.mem_append_left _ hg) live (add_of_act hact)
    have hover : f.post.2.state.acceptLoop = .returned := by
      refine Session.returned_of_check (session_of_run hbefore) hman hs ?_
      intro g' hg' who hobserved
      obtain ⟨g, hg, hout'⟩ := exists_of_mem_session hg'
      rw [hobserved] at hout'
      refine hone g ?_ who hout'
      rw [← List.append_assoc]
      exact List.mem_append_left _ hg
    exact hret (Session.returned_of_run (watched_of_run h.after.2).right hover)

/-- A forwarder observes the deadline. -/
def othersObserve : Option (Option PipemgrOut) × Option (Option SessionOut) → Bool
  | (_, some (some (.checked who true))) => who ≠ .acceptLoop
  | _ => false

/-- A scheduler that is late by 101 seconds, and a client whose only pipe is closed. -/
theorem ended_gone :
    ∃ tr s tr' t, (machine (101 * second)).Run (start 0 [true]) tr s ∧
      (machine (101 * second)).Run s tr' t ∧ t.1.now = 1117 * second ∧
      t.2.state.acceptLoop = .returned := by
  obtain ⟨tr, s, tr', t, h, h', hdark, hadd, hone, hnow, hlate⟩ :=
    (machine (101 * second)).exists_runs_of_exec (start 0 [true])
      [.session .check, .manager (.others (.close 0))]
      [.manager .go, .manager .go, .tick (101 * second), .manager .go, .declare, .session .idle,
        .session .check, .tick (1016 * second)]
      (P := fun tr s tr' t => (¬ s.1.state.pipes.Lit) ∧
        (∀ e ∈ tr', Watched.adds (act e.act) = false) ∧
        (∀ e ∈ tr ++ tr', othersObserve e.out = false) ∧ t.1.now = 1117 * second ∧
        s.1.now + 106 * second + 10 * (101 * second) < t.1.now) (by decide)
  refine ⟨tr, s, tr', t, h, h', hnow, ended h hdark h' (fun e he live hact => ?_)
    (fun e he who hout => ?_) hlate⟩
  · have := hadd e he
    rw [hact] at this
    cases this
  · have hno := hone e he
    rw [← Prod.mk.eta (p := e.out), hout] at hno
    by_contra hne
    exact of_decide_eq_false hno hne

end Expiry

end ObfsWs
