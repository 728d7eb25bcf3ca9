import Mathlib.Data.List.TakeWhile
import ObfsWs.Lib.Chan
import ObfsWs.Wsocks.Forward

/-!
# The deadline of a session

`server_session_loop` with its pipe manager, its accept loop and any number of connections, as far
as the deadline goes. The manager sends one value into a channel of capacity one, and the accept
loop and both futures of every forwarding connection poll the same channel. A value is received
once, so one check observes the deadline and the later ones do not.

## Two things that can go wrong

A check that comes after another one misses the deadline, whoever makes it. Besides, there is one
check that must not be made first: if a forwarder takes the value while the accept loop is still
there, the accept loop will never hear of it, and it is the accept loop that holds the mux.
Nothing has been missed yet at that moment, and still the session cannot end any more. So
`DeadlineReachesAll` says both: every check since the declaration has observed it, and the accept
loop, however it goes on by itself, observes it at its next check.

The condition is on single steps. A check after the declaration must be the first one, and must be
one of the accept loop's as long as that has not returned.

## Main definitions

* `Session`, `Session.machine` — a session
* `Session.lateChecks` — the checks made after the manager declared the session dead
* `Session.DeadlineReachesAll` — the deadline reaches everybody
* `Session.OnlyCheck` — a check that nobody else has made and that is made by the right one

## Main results

* `Session.lateChecks_of_run` — the first late check observes the deadline, no other one does
* `Session.deadline_reaches_iff` — when the deadline reaches everybody, and when it reaches the
  accept loop

## What is assumed

The channel is as in `Chan`: one value is received once, and `try_recv` on an empty or closed
channel is an error, which the code takes for "no deadline". When the manager declares the session
dead is chosen by the actions here; `Manager` has its clock. Which connections come, what they do
and how they end is any run of the handlers.
-/

namespace ObfsWs

/-- Where the pipe manager stands. -/
inductive ManagerPc
  /-- It watches the pipes. -/
  | watch
  /-- It has declared the session dead and returned. -/
  | returned
  /-- Its `unwrap` of the send has panicked. -/
  | panicked
  deriving DecidableEq

/-- Where the accept loop stands. -/
inductive AcceptPc
  /-- Before the check of the deadline. -/
  | check
  /-- In `mux.accept_conn()`, with a timeout. -/
  | accept
  /-- It has returned and released the mux. -/
  | returned
  deriving DecidableEq

/-- The handler of a connection. -/
inductive HandlerPc
  /-- Before `tcp_forward_loop`. -/
  | handshake
  | forward (fw : ForwardLoop)
  | done

/-- `server_session_loop`. -/
structure Session where
  /-- `deadline_tx` and all clones of `deadline_rx`. -/
  deadline : Chan Unit Unit
  manager : ManagerPc
  acceptLoop : AcceptPc
  /-- The connections, in the order in which they were accepted. -/
  conns : List HandlerPc

/-- Who checks the deadline. -/
inductive Checker
  | acceptLoop
  | up (conn : ℕ)
  | down (conn : ℕ)
  deriving DecidableEq

/-- The steps of the tasks of a session. -/
inductive SessionAct
  /-- No pipe has been alive for long enough: the manager sends. -/
  | declare
  /-- The accept loop checks the deadline. -/
  | check
  /-- `accept_conn` times out. -/
  | idle
  /-- `accept_conn` returns a connection, and its handler is spawned. -/
  | accept
  /-- `accept_conn` fails. -/
  | acceptFail
  /-- The handler of a connection has offered `id`. -/
  | forwardStart (conn : ℕ) (id : BitVec 128)
  /-- A step of its `tcp_forward_loop`. -/
  | forward (conn : ℕ) (a : ForwardAct) (broken : Bool) (input : List UInt8)
  /-- The handler ends without forwarding. -/
  | handlerEnd (conn : ℕ)

/-- What is observed of a session. -/
inductive SessionOut
  | tau
  /-- The manager has declared the session dead. -/
  | declared
  /-- A check, and whether it observed the deadline. -/
  | checked (who : Checker) (observed : Bool)
  deriving DecidableEq

/-- The check that a step of a forwarding loop makes, and the outcome it assumes. -/
def ForwardAct.checks (conn : ℕ) : ForwardAct → Option (Checker × Bool)
  | .upCheck reached => some (.up conn, reached)
  | .downCheck reached => some (.down conn, reached)
  | _ => none

namespace Session

/-- A new session. -/
def new : Session := ⟨.bounded 1, .watch, .check, []⟩

/-- Some clone of `deadline_rx` is there. -/
def hasReceiver (s : Session) : Bool :=
  s.acceptLoop ≠ .returned || s.conns.any fun c => match c with | .done => false | _ => true

/-- `deadline_rx.try_recv().is_ok()`, and the channel after it. -/
def tryDeadline (s : Session) : Bool × Session :=
  match s.deadline.tryRecv with
  | .ok (_, ch) => (true, { s with deadline := ch })
  | .error _ => (false, s)

def setConn (s : Session) (conn : ℕ) (pc : HandlerPc) : Session :=
  { s with conns := s.conns.set conn pc }

/-- The handler after a step of its loop. -/
def afterForward (next : ForwardLoop.Next) : HandlerPc :=
  match next with
  | .ok fw => .forward fw
  | .error _ => .done

/-- One step. -/
def step (s : Session) : SessionAct → Option (Session × SessionOut)
  | .declare =>
    match s.manager with
    | .watch =>
      -- with no receiver left the channel is closed
      let ch := if s.hasReceiver then s.deadline else s.deadline.close.1
      match ch.trySend () with
      | .ok (ch, _) => some ({ s with deadline := ch.close.1, manager := .returned }, .declared)
      | .error .closed => some ({ s with deadline := ch, manager := .panicked }, .tau)
      | .error .full => none
    | _ => none
  | .check =>
    match s.acceptLoop with
    | .check =>
      let r := s.tryDeadline
      some ({ r.2 with acceptLoop := if r.1 then .returned else .accept },
        .checked .acceptLoop r.1)
    | _ => none
  | .idle =>
    match s.acceptLoop with
    | .accept => some ({ s with acceptLoop := .check }, .tau)
    | _ => none
  | .accept =>
    match s.acceptLoop with
    | .accept =>
      some ({ s with acceptLoop := .check, conns := s.conns ++ [.handshake] }, .tau)
    | _ => none
  | .acceptFail =>
    match s.acceptLoop with
    | .accept => some ({ s with acceptLoop := .returned }, .tau)
    | _ => none
  | .forwardStart conn id =>
    match s.conns[conn]? with
    | some .handshake => some (s.setConn conn (.forward (.start id true)), .tau)
    | _ => none
  | .forward conn a broken input =>
    match s.conns[conn]? with
    | some (.forward fw) =>
      match fw.step broken input a with
      | some (next, _) =>
        match a.checks conn with
        | some (who, reached) =>
          let r := s.tryDeadline
          if r.1 = reached then
            some (r.2.setConn conn (afterForward next), .checked who reached)
          else none
        | none => some (s.setConn conn (afterForward next), .tau)
      | none => none
    | _ => none
  | .handlerEnd conn =>
    match s.conns[conn]? with
    | some .handshake => some (s.setConn conn .done, .tau)
    | _ => none

/-- The loop that `who` belongs to has ended. -/
def ended (s : Session) : Checker → Bool
  | .acceptLoop => s.acceptLoop = .returned
  | .up conn | .down conn => s.conns[conn]?.any fun c => match c with | .done => true | _ => false

/-- The session as a machine. -/
def machine : Machine Session SessionAct SessionOut := ⟨step⟩

/-! ### What a step does to the deadline

Of a session only three things matter here: the channel, whether the manager has declared, and who
has made a check. A step leaves all of them alone, or declares, or checks. The rule has these
cases and forgets everything that a handler does besides. -/

/-- What a step can be, as far as the deadline goes. -/
inductive Rule (s : Session) : SessionOut → Session → Prop
  | tau {s' : Session} : s'.deadline.queue = s.deadline.queue →
      (s.manager ≠ .watch → s'.manager ≠ .watch) → Rule s .tau s'
  | declared {s' : Session} : s.manager = .watch →
      s'.deadline.queue = s.deadline.queue ++ [()] → s'.manager ≠ .watch → Rule s .declared s'
  | observed {who : Checker} {s' : Session} : s.deadline.queue = () :: s'.deadline.queue →
      s'.manager = s.manager → s'.ended who = true → Rule s (.checked who true) s'
  | missed {who : Checker} {s' : Session} : s.deadline.queue = [] → s'.deadline.queue = [] →
      s'.manager = s.manager → Rule s (.checked who false) s'

/-- A check takes the value when it is there. -/
theorem tryDeadline_cases (s : Session) :
    (s.tryDeadline.1 = true ∧ s.deadline.queue = () :: s.tryDeadline.2.deadline.queue ∧
      s.tryDeadline.2.manager = s.manager) ∨
    (s.tryDeadline.1 = false ∧ s.deadline.queue = [] ∧ s.tryDeadline.2 = s) := by
  rw [tryDeadline]
  rcases hr : s.deadline.tryRecv with e | ⟨u, ch⟩
  · exact .inr ⟨rfl, (Chan.tryRecv_error_iff.mp hr).1, rfl⟩
  · exact .inl ⟨rfl, (Chan.tryRecv_ok hr).1, rfl⟩

/-- A check that leaves its outcome in the rest of the state. -/
theorem rule_check {s s' : Session} {who : Checker}
    (hch : s'.deadline = s.tryDeadline.2.deadline) (hman : s'.manager = s.tryDeadline.2.manager)
    (hend : s.tryDeadline.1 = true → s'.ended who = true) :
    Rule s (.checked who s.tryDeadline.1) s' := by
  rcases s.tryDeadline_cases with ⟨ht, hq, hm⟩ | ⟨hf, hq, hs⟩
  · rw [ht]
    refine .observed ?_ (hman.trans hm) (hend ht)
    rw [hch, hq]
  · rw [hf]
    rw [hs] at hch hman
    exact .missed hq (by rw [hch, hq]) hman

/-- A forwarding loop that observes the deadline ends. -/
theorem exit_of_checks {fw : ForwardLoop} {a : ForwardAct} {conn : ℕ} {who : Checker}
    {broken : Bool} {input : List UInt8} {next : ForwardLoop.Next} {e : Effect Obs}
    (ha : a.checks conn = some (who, true)) (h : fw.step broken input a = some (next, e)) :
    (who = .up conn ∨ who = .down conn) ∧ afterForward next = .done := by
  cases a with
  | upCheck reached =>
    obtain ⟨rfl, rfl⟩ := Machine.next_inj ha
    refine ⟨.inl rfl, ?_⟩
    simp only [ForwardLoop.step] at h
    split at h
    · obtain ⟨rfl, -⟩ := Machine.next_inj h
      rfl
    · contradiction
    · cases h
  | downCheck reached =>
    obtain ⟨rfl, rfl⟩ := Machine.next_inj ha
    refine ⟨.inr rfl, ?_⟩
    simp only [ForwardLoop.step] at h
    split at h
    · obtain ⟨rfl, -⟩ := Machine.next_inj h
      rfl
    · contradiction
    · cases h
  | _ => cases ha

theorem ended_setConn {s : Session} {conn : ℕ} {who : Checker} (hlt : conn < s.conns.length)
    (hwho : who = .up conn ∨ who = .down conn) : (s.setConn conn .done).ended who = true := by
  have hget : (s.setConn conn .done).conns[conn]? = some .done := List.getElem?_set_self hlt
  rcases hwho with rfl | rfl
  · rw [ended, hget]
    rfl
  · rw [ended, hget]
    rfl

@[simp] theorem conns_tryDeadline (s : Session) : s.tryDeadline.2.conns = s.conns := by
  rw [tryDeadline]
  split
  · rfl
  · rfl

theorem rule_of_step {s s' : Session} {a : SessionAct} {o : SessionOut}
    (h : machine.step s a = some (s', o)) : Rule s o s' := by
  replace h : s.step a = some (s', o) := h
  cases a with
  | declare =>
    simp only [step] at h
    split at h
    · rename_i hm
      have hq : (if s.hasReceiver then s.deadline else s.deadline.close.1).queue =
          s.deadline.queue := by
        split
        · rfl
        · rfl
      split at h
      · rename_i ch _ hsend
        obtain ⟨rfl, rfl⟩ := Machine.next_inj h
        refine .declared hm ?_ (by simp)
        rw [← hq]
        exact (Chan.trySend_ok hsend).2.2.1
      · obtain ⟨rfl, rfl⟩ := Machine.next_inj h
        exact .tau hq fun _ => by simp
      · cases h
    · cases h
  | check =>
    simp only [step] at h
    split at h
    · obtain ⟨rfl, rfl⟩ := Machine.next_inj h
      refine rule_check rfl rfl fun ht => ?_
      rw [ht]
      rfl
    · cases h
  | forward conn a broken input =>
    simp only [step] at h
    split at h
    · rename_i hconn
      split at h
      · rename_i hfw
        split at h
        · rename_i hchecks
          split at h
          · rename_i hreached
            subst hreached
            obtain ⟨rfl, rfl⟩ := Machine.next_inj h
            refine rule_check rfl rfl fun ht => ?_
            rw [ht] at hchecks
            obtain ⟨hwho, hdone⟩ := exit_of_checks hchecks hfw
            rw [hdone]
            refine ended_setConn ?_ hwho
            rw [conns_tryDeadline]
            exact (List.getElem?_eq_some_iff.mp hconn).1
          · cases h
        · obtain ⟨rfl, rfl⟩ := Machine.next_inj h
          exact .tau rfl id
      · cases h
    · cases h
  | idle | accept | acceptFail | forwardStart | handlerEnd =>
    simp only [step] at h
    split at h
    · obtain ⟨rfl, rfl⟩ := Machine.next_inj h
      exact .tau rfl id
    · cases h

/-! ### The accept loop

The accept loop's own steps are few, and everything it does between two checks is one of them.
That it goes on by itself means a run of its own steps, in which no connection and no manager
takes part. -/

/-- The step is one of the accept loop. -/
def isAcceptLoops : SessionAct → Bool
  | .check | .idle | .accept | .acceptFail => true
  | .declare | .forwardStart _ _ | .forward _ _ _ _ | .handlerEnd _ => false

@[simp] theorem acceptLoop_tryDeadline (s : Session) :
    s.tryDeadline.2.acceptLoop = s.acceptLoop := by
  rw [tryDeadline]
  split
  · rfl
  · rfl

@[simp] theorem manager_tryDeadline (s : Session) : s.tryDeadline.2.manager = s.manager := by
  rw [tryDeadline]
  split
  · rfl
  · rfl

section

variable {s s' : Session}

/-- What the steps of the other tasks leave as it is. -/
structure Frame (s s' : Session) (a : SessionAct) : Prop where
  manager : a ≠ .declare → s'.manager = s.manager
  acceptLoop : a ≠ .check → a ≠ .idle → a ≠ .accept → a ≠ .acceptFail →
    s'.acceptLoop = s.acceptLoop

theorem frame_of_step {a : SessionAct} {o : SessionOut} (h : machine.step s a = some (s', o)) :
    Frame s s' a := by
  replace h : s.step a = some (s', o) := h
  cases a with
  | declare =>
    refine ⟨fun hne => absurd rfl hne, fun _ _ _ _ => ?_⟩
    simp only [step] at h
    split at h
    · split at h
      · obtain ⟨rfl, -⟩ := Machine.next_inj h
        rfl
      · obtain ⟨rfl, -⟩ := Machine.next_inj h
        rfl
      · cases h
    · cases h
  | check =>
    refine ⟨fun _ => ?_, fun hne => absurd rfl hne⟩
    simp only [step] at h
    split at h
    · obtain ⟨rfl, -⟩ := Machine.next_inj h
      exact manager_tryDeadline s
    · cases h
  | forward conn a broken input =>
    simp only [step] at h
    split at h
    · split at h
      · split at h
        · split at h
          · obtain ⟨rfl, -⟩ := Machine.next_inj h
            exact ⟨fun _ => manager_tryDeadline s, fun _ _ _ _ => acceptLoop_tryDeadline s⟩
          · cases h
        · obtain ⟨rfl, -⟩ := Machine.next_inj h
          exact ⟨fun _ => rfl, fun _ _ _ _ => rfl⟩
      · cases h
    · cases h
  | idle | accept | acceptFail | forwardStart | handlerEnd =>
    simp only [step] at h
    split at h
    · obtain ⟨rfl, -⟩ := Machine.next_inj h
      exact ⟨fun _ => rfl, by simp [setConn]⟩
    · cases h

theorem acceptLoop_of_others {a : SessionAct} {o : SessionOut}
    (h : machine.step s a = some (s', o)) (ha : isAcceptLoops a = false) :
    s'.acceptLoop = s.acceptLoop := by
  refine (frame_of_step h).acceptLoop ?_ ?_ ?_ ?_
  all_goals
    rintro rfl
    cases ha

/-- An accept loop that has returned stays returned. -/
theorem returned_of_step {a : SessionAct} {o : SessionOut} (h : machine.step s a = some (s', o))
    (hret : s.acceptLoop = .returned) : s'.acceptLoop = .returned := by
  cases ha : isAcceptLoops a with
  | false => rw [acceptLoop_of_others h ha, hret]
  | true =>
    replace h : s.step a = some (s', o) := h
    cases a with
    | check | idle | accept | acceptFail => simp [step, hret] at h
    | declare | forwardStart | forward | handlerEnd => cases ha

theorem returned_of_run {tr : List (Event Session SessionAct SessionOut)}
    (h : machine.Run s tr s') (hret : s.acceptLoop = .returned) : s'.acceptLoop = .returned :=
  h.invariant (fun t => t.acceptLoop = .returned) hret fun _ _ _ _ ht hs => returned_of_step hs ht

end

/-! ### The checks after the declaration

Before the declaration the channel is empty, and every check finds it so. At the declaration it
holds the one value. The first check after that takes it, and from then on it is empty again, for
good: the manager sends once. `Late` is this as an invariant, in three states. -/

/-- A recorded run of a session. -/
abbrev Trace := List (Event Session SessionAct SessionOut)

/-- The manager declared the session dead in this step. -/
def declares (e : Event Session SessionAct SessionOut) : Bool := e.out = .declared

/-- The check made in a step, and whether it observed the deadline and ended its loop. -/
def checksOf (e : Event Session SessionAct SessionOut) : List (Checker × Bool) :=
  match e.out with
  | .checked who observed => [(who, observed && e.post.ended who)]
  | _ => []

/-- The checks made after the manager declared the session dead, in order. -/
def lateChecks (tr : Trace) : List (Checker × Bool) :=
  (tr.dropWhile fun e => !declares e).flatMap checksOf

theorem not_declares_of_mem {tr : Trace} (h : tr.any declares = false)
    {e : Event Session SessionAct SessionOut} (he : e ∈ tr) : (!declares e) = true := by
  have hne := List.any_eq_false.mp h e he
  simpa using hne

theorem lateChecks_of_not_declared {tr : Trace} (h : tr.any declares = false) :
    lateChecks tr = [] := by
  have hall : ∀ e ∈ tr, (!declares e) = true := fun _ he => not_declares_of_mem h he
  rw [lateChecks, List.dropWhile_eq_nil_iff.mpr hall, List.flatMap_nil]

theorem lateChecks_snoc {tr : Trace} (h : tr.any declares = true)
    (e : Event Session SessionAct SessionOut) :
    lateChecks (tr ++ [e]) = lateChecks tr ++ checksOf e := by
  have hne : ((tr.dropWhile fun e => !declares e).isEmpty) = false := by
    rw [List.isEmpty_eq_false_iff, Ne, List.dropWhile_eq_nil_iff]
    intro hall
    obtain ⟨e', he', hd⟩ := List.any_eq_true.mp h
    have := hall e' he'
    rw [hd] at this
    cases this
  rw [lateChecks, List.dropWhile_append, hne, lateChecks]
  simp

theorem lateChecks_declared {tr : Trace} (h : tr.any declares = false)
    {e : Event Session SessionAct SessionOut} (he : e.out = .declared) :
    lateChecks (tr ++ [e]) = [] := by
  have hall : ∀ e ∈ tr, (!declares e) = true := fun _ he => not_declares_of_mem h he
  rw [lateChecks, List.dropWhile_append_of_pos hall]
  have hd : declares e = true := decide_eq_true he
  simp [hd, checksOf, he]

/-- The state of the channel, told by the checks. -/
inductive Late (tr : Trace) (s : Session) : Prop
  /-- The session is not declared dead. -/
  | before : tr.any declares = false → s.deadline.queue = [] → Late tr s
  /-- It is, and nobody has checked since. -/
  | sent : tr.any declares = true → s.manager ≠ .watch → lateChecks tr = [] →
      s.deadline.queue = [()] → Late tr s
  /-- One check has observed it. -/
  | taken (who : Checker) (rest : List (Checker × Bool)) : tr.any declares = true →
      s.manager ≠ .watch → lateChecks tr = (who, true) :: rest → (∀ c ∈ rest, c.2 = false) →
      s.deadline.queue = [] → Late tr s

theorem any_declares_snoc (tr : Trace) (e : Event Session SessionAct SessionOut) :
    (tr ++ [e]).any declares = (tr.any declares || declares e) := by
  simp

theorem Late.step {tr : Trace} {s s' : Session} {a : SessionAct} {o : SessionOut}
    (h : Late tr s) (hr : Rule s o s') : Late (tr ++ [⟨s, a, o, s'⟩]) s' := by
  cases h with
  | before hno hq =>
    cases hr with
    | tau hq' _ =>
      refine .before ?_ (hq'.trans hq)
      rw [any_declares_snoc, hno]
      rfl
    | declared _ hq' hm' =>
      refine .sent ?_ hm' (lateChecks_declared hno rfl) ?_
      · rw [any_declares_snoc, hno]
        rfl
      · rw [hq', hq]
        rfl
    | observed hq' _ =>
      rw [hq] at hq'
      cases hq'
    | missed _ hq' _ =>
      refine .before ?_ hq'
      rw [any_declares_snoc, hno]
      rfl
  | sent hd hm hnone hq =>
    have hd' : (tr ++ [(⟨s, a, o, s'⟩ : Event _ _ _)]).any declares = true := by
      rw [any_declares_snoc, hd]
      rfl
    cases hr with
    | tau hq' hm' =>
      refine .sent hd' (hm' hm) ?_ (hq'.trans hq)
      rw [lateChecks_snoc hd, hnone]
      rfl
    | declared hw => exact absurd hw hm
    | @observed who _ hq' hm' hend =>
      rw [hq] at hq'
      refine .taken who [] hd' (hm'.symm ▸ hm) ?_ (fun _ hc => absurd hc List.not_mem_nil)
        (List.cons.inj hq').2.symm
      rw [lateChecks_snoc hd, hnone]
      show [(who, true && s'.ended who)] = _
      rw [hend]
      rfl
    | missed hq' =>
      rw [hq] at hq'
      cases hq'
  | taken who rest hd hm hlate hrest hq =>
    have hd' : (tr ++ [(⟨s, a, o, s'⟩ : Event _ _ _)]).any declares = true := by
      rw [any_declares_snoc, hd]
      rfl
    cases hr with
    | tau hq' hm' =>
      refine .taken who rest hd' (hm' hm) ?_ hrest (hq'.trans hq)
      rw [lateChecks_snoc hd, hlate]
      exact List.append_nil _
    | declared hw => exact absurd hw hm
    | observed hq' _ =>
      rw [hq] at hq'
      cases hq'
    | @missed who' _ _ hq' hm' =>
      refine .taken who (rest ++ [(who', false)]) hd' (hm'.symm ▸ hm) ?_ ?_ hq'
      · rw [lateChecks_snoc hd, hlate]
        rfl
      · intro c hc
        rcases List.mem_append.mp hc with hc | hc
        · exact hrest c hc
        · rw [List.mem_singleton.mp hc]

/-- **The value is received once.** -/
theorem late_of_run {tr : Trace} {s : Session} (h : machine.Run new tr s) : Late tr s :=
  h.induct Late (.before rfl rfl) fun _ _ _ _ _ _ hi hs => hi.step (rule_of_step hs)

/-- Of the late checks the first observes the deadline and no other one does. -/
theorem lateChecks_of_run {tr : Trace} {s : Session} (h : machine.Run new tr s) :
    lateChecks tr = [] ∨
      ∃ who rest, lateChecks tr = (who, true) :: rest ∧ ∀ c ∈ rest, c.2 = false := by
  cases late_of_run h with
  | before hno => exact .inl (lateChecks_of_not_declared hno)
  | sent _ _ hnone => exact .inl hnone
  | taken who rest _ _ hlate hrest => exact .inr ⟨who, rest, hlate, hrest⟩

/-! ### Whom the deadline reaches

All late checks observe the deadline exactly when there is at most one of them. That is a count
and not yet a condition on the order, since the one check may be anybody's. -/

/-- Every check after the declaration observes the deadline and ends its loop. -/
def DeadlineReaches (tr : Trace) : Prop := ∀ c ∈ lateChecks tr, c.2 = true

/-- Every check of the accept loop after the declaration does. -/
def DeadlineReachesAccept (tr : Trace) : Prop :=
  ∀ c ∈ lateChecks tr, c.1 = .acceptLoop → c.2 = true

/-- Who checks after the declaration, in order. -/
def lateCheckers (tr : Trace) : List Checker := (lateChecks tr).map Prod.fst

theorem deadlineReaches_iff {tr : Trace} {s : Session} (h : machine.Run new tr s) :
    DeadlineReaches tr ↔ (lateCheckers tr).length ≤ 1 := by
  rw [DeadlineReaches, lateCheckers, List.length_map]
  rcases lateChecks_of_run h with hnone | ⟨who, rest, hlate, hrest⟩
  · rw [hnone]
    simp
  · rw [hlate]
    constructor
    · intro hall
      rcases rest with _ | ⟨c, rest⟩
      · exact le_rfl
      · have htrue := hall c (List.mem_cons_of_mem _ List.mem_cons_self)
        rw [hrest c List.mem_cons_self] at htrue
        cases htrue
    · intro hlen c hc
      obtain rfl : rest = [] := by
        rw [List.length_cons] at hlen
        exact List.eq_nil_of_length_eq_zero (by omega)
      rw [List.mem_singleton.mp hc]

theorem deadlineReachesAccept_iff {tr : Trace} {s : Session} (h : machine.Run new tr s) :
    DeadlineReachesAccept tr ↔ Checker.acceptLoop ∉ (lateCheckers tr).tail := by
  rw [DeadlineReachesAccept, lateCheckers]
  rcases lateChecks_of_run h with hnone | ⟨who, rest, hlate, hrest⟩
  · rw [hnone]
    simp
  · rw [hlate, List.map_cons, List.tail_cons]
    constructor
    · intro hall hmem
      obtain ⟨c, hc, hacc⟩ := List.mem_map.mp hmem
      have htrue := hall c (List.mem_cons_of_mem _ hc) hacc
      rw [hrest c hc] at htrue
      cases htrue
    · intro hnot c hmem hacc
      rcases List.mem_cons.mp hmem with rfl | hmem
      · rfl
      · exact absurd (List.mem_map.mpr ⟨c, hmem, hacc⟩) hnot

/-! ### When the accept loop can still see the deadline

The accept loop sees the deadline as long as the value is in the channel, and does not need to
once it has returned. So the property of the whole session is kept in two ways only, `Kept`, and a
step keeps it exactly under the condition of `OnlyCheck`. -/

/-- Nothing keeps the accept loop from seeing the deadline: whenever it has checked since the
declaration, and however it goes on by itself, it observes it. -/
def AcceptSees (tr : Trace) (s : Session) : Prop :=
  ∀ tr' s', machine.Run s tr' s' → (∀ e ∈ tr', isAcceptLoops e.act = true) →
    DeadlineReachesAccept (tr ++ tr')

/-- The deadline has reached everybody who has checked, and the accept loop can still see it. -/
def DeadlineReachesAll (tr : Trace) (s : Session) : Prop := DeadlineReaches tr ∧ AcceptSees tr s

/-- Nobody has checked since the declaration, or one check has been made and the accept loop has
returned. -/
def Kept (tr : Trace) (s : Session) : Prop :=
  lateCheckers tr = [] ∨ ∃ who, lateCheckers tr = [who] ∧ s.acceptLoop = .returned

/-- Who checks in a step. -/
def checkerOf (o : SessionOut) : List Checker :=
  match o with
  | .checked who _ => [who]
  | _ => []

theorem lateCheckers_snoc {tr : Trace} (h : tr.any declares = true) {s s' : Session}
    {a : SessionAct} {o : SessionOut} :
    lateCheckers (tr ++ [⟨s, a, o, s'⟩]) = lateCheckers tr ++ checkerOf o := by
  rw [lateCheckers, lateChecks_snoc h, List.map_append, lateCheckers]
  cases o with
  | tau | declared => rfl
  | checked who observed => rfl

/-- Before the declaration no check is late. -/
theorem lateCheckers_of_not_declared {tr : Trace} (h : tr.any declares = false) {s s' : Session}
    {a : SessionAct} {o : SessionOut} : lateCheckers (tr ++ [⟨s, a, o, s'⟩]) = [] := by
  rw [lateCheckers]
  by_cases ho : o = .declared
  · rw [lateChecks_declared h ho, List.map_nil]
  · have hnone : (tr ++ [(⟨s, a, o, s'⟩ : Event _ _ _)]).any declares = false := by
      rw [List.any_append, h, List.any_cons, List.any_nil, declares]
      simp [ho]
    rw [lateChecks_of_not_declared hnone, List.map_nil]

/-- Once a check has been late the session has been declared dead. -/
theorem any_declares_of_lateCheckers {tr : Trace} (h : lateCheckers tr ≠ []) :
    tr.any declares = true := by
  by_contra hno
  rw [lateCheckers, lateChecks_of_not_declared (Bool.eq_false_iff.mpr hno)] at h
  exact h rfl

/-- Who would check in this step. -/
def checker (a : SessionAct) : Option Checker :=
  match a with
  | .check => some .acceptLoop
  | .forward conn a _ _ => (a.checks conn).map Prod.fst
  | _ => none

/-- A step checks when it is one of those. -/
theorem checkerOf_of_step {s s' : Session} {a : SessionAct} {o : SessionOut}
    (h : machine.step s a = some (s', o)) : checkerOf o = (checker a).toList := by
  replace h : s.step a = some (s', o) := h
  cases a with
  | declare =>
    simp only [step] at h
    split at h
    · split at h
      · cases h
        rfl
      · cases h
        rfl
      · cases h
    · cases h
  | forward conn a broken input =>
    simp only [step] at h
    split at h
    · split at h
      · split at h
        · rename_i hchecks
          split at h
          · cases h
            simp [checkerOf, checker, hchecks]
          · cases h
        · rename_i hchecks
          cases h
          simp [checkerOf, checker, hchecks]
      · cases h
    · cases h
  | check | idle | accept | acceptFail | forwardStart | handlerEnd =>
    simp only [step] at h
    split at h
    · cases h
      rfl
    · cases h

/-- A check that is made in this step, after the declaration, is the first one, and it is made by
the accept loop or when that has returned. -/
def OnlyCheck (tr : Trace) (e : Event Session SessionAct SessionOut) : Prop :=
  ∀ who, checker e.act = some who → tr.any declares = true →
    lateCheckers tr = [] ∧ (who = .acceptLoop ∨ e.pre.acceptLoop = .returned)

/-- The first late check observes the deadline. If it is the accept loop's, that returns. -/
theorem returned_of_first {tr : Trace} {s s' : Session} {a : SessionAct} {o : SessionOut}
    (hr : machine.Run new tr s) (hd : tr.any declares = true) (hfirst : lateCheckers tr = [])
    (hs : machine.step s a = some (s', o)) (ha : checker a = some .acceptLoop) :
    s'.acceptLoop = .returned := by
  have hout := checkerOf_of_step hs
  rw [ha] at hout
  cases late_of_run hr with
  | before hno =>
    rw [hno] at hd
    cases hd
  | taken who rest _ _ hlate =>
    rw [lateCheckers, hlate] at hfirst
    cases hfirst
  | sent _ _ _ hq =>
    cases rule_of_step hs with
    | tau | declared => cases hout
    | observed _ _ hend =>
      obtain rfl := List.singleton_inj.mp hout
      exact of_decide_eq_true hend
    | missed hempty =>
      rw [hq] at hempty
      cases hempty

/-- The steps of the accept loop in which it checks. -/
theorem eq_of_checker {a : SessionAct} {who : Checker} (hwho : checker a = some who)
    (ha : isAcceptLoops a = true) : who = .acceptLoop := by
  cases a with
  | check => exact (Option.some.inj hwho).symm
  | idle | accept | acceptFail => cases hwho
  | declare | forwardStart | forward | handlerEnd => cases ha

/-- **One step.** -/
theorem kept_step {tr : Trace} {s s' : Session} {a : SessionAct} {o : SessionOut}
    (hr : machine.Run new tr s) (h : Kept tr s) (hs : machine.step s a = some (s', o)) :
    Kept (tr ++ [⟨s, a, o, s'⟩]) s' ↔ OnlyCheck tr ⟨s, a, o, s'⟩ := by
  cases hd : tr.any declares with
  | false =>
    refine iff_of_true (.inl (lateCheckers_of_not_declared hd)) fun who _ hd' => ?_
    rw [hd] at hd'
    cases hd'
  | true =>
    rw [Kept, lateCheckers_snoc hd, checkerOf_of_step hs]
    have hstays := returned_of_step hs
    cases hwho : checker a with
    | none =>
      rw [Option.toList_none, List.append_nil]
      refine iff_of_true ?_ fun who hw => ?_
      · exact h.imp_right fun ⟨who, hone, hret⟩ => ⟨who, hone, hstays hret⟩
      · rw [hwho] at hw
        cases hw
    | some who =>
      rw [Option.toList_some]
      constructor
      · rintro (hnone | ⟨who', hone, hret⟩) w hw -
        · simp at hnone
        · obtain rfl := Option.some.inj (hwho.symm.trans hw)
          have hfirst : lateCheckers tr = [] := by
            refine List.eq_nil_of_length_eq_zero ?_
            simpa using congrArg List.length hone
          refine ⟨hfirst, ?_⟩
          cases ha : isAcceptLoops a with
          | true => exact .inl (eq_of_checker hwho ha)
          | false =>
            right
            rwa [acceptLoop_of_others hs ha] at hret
      · intro honly
        obtain ⟨hfirst, hcan⟩ := honly who hwho hd
        refine .inr ⟨who, by rw [hfirst, List.nil_append], ?_⟩
        rcases hcan with rfl | hret
        · exact returned_of_first hr hd hfirst hs hwho
        · exact hstays hret

/-- What the accept loop does by itself keeps it. -/
theorem Kept.alone {tr : Trace} {s s' : Session} {a : SessionAct} {o : SessionOut}
    (hr : machine.Run new tr s) (h : Kept tr s) (hs : machine.step s a = some (s', o))
    (ha : isAcceptLoops a = true) : Kept (tr ++ [⟨s, a, o, s'⟩]) s' := by
  refine (kept_step hr h hs).mpr fun who hwho _ => ?_
  rcases h with hnone | ⟨_, -, hret⟩
  · exact ⟨hnone, .inl (eq_of_checker hwho ha)⟩
  · -- an accept loop that has returned does nothing
    replace hs : s.step a = some (s', o) := hs
    cases a with
    | check | idle | accept | acceptFail => simp [step, hret] at hs
    | declare | forwardStart | forward | handlerEnd => cases ha

theorem Kept.run {tr tr' : Trace} {s s' : Session} (hr : machine.Run new tr s) (h : Kept tr s)
    (hr' : machine.Run s tr' s') (ha : ∀ e ∈ tr', isAcceptLoops e.act = true) :
    Kept (tr ++ tr') s' := by
  refine hr'.induct (fun tr' s' => (∀ e ∈ tr', isAcceptLoops e.act = true) → Kept (tr ++ tr') s')
    (fun _ => by rwa [List.append_nil]) ?_ ha
  intro tr' t a t' o hrun ih hs ha
  rw [← List.append_assoc]
  refine (ih fun e he => ha e (List.mem_append_left _ he)).alone (hr.append hrun) hs ?_
  exact ha _ (List.mem_append_right _ (List.mem_singleton_self _))

/-- An accept loop that has not returned checks next, by itself. -/
theorem exists_check {s : Session} (h : s.acceptLoop ≠ .returned) :
    ∃ tr s', machine.Run s tr s' ∧ (∀ e ∈ tr, isAcceptLoops e.act = true) ∧
      tr.flatMap (fun e => checkerOf e.out) = [.acceptLoop] := by
  cases hpc : s.acceptLoop with
  | returned => exact absurd hpc h
  | check =>
    have hs : machine.step s .check = some ({ s.tryDeadline.2 with
        acceptLoop := if s.tryDeadline.1 then .returned else .accept },
        .checked .acceptLoop s.tryDeadline.1) := by
      simp [machine, step, hpc]
    refine ⟨_, _, .single hs, fun e he => ?_, rfl⟩
    rw [List.mem_singleton.mp he]
    rfl
  | accept =>
    have hidle : machine.step s .idle = some ({ s with acceptLoop := .check }, .tau) := by
      simp [machine, step, hpc]
    have hs : machine.step { s with acceptLoop := .check } .check =
        some ({ (tryDeadline { s with acceptLoop := .check }).2 with
          acceptLoop := if (tryDeadline { s with acceptLoop := .check }).1 then .returned
            else .accept },
          .checked .acceptLoop (tryDeadline { s with acceptLoop := .check }).1) := rfl
    refine ⟨_, _, (Machine.Run.single hidle).append (.single hs), fun e he => ?_, rfl⟩
    rcases List.mem_append.mp he with he | he
    · rw [List.mem_singleton.mp he]
      rfl
    · rw [List.mem_singleton.mp he]
      rfl

theorem lateCheckers_append {tr : Trace} (h : tr.any declares = true) (tr' : Trace) :
    lateCheckers (tr ++ tr') = lateCheckers tr ++ tr'.flatMap fun e => checkerOf e.out := by
  induction tr' using List.reverseRecOn with
  | nil => simp
  | append_singleton tr' e ih =>
    have hd : (tr ++ tr').any declares = true := by
      rw [List.any_append, h, Bool.true_or]
    rw [← List.append_assoc, lateCheckers_snoc hd, ih, List.flatMap_append,
      List.flatMap_singleton, List.append_assoc]

/-- When the deadline has reached everybody, told by who has checked. -/
theorem deadlineReachesAll_iff {tr : Trace} {s : Session} (h : machine.Run new tr s) :
    DeadlineReachesAll tr s ↔ Kept tr s := by
  constructor
  · rintro ⟨hall, hsees⟩
    have hlen := (deadlineReaches_iff h).mp hall
    rcases hlate : lateCheckers tr with _ | ⟨who, rest⟩
    · exact .inl hlate
    · rw [hlate, List.length_cons] at hlen
      obtain rfl : rest = [] := List.eq_nil_of_length_eq_zero (by omega)
      refine .inr ⟨who, hlate, ?_⟩
      -- else the accept loop checks next, and misses the deadline
      by_contra hret
      obtain ⟨tr', s', hrun, ha, hchecks⟩ := exists_check hret
      have hd := any_declares_of_lateCheckers (hlate ▸ List.cons_ne_nil _ _)
      have hsecond := (deadlineReachesAccept_iff (h.append hrun)).mp (hsees tr' s' hrun ha)
      rw [lateCheckers_append hd, hlate, hchecks] at hsecond
      exact hsecond (List.mem_singleton_self _)
  · intro hkept
    refine ⟨(deadlineReaches_iff h).mpr ?_, fun tr' s' hrun ha => ?_⟩
    · rcases hkept with hnone | ⟨who, hone, -⟩
      · rw [hnone]
        exact Nat.zero_le _
      · rw [hone]
        exact le_rfl
    · refine (deadlineReachesAccept_iff (h.append hrun)).mpr ?_
      rcases hkept.run h hrun ha with hnone | ⟨who, hone, -⟩
      · rw [hnone]
        exact List.not_mem_nil
      · rw [hone]
        exact List.not_mem_nil

/-- **When the deadline reaches everybody.** At every moment of a run the deadline has reached
everybody who has checked since the declaration and the accept loop can still see it, exactly when
no check is made after the declaration but one, and that is made by the accept loop, or when the
accept loop has returned. -/
theorem deadline_reaches_iff {tr : Trace} {s : Session} (h : machine.Run new tr s) :
    machine.Always new DeadlineReachesAll tr ↔
      ∀ tr₁ e tr₂, tr = tr₁ ++ e :: tr₂ → OnlyCheck tr₁ e := by
  refine h.always_iff_history ?_ fun tr s a s' o hr hreach hs => ?_
  · exact (deadlineReachesAll_iff .nil).mpr (.inl rfl)
  · rw [deadlineReachesAll_iff (hr.snoc hs)]
    exact kept_step hr ((deadlineReachesAll_iff hr).mp hreach) hs

/-- One connection forwards, the session is declared dead, and the accept loop checks first. -/
theorem deadline_reaches_iff_first :
    ∃ tr s, machine.Run new tr s ∧
      tr.map Event.act = [.check, .accept, .forwardStart 0 7, .declare, .check] ∧
      lateCheckers tr = [.acceptLoop] ∧ s.acceptLoop = .returned ∧
      machine.Always new DeadlineReachesAll tr := by
  obtain ⟨tr, s, hrun, hacts, hlate, hret, hchecks⟩ :=
    Machine.exists_run_of_exec machine new
      [.check, .accept, .forwardStart 0 7, .declare, .check]
      (P := fun tr s => lateCheckers tr = [.acceptLoop] ∧ s.acceptLoop = .returned ∧
        ∀ e ∈ tr, checker e.act ≠ none → checker e.act = some .acceptLoop) (by decide)
  refine ⟨tr, s, hrun, hacts, hlate, hret, (deadline_reaches_iff hrun).mpr ?_⟩
  rintro tr₁ e tr₂ rfl who hwho hd
  obtain rfl : who = .acceptLoop := by
    have := hchecks e (by simp) (by simp [hwho])
    exact Option.some.inj (hwho.symm.trans this)
  refine ⟨?_, .inl rfl⟩
  -- there is one late check, and it is this one
  rw [show tr₁ ++ e :: tr₂ = (tr₁ ++ [e]) ++ tr₂ by simp] at hlate
  have hd' : (tr₁ ++ [e]).any declares = true := by
    rw [List.any_append, hd, Bool.true_or]
  rw [lateCheckers_append hd', lateCheckers_append hd, List.flatMap_singleton,
    checkerOf_of_step hrun.after.1, hwho] at hlate
  have := congrArg List.length hlate
  refine List.eq_nil_of_length_eq_zero ?_
  simp only [Option.toList_some, List.length_append, List.length_singleton] at this
  omega

/-- One connection forwards, the session is declared dead, and its `up_fut` checks first. -/
def stolen : List SessionAct :=
  [.check, .accept, .forwardStart 0 7, .declare, .forward 0 (.upCheck true) false []]

/-- The accept loop checks next and misses the deadline: the forwarder has taken the value. -/
theorem deadline_reaches_fails :
    ∃ tr s, machine.Run new tr s ∧ lateCheckers tr = [.up 0, .acceptLoop] ∧
      s.acceptLoop = .accept ∧ ¬ DeadlineReaches tr ∧ ¬ DeadlineReachesAccept tr := by
  obtain ⟨tr, s, hrun, -, hlate, hacc, hall, hno⟩ :=
    Machine.exists_run_of_exec machine new (stolen ++ [.check])
      (P := fun tr s => lateCheckers tr = [.up 0, .acceptLoop] ∧ s.acceptLoop = .accept ∧
        ¬ DeadlineReaches tr ∧ ¬ DeadlineReachesAccept tr)
      (by unfold DeadlineReaches DeadlineReachesAccept; decide)
  exact ⟨tr, s, hrun, hlate, hacc, hall, hno⟩

end Session

end ObfsWs
