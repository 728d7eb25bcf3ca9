import ObfsWs.Pipe.ReadSide

/-!
# A task that reads

A task reads from the first handle of a pipe. When its `poll_read` returns `Pending` it parks: it
polls again only after the waker that it passed has been woken, by the pipe or by something else
in the program. Everything else goes on around it, other handles included.

`poll_read` calls `try_recv`, which registers nothing, and ignores its context. So nothing of the
pipe wakes a parked reader, whatever arrives.

## The task and its executor

An executor polls a task again when a waker of it has been woken, and is free to do so at other
times. The first half is the rule here; the second half is the action `wakeOther`, with which
anything else in the program wakes the task. A run in which that action does not occur is a run in
which the task depends on the pipe alone.

The condition of `noLostWakeup_iff` is on steps: something comes (a message is put, or `recv_loop`
goes away) while the task is parked and not woken, or the task parks although there is nothing to
come any more. The first of them is what a race between a reader and the peer amounts to. The
reader that is faster than its peer loses.

## Main definitions

* `Task`, `Task.machine` — the reader beside the machine of the pipe
* `NoLostWakeup` — a reader that parks and has not been woken has nothing to read

## Main results

* `parked_of_run` — a parked reader stays parked until something other than the pipe wakes it
* `noLostWakeup_iff` — no wakeup is lost exactly when nothing comes while the reader is parked

## What is left open

Nothing is said about how often this happens, and nothing about readers that use a timeout or
share their task with other futures. They are polled for other reasons, and then read what is
there; this is the action `wakeOther` again.
-/

namespace ObfsWs

variable {β : Type}

/-- The listeners that a step wakes. -/
def Out.wakes : Out β → List Waker
  | .put _ woken => woken
  | .hungUp woken => woken
  | _ => []

/-- A pipe and the task that reads from its first handle. -/
structure Task (β : Type) where
  pipe : Pipe β
  /-- After a `Pending`: the waker passed, and whether it has been woken since. -/
  parked : Option (Waker × Bool)
  deriving DecidableEq

/-- What happens. -/
inductive TaskAct (β : Type)
  /-- The task polls. -/
  | read (ctx : Waker) (buf : List β)
  /-- The pipe takes a step. -/
  | pipe (a : Act β)
  /-- Something else in the program wakes the task. -/
  | wake
  deriving DecidableEq

/-- The action does not use the first handle for reading, and does not drop it. -/
def Act.sparesReader : Act β → Bool
  | .pollRead h _ _ => h != 0
  | .drop h => h != 0
  | _ => true

/-- By the action something comes to the reader's end of `inner_recv`: a message, or the end. -/
def Act.arrives : Act β → Bool
  | .recvSend | .recvReturn | .finish => true
  | _ => false

namespace Task

/-- The task is not parked, or its waker has been woken. -/
def polls (t : Task β) : Bool :=
  match t.parked with
  | some (_, woken) => woken
  | none => true

/-- What the task remembers after its `poll_read` returned. -/
def park (ctx : Waker) : Out β → Option (Waker × Bool)
  | .read .pending _ => some (ctx, false)
  | _ => none

/-- Waking these listeners. -/
def woken (t : Task β) (ws : List Waker) : Option (Waker × Bool) :=
  t.parked.map fun (w, b) => (w, b || ws.contains w)

/-- One step. -/
def step (t : Task β) : TaskAct β → Option (Task β × Out β)
  | .read ctx buf =>
    if t.polls then
      (t.pipe.pollReadHandle 0 ctx buf).map fun (p, o) => (⟨p, park ctx o⟩, o)
    else none
  | .pipe a =>
    if a.sparesReader then
      (t.pipe.step a).map fun (p, o) => (⟨p, t.woken o.wakes⟩, o)
    else none
  | .wake => some (⟨t.pipe, t.parked.map fun (w, _) => (w, true)⟩, .tau)

/-- The task as a machine. -/
def machine (β : Type) : Machine (Task β) (TaskAct β) (Out β) := ⟨step⟩

/-- A new pipe and a task that has not polled yet. -/
def new (peerUrl peerMetadata : String) : Task β := ⟨.new peerUrl peerMetadata, none⟩

variable {t t' : Task β} {a : TaskAct β} {o : Out β}

/-- What a step can do. -/
inductive Rule (t : Task β) : TaskAct β → Out β → Task β → Prop
  | read {ctx buf o p'} : t.polls = true → Pipe.Rule t.pipe (.pollRead 0 ctx buf) o p' →
      Rule t (.read ctx buf) o ⟨p', park ctx o⟩
  | pipe {a o p'} : a.sparesReader = true → Pipe.Rule t.pipe a o p' →
      Rule t (.pipe a) o ⟨p', t.woken o.wakes⟩
  | wake : Rule t .wake .tau ⟨t.pipe, t.parked.map fun (w, _) => (w, true)⟩

theorem rule_of_step (hs : (machine β).step t a = some (t', o)) : Rule t a o t' := by
  change t.step a = some (t', o) at hs
  cases a with
  | read ctx buf =>
    simp only [step, Option.ite_none_right_eq_some, Option.map_eq_some_iff] at hs
    obtain ⟨hp, ⟨p', o'⟩, hr, he⟩ := hs
    cases he
    exact .read hp (Pipe.rule_of_step hr)
  | pipe a =>
    simp only [step, Option.ite_none_right_eq_some, Option.map_eq_some_iff] at hs
    obtain ⟨hp, ⟨p', o'⟩, hr, he⟩ := hs
    cases he
    exact .pipe hp (Pipe.rule_of_step hr)
  | wake =>
    cases hs
    exact .wake

/-! ### The pipe under the task -/

/-- The invariant of the pipe, and that the handle of the task lives. -/
structure Inv (t : Task β) : Prop where
  pipe : t.pipe.Inv
  reader : (t.pipe.handle? 0).isSome = true

theorem inv_new (peerUrl peerMetadata : String) : Inv (new peerUrl peerMetadata : Task β) :=
  ⟨Pipe.inv_new _ _, rfl⟩

/-- A step that spares the reader keeps its handle. -/
theorem reader_of_rule {p p' : Pipe β} {a : Act β} (ha : a.sparesReader = true)
    (hr : Pipe.Rule p a o p') (h0 : (p.handle? 0).isSome = true) :
    (p'.handle? 0).isSome = true := by
  have hset : ∀ h hd, ((p.setHandle h hd).handle? 0).isSome = true := fun h hd => by
    rw [Pipe.handle?, Pipe.setHandle, List.getElem?_set]
    split
    · rename_i heq
      subst heq
      obtain ⟨hd', hh⟩ := Option.isSome_iff_exists.mp h0
      simp [Pipe.lt_of_handle hh]
    · exact h0
  cases hr with
  | writeEnter | writeStored | writeLost | read => exact hset _ _
  | clone =>
    obtain ⟨hd, hh⟩ := Option.isSome_iff_exists.mp h0
    rw [Pipe.handle?, List.getElem?_append_left (Pipe.lt_of_handle hh)]
    exact h0
  | drop _ hp' | dropLast _ hp' =>
    -- some other handle is dropped
    subst hp'
    simp only [Act.sparesReader, bne_iff_ne, ne_eq] at ha
    simpa [Pipe.handle?, List.getElem?_set, ha] using h0
  | _ => exact h0

/-- A step that spares the reader and by which nothing comes, changes `inner_recv` at most by
taking from it. -/
theorem chan_of_rule {p p' : Pipe β} {a : Act β} (ha : a.sparesReader = true)
    (hn : a.arrives = false) (hr : Pipe.Rule p a o p') (h0 : (p.handle? 0).isSome = true) :
    p'.innerRecv.closed = p.innerRecv.closed ∧ p'.innerRecv.queue <:+ p.innerRecv.queue := by
  have h0' := reader_of_rule ha hr h0
  cases hr with
  | @read h ctx buf recvBuf r hh hr =>
    subst hr
    have hch := readOutcome_chan recvBuf p.innerRecv buf
    exact ⟨hch.1, hch.2.2.2⟩
  | drop _ hp' =>
    subst hp'
    exact ⟨rfl, List.suffix_rfl⟩
  | dropLast _ hp' hdead =>
    obtain ⟨hd, hh⟩ := Option.isSome_iff_exists.mp h0'
    have halive := Pipe.alive_of_handle hh
    subst hp'
    exact absurd (halive.symm.trans hdead) (by simp)
  | recvPut | recvHungUp | recvReturn | finish => cases hn
  | _ => exact ⟨rfl, List.suffix_rfl⟩

/-- A step by which something comes leaves a message in the channel, or the end of it. -/
theorem comes_of_rule {p p' : Pipe β} {a : Act β} (hn : a.arrives = true)
    (hr : Pipe.Rule p a o p') : p'.innerRecv.queue ≠ [] ∨ p'.innerRecv.closed = true := by
  cases hr with
  | recvPut _ _ hsend =>
    have hq := (Chan.trySend_ok hsend).2.2.1
    exact .inl (by simp [hq])
  | recvHungUp _ _ hc' => exact .inr hc'
  | recvReturn | finish => exact .inr rfl
  | _ => cases hn

/-- The pipe wakes nobody: `poll_read` has registered nothing. -/
theorem wakes_of_rule {p p' : Pipe β} {a : Act β} (hi : p.Inv) (hr : Pipe.Rule p a o p') :
    o.wakes = [] := by
  cases hr with
  | recvPut _ _ hsend =>
    obtain ⟨-, -, -, -, -, -, hw⟩ := Chan.trySend_ok hsend
    exact hw.trans hi.recvListeners
  | recvReturn | finish => exact hi.recvListeners
  | _ => rfl

theorem woken_nil (t : Task β) : t.woken [] = t.parked := by
  cases hp : t.parked <;> simp [woken, hp]

theorem Inv.step (hi : Inv t) (hr : Rule t a o t') : Inv t' := by
  cases hr with
  | read _ hr =>
    refine ⟨hi.pipe.step hr, ?_⟩
    cases hr with
    | read hh => simp [Pipe.handle?, Pipe.setHandle, Pipe.lt_of_handle hh]
  | pipe ha hr => exact ⟨hi.pipe.step hr, reader_of_rule ha hr hi.reader⟩
  | wake => exact ⟨hi.pipe, hi.reader⟩

theorem inv_of_run {u md : String} {tr : List (Event (Task β) (TaskAct β) (Out β))}
    (h : (machine β).Run (new u md) tr t) : Inv t :=
  h.invariant Inv (inv_new u md) fun _ _ _ _ hi hs => hi.step (rule_of_step hs)

/-! ### Wakeups -/

/-- A reader that is parked and has not been woken has nothing to read, and is not at the end. -/
def NoLostWakeup (t : Task β) : Prop :=
  ∀ w, t.parked = some (w, false) →
    t.pipe.innerRecv.queue = [] ∧ t.pipe.innerRecv.closed = false

theorem polls_eq_false_iff : t.polls = false ↔ ∃ w, t.parked = some (w, false) := by
  obtain ⟨p, _ | ⟨w, b⟩⟩ := t <;> simp [polls]

theorem noLostWakeup_iff_polls : NoLostWakeup t ↔
    (t.polls = false → t.pipe.innerRecv.queue = [] ∧ t.pipe.innerRecv.closed = false) := by
  rw [polls_eq_false_iff, NoLostWakeup, forall_exists_index]

/-- Something comes while the reader is parked and not woken, or the reader parks after the
end. -/
def Misses (t : Task β) : TaskAct β → Prop
  | .pipe a => t.polls = false ∧ a.arrives = true
  | .read _ buf => t.pipe.innerRecv.closed = true ∧ t.pipe.innerRecv.queue = [] ∧
      ∃ hd ∈ t.pipe.handle? 0, hd.recvBuf.length ≤ buf.length
  | .wake => False

instance : DecidablePred (Misses t) := fun a => by
  cases a <;> unfold Misses <;> infer_instance

/-- **A parked reader is woken by nothing of the pipe.** -/
theorem parked_of_run {w : Waker} {tr : List (Event (Task β) (TaskAct β) (Out β))} (hi : Inv t)
    (hp : t.parked = some (w, false)) (h : (machine β).Run t tr t')
    (hw : ∀ e ∈ tr, e.act ≠ .wake) : t'.parked = some (w, false) := by
  refine (h.invariant_of (Q := fun e => e.act ≠ .wake)
    (fun t => Inv t ∧ t.parked = some (w, false)) ⟨hi, hp⟩ ?_ hw).2
  rintro t a t' o ⟨hi, hp⟩ hw hs
  have hr := rule_of_step hs
  refine ⟨hi.step hr, ?_⟩
  cases hr with
  | read hpolls => simp [polls, hp] at hpolls
  | pipe _ hr => simp only [wakes_of_rule hi.pipe hr, woken_nil, hp]
  | wake => exact absurd rfl hw

/-- One step of the task. -/
theorem noLostWakeup_step (hi : Inv t) (hp : NoLostWakeup t) (hr : Rule t a o t') :
    NoLostWakeup t' ↔ ¬ Misses t a := by
  cases hr with
  | @read ctx buf o p' hpolls hr =>
    cases hr with
    | @read _ _ _ recvBuf r hh hr =>
      have hmiss : Misses t (.read ctx buf) ↔ t.pipe.innerRecv.closed = true ∧
          r.res = .pending := by
        rw [hr, Pipe.res_eq_pending_iff, Misses, hh]
        simp [and_comm]
      rw [hmiss]
      cases hres : r.res with
      | ready => simp [NoLostWakeup, park]
      | pending =>
        rw [hr, Pipe.res_eq_pending_iff] at hres
        rw [readOutcome_vain hres.1 hres.2] at hr
        simp [NoLostWakeup, park, hr, hres.2]
  | @pipe a o p' ha hr =>
    rw [noLostWakeup_iff_polls] at hp ⊢
    have hpolls : polls ⟨p', t.woken o.wakes⟩ = t.polls := by
      rw [wakes_of_rule hi.pipe hr, woken_nil]
      rfl
    rw [hpolls, Misses]
    cases hb : t.polls with
    | true => simp
    | false =>
      obtain ⟨hq, hc⟩ := hp hb
      cases hn : a.arrives with
      | true =>
        have hcome := comes_of_rule hn hr
        simp only [forall_const, and_self, not_true_eq_false, iff_false, not_and_or]
        exact hcome.imp id fun h => by simp [h]
      | false =>
        obtain ⟨hc', hq'⟩ := chan_of_rule ha hn hr hi.reader
        rw [hq, List.suffix_nil] at hq'
        simp [hq', hc', hc]
  | wake =>
    have hpolls : ∀ w, t.parked.map (fun (w, _) => (w, true)) ≠ some (w, false) := by
      cases t.parked <;> simp
    simp only [NoLostWakeup, Misses, not_false_eq_true, iff_true]
    exact fun w h => absurd h (hpolls w)

/-- **When no wakeup is lost.** A reader that waits has at every moment nothing to read, if and
only if nothing comes while it is parked and it does not park after the end. -/
theorem noLostWakeup_iff {u md : String} {tr : List (Event (Task β) (TaskAct β) (Out β))}
    (h : (machine β).Run (new u md) tr t) :
    (machine β).Always (new u md) (fun _ => NoLostWakeup) tr ↔
      ∀ e ∈ tr, ¬ Misses e.pre e.act := by
  refine h.always_iff (Q := fun _ => True) (by simp [NoLostWakeup, new]) ?_ fun _ _ => trivial
  intro tr t a t' o hrun _ _ hp hs
  exact noLostWakeup_step (inv_of_run hrun) hp (rule_of_step hs)

/-- The reader parks, something else wakes it, and only then the message comes. -/
theorem noLostWakeup_iff_early :
    ∃ (tr : List (Event (Task UInt8) (TaskAct UInt8) (Out UInt8))) (t : Task UInt8),
      (machine UInt8).Run (new "" "") tr t ∧
      tr.map Event.out = [.read .pending [0], .tau, .tau, .tau, .tau, .put [7] [],
        .read (.ready (.ok 1)) [7]] ∧
      (machine UInt8).Always (new "" "") (fun _ => NoLostWakeup) tr := by
  obtain ⟨tr, t, hrun, -, hout, hm⟩ :=
    Machine.exists_run_of_exec (machine UInt8) (new "" "")
      [.read (.reader 0) [0], .wake, .pipe .recvHead, .pipe (.arrive (some (.ok (.binary [7])))),
        .pipe .recvNext, .pipe .recvSend, .read (.reader 0) [0]]
      (P := fun tr _ => tr.map Event.out = [.read .pending [0], .tau, .tau, .tau, .tau, .put [7] [],
          .read (.ready (.ok 1)) [7]] ∧ ∀ e ∈ tr, ¬ Misses e.pre e.act) (by decide)
  exact ⟨tr, t, hrun, hout, (noLostWakeup_iff hrun).mpr hm⟩

/-- The reader parks, a message comes, and the waker is not woken: unless something else wakes the
reader, it stays parked for ever. -/
theorem noLostWakeup_fails :
    ∃ (tr : List (Event (Task UInt8) (TaskAct UInt8) (Out UInt8))) (t : Task UInt8),
      (machine UInt8).Run (new "" "") tr t ∧ t.parked = some (.reader 0, false) ∧
      t.pipe.innerRecv.queue = [[7]] ∧ ¬ NoLostWakeup t ∧
      ∀ tr' t', (machine UInt8).Run t tr' t' → (∀ e ∈ tr', e.act ≠ .wake) →
        t'.parked = some (.reader 0, false) := by
  obtain ⟨tr, t, hrun, -, hp, hq⟩ :=
    Machine.exists_run_of_exec (machine UInt8) (new "" "")
      [.read (.reader 0) [0], .pipe .recvHead, .pipe (.arrive (some (.ok (.binary [7])))),
        .pipe .recvNext, .pipe .recvSend]
      (P := fun _ t => t.parked = some (.reader 0, false) ∧ t.pipe.innerRecv.queue = [[7]])
      (by decide)
  refine ⟨tr, t, hrun, hp, hq, fun h => ?_,
    fun tr' t' hrun' hw => parked_of_run (inv_of_run hrun) hp hrun' hw⟩
  have hnil := (h _ hp).1
  rw [hq] at hnil
  cases hnil

end Task

end ObfsWs
