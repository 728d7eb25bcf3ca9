import ObfsWs.Pipe.Invariant

/-!
# The write side

What the writes of a pipe report as accepted, against what `send_loop` takes out of the
`inner_send` channel and hands to the websocket. A write passes through the channel, then
`send_loop` holds it, then the sink has it; a write that finds the channel full is reported as
accepted like the others and goes nowhere.

## Where a message can be

A write that is accepted and stored is in the channel, then in the hand of `send_loop`, then with
the sink. `stored_eq_of_run` and `took_eq_of_run` say that it is in one of these places, in order,
as long as the task has not dropped it: when the race ends while `send_loop` holds a message, that
message is gone (`CutsOff`), and whatever is queued stays queued for ever.

The difference between accepted and stored is the branch of `poll_write` that logs the error of
`try_send` and returns `Ok` all the same. Nothing keeps a writer away from it: the channel takes a
fixed number of messages, the sink takes as many as the peer reads, and `poll_write` never returns
`Pending`. In `exists_filled` any number of writes succeed while nothing is sent at all.

## Main definitions

* `accepted`, `stored`, `took`, `handed` — the histories of the write side
* `Pipe.WriteRule` — what a step does to the write side

## Main results

* `Pipe.stored_eq_of_run`, `Pipe.took_eq_of_run` — where the stored messages are
* `Pipe.writeExact_iff` — accepted writes are all there exactly as long as no channel is full
* `Pipe.exists_filled` — a stalled `send_loop` lets any number of writes report success

## What is left open

That a message which the sink has taken reaches the peer. What the websocket does with it is
outside of the pipe; `Duplex` puts a link there.
-/

namespace ObfsWs

variable {β : Type}

/-- The slice that a returning `poll_write` reports as accepted: the first `n` bytes. -/
def Out.accepts : Out β → List (List β)
  | .wrote msg (.ready (.ok n)) => [msg.take n]
  | _ => []

/-- The message that `send_loop` took out of its channel. -/
def Out.takes : Out β → List (List β)
  | .took msg => [msg]
  | _ => []

/-- The message that the sink took. -/
def Out.hands : Out β → List (List β)
  | .handed msg => [msg]
  | _ => []

/-- The action is the `try_send` of a `poll_write`. -/
def Act.sends : Act β → Bool
  | .pollWriteSend _ => true
  | _ => false

/-- The message that `try_send` stores in this state. -/
def Pipe.stores (p : Pipe β) : Act β → List (List β)
  | .pollWriteSend h =>
    match p.handle? h with
    | some ⟨_, some msg⟩ =>
      match p.innerSend.trySend msg with
      | .ok _ => [msg]
      | .error _ => []
    | _ => []
  | _ => []

/-- The slices that writes reported as accepted, in order. -/
def accepted (tr : Trace β) : List (List β) := tr.flatMap fun e => e.out.accepts

/-- The messages that writes stored in the `inner_send` channel, in order. -/
def stored (tr : Trace β) : List (List β) := tr.flatMap fun e => e.pre.stores e.act

/-- The messages that `send_loop` took out of its channel, in order. -/
def took (tr : Trace β) : List (List β) := tr.flatMap fun e => e.out.takes

/-- The messages handed to the websocket, in order. -/
def handed (tr : Trace β) : List (List β) := tr.flatMap fun e => e.out.hands

section

variable (tr : Trace β) (e : Event (Pipe β) (Act β) (Out β))

@[simp] theorem accepted_snoc : accepted (tr ++ [e]) = accepted tr ++ e.out.accepts := by
  simp [accepted]

@[simp] theorem stored_snoc : stored (tr ++ [e]) = stored tr ++ e.pre.stores e.act := by
  simp [stored]

@[simp] theorem took_snoc : took (tr ++ [e]) = took tr ++ e.out.takes := by simp [took]

@[simp] theorem handed_snoc : handed (tr ++ [e]) = handed tr ++ e.out.hands := by simp [handed]

end

namespace Pipe

variable {p p' : Pipe β} {a : Act β} {o : Out β}

/-- The message that `send_loop` holds. -/
def held (p : Pipe β) : List (List β) :=
  match p.sendLoop with
  | .send msg => [msg]
  | _ => []

/-- What a step does to the write side: the queue of `inner_send` and the message held. -/
inductive WriteRule (p : Pipe β) : Act β → Out β → Pipe β → Prop
  | quiet {a : Act β} {o : Out β} {p' : Pipe β} : (∀ h, a ≠ .pollWriteSend h) → a ≠ .finish →
      o.accepts = [] → o.takes = [] → o.hands = [] →
      p'.innerSend.queue = p.innerSend.queue →
      (p'.sendLoop.stopped = false → p.sendLoop.stopped = false) →
      (p'.closed = false ∨ p'.sendLoop.stopped = false → held p' = held p) →
      WriteRule p a o p'
  | stored {h : ℕ} {recvBuf msg : List β} {r : Chan (List β) Waker × List Waker} {p' : Pipe β} :
      p.handle? h = some ⟨recvBuf, some msg⟩ → p.innerSend.trySend msg = .ok r →
      p'.innerSend.queue = p.innerSend.queue ++ [msg] → p'.sendLoop = p.sendLoop →
      WriteRule p (.pollWriteSend h) (.wrote msg (.ready (.ok msg.length))) p'
  | lost {h : ℕ} {recvBuf msg : List β} {err : TrySendError} {p' : Pipe β} :
      p.handle? h = some ⟨recvBuf, some msg⟩ → p.innerSend.trySend msg = .error err →
      p'.innerSend.queue = p.innerSend.queue → p'.sendLoop = p.sendLoop →
      WriteRule p (.pollWriteSend h) (.wrote msg (.ready (.ok msg.length))) p'
  | took {msg : List β} {p' : Pipe β} : p.sendLoop = .recv → p'.sendLoop = .send msg →
      p.innerSend.queue = msg :: p'.innerSend.queue → WriteRule p .sendRecv (.took msg) p'
  | handed {msg : List β} {p' : Pipe β} : p.sendLoop = .send msg → p'.sendLoop = .flush →
      p'.innerSend.queue = p.innerSend.queue → WriteRule p .sinkTake (.handed msg) p'
  | finish {woken : List Waker} {p' : Pipe β} : p'.sendLoop = .returned →
      p'.innerSend.queue = p.innerSend.queue → WriteRule p .finish (.hungUp woken) p'

theorem writeRule_of_rule (hr : Rule p a o p') : WriteRule p a o p' := by
  cases hr with
  | writeStored hh hsend =>
    exact .stored hh hsend (Chan.trySend_ok hsend).2.2.1 rfl
  | writeLost hh hsend => exact .lost hh hsend rfl rfl
  | sendTook _ hl ht => exact .took hl rfl (Chan.tryRecv_ok ht).1
  | sinkTake _ _ hl => exact .handed hl rfl rfl
  | finish => exact .finish rfl rfl
  | sendHead _ hl =>
    refine .quiet (by simp) (by simp) rfl rfl rfl rfl ?_ ?_ <;>
      cases hc : p.closed <;> simp_all [held, SendPc.stopped]
  | sinkFlush _ _ hl =>
    refine .quiet (by simp) (by simp) rfl rfl rfl rfl ?_ ?_ <;> simp [held, hl, SendPc.stopped]
  | sinkFail => refine .quiet (by simp) (by simp) rfl rfl rfl rfl ?_ ?_ <;> simp [SendPc.stopped]
  | sendHungUp _ hl =>
    refine .quiet (by simp) (by simp) rfl rfl rfl rfl ?_ ?_ <;> simp [held, hl, SendPc.stopped]
  | sendReturn _ hl =>
    refine .quiet (by simp) (by simp) rfl rfl rfl rfl ?_ ?_ <;> simp [held, hl, SendPc.stopped]
  | drop _ hp' _ | dropLast _ hp' _ =>
    subst hp'
    exact .quiet (by simp) (by simp) rfl rfl rfl rfl id fun _ => rfl
  | sendPark _ _ _ _ _ hch =>
    subst hch
    exact .quiet (by simp) (by simp) rfl rfl rfl rfl id fun _ => rfl
  | _ => exact .quiet (by simp) (by simp) rfl rfl rfl rfl id fun _ => rfl

theorem stores_eq_nil (h : ∀ h, a ≠ .pollWriteSend h) : p.stores a = [] := by
  cases a with
  | pollWriteSend => exact absurd rfl (h _)
  | _ => rfl

/-- What is queued and stored is what is taken and then queued. -/
theorem queue_of_run {tr : Trace β} (h : (machine β).Run p tr p') :
    p.innerSend.queue ++ stored tr = took tr ++ p'.innerSend.queue := by
  refine h.induct (fun tr q => p.innerSend.queue ++ stored tr = took tr ++ q.innerSend.queue)
    (by simp [stored, took]) ?_
  intro tr t a t' o _ ih hs
  rw [stored_snoc, took_snoc, ← List.append_assoc, ih]
  cases writeRule_of_rule (rule_of_step hs) with
  | quiet ha _ _ ht _ hq _ _ => rw [stores_eq_nil ha, ht, hq]; simp
  | stored hh hsend hq _ => simp [stores, hh, hsend, hq, Out.takes]
  | lost hh hsend hq _ => simp [stores, hh, hsend, hq, Out.takes]
  | took _ _ hq => simp [stores, hq, Out.takes]
  | handed _ _ hq => simp [stores, hq, Out.takes]
  | finish _ hq => simp [stores, hq, Out.takes]

/-- **What is stored is what was taken and what is queued.** -/
theorem stored_eq_of_run {u md : String} {tr : Trace β} (h : (machine β).Run (new u md) tr p) :
    stored tr = took tr ++ p.innerSend.queue := by
  simpa [new] using queue_of_run h

/-- **What is taken is what was handed over and what is held**, until the loop stops. -/
theorem took_eq_of_run {u md : String} {tr : Trace β} (h : (machine β).Run (new u md) tr p)
    (hs : p.sendLoop.stopped = false) : took tr = handed tr ++ held p := by
  refine h.induct (fun tr q => q.sendLoop.stopped = false → took tr = handed tr ++ held q)
    (fun _ => rfl) ?_ hs
  intro tr t a t' o _ ih hstep hs'
  rw [took_snoc, handed_snoc]
  cases writeRule_of_rule (rule_of_step hstep) with
  | quiet _ _ _ ht hh _ hstop hheld =>
    rw [ht, hh, hheld (.inr hs'), ih (hstop hs')]
    simp
  | stored _ _ _ hl | lost _ _ _ hl =>
    rw [hl] at hs'
    simp [Out.takes, Out.hands, ih hs', held, hl]
  | took hl hl' _ =>
    simp [Out.takes, Out.hands, ih (by rw [hl]; rfl), held, hl, hl']
  | handed hl hl' _ =>
    simp [Out.takes, Out.hands, ih (by rw [hl]; rfl), held, hl, hl']
  | finish hl _ => simp [hl, SendPc.stopped] at hs'

/-! ### Accepted writes -/

/-- What was handed over, held and queued is what writes reported as accepted, in order. -/
def WriteExact (tr : Trace β) (p : Pipe β) : Prop :=
  handed tr ++ held p ++ p.innerSend.queue = accepted tr

/-- The action is a `try_send` into a full channel. -/
def Overflows (p : Pipe β) (a : Act β) : Prop := a.sends = true ∧ p.innerSend.hasRoom = false

instance : DecidablePred (Overflows p) := fun _ => inferInstanceAs (Decidable (_ ∧ _))

theorem not_overflows (h : ∀ h, a ≠ .pollWriteSend h) : ¬ Overflows p a := by
  cases a with
  | pollWriteSend => exact absurd rfl (h _)
  | _ => simp [Overflows, Act.sends]

/-- The race ends and drops `send_loop` with a message in its hands. -/
def CutsOff (p : Pipe β) (a : Act β) : Prop := a = .finish ∧ held p ≠ []

instance [DecidableEq β] : DecidablePred (CutsOff p) :=
  fun _ => inferInstanceAs (Decidable (_ ∧ _))

/-- One step of the write side. -/
theorem writeExact_step {tr : Trace β} (hi : Inv p) (hc' : p'.closed = false)
    (hp : WriteExact tr p) (hr : Rule p a o p') :
    WriteExact (tr ++ [⟨p, a, o, p'⟩]) p' ↔ ¬ Overflows p a ∧ ¬ CutsOff p a := by
  have hc : p.closed = false := by
    cases hc : p.closed with
    | false => rfl
    | true => simp [closed_of_rule hr hc] at hc'
  rw [WriteExact] at hp
  rw [WriteExact, handed_snoc, accepted_snoc, ← hp]
  cases writeRule_of_rule hr with
  | quiet ha hfin hacc _ hh hq _ hheld =>
    have hv := not_overflows (p := p) ha
    simp [hacc, hh, hq, hheld (.inl hc'), hv, CutsOff, hfin]
  | stored hh hsend hq hl =>
    have hroom := Chan.hasRoom_of_trySend_ok hsend
    simp [Out.hands, Out.accepts, hq, held, hl, Overflows, Act.sends, hroom, CutsOff]
  | @lost h recvBuf msg err _ hh hsend hq hl =>
    have hopen := (hi.open hc (alive_of_handle hh)).2.2
    have hfull := Chan.full_of_trySend_error hopen hsend
    simp [Out.hands, Out.accepts, hq, held, hl, Overflows, Act.sends, hfull]
  | took hl hl' hq | handed hl hl' hq =>
    simp [Out.hands, Out.accepts, hq, held, hl, hl', Overflows, Act.sends, CutsOff]
  | finish hl hq => simp [Out.hands, Out.accepts, hq, held, hl, Overflows, Act.sends, CutsOff]

/-- **A write that reports success is accepted, unless the channel is full.** While the flag stays
unset, the messages handed over, the one held and those queued are exactly the accepted slices in
order, at every moment, if and only if no `try_send` meets a full channel and, which takes that all
handles are dropped, the race does not end under a message in the hands of `send_loop`. -/
theorem writeExact_iff {u md : String} {tr : Trace β} (h : (machine β).Run (new u md) tr p)
    (hc : ∀ e ∈ tr, e.post.closed = false) :
    (machine β).Always (new u md) WriteExact tr ↔
      ∀ e ∈ tr, ¬ Overflows e.pre e.act ∧ ¬ CutsOff e.pre e.act := by
  refine h.always_iff (Q := fun e => e.post.closed = false) rfl ?_ hc
  intro tr t a t' o hrun _ hc' hp hs
  exact writeExact_step (inv_of_run hrun) hc' hp (rule_of_step hs)

/-- Two handles write, and the first message is handed over. -/
theorem writeExact_iff_shared :
    ∃ (tr : Trace UInt8) (p : Pipe UInt8), (machine UInt8).Run (new "" "") tr p ∧
      accepted tr = [[1, 2], [3]] ∧ handed tr = [[1, 2]] ∧
      (machine UInt8).Always (new "" "") WriteExact tr := by
  obtain ⟨tr, p, hrun, -, hacc, hh, hc, hv⟩ :=
    Machine.exists_run_of_exec (machine UInt8) (new "" "")
      [.clone 0, .pollWrite 0 [1, 2], .pollWrite 1 [3], .pollWriteSend 0, .sendHead, .sendRecv,
        .pollWriteSend 1, .sinkTake]
      (P := fun tr _ => accepted tr = [[1, 2], [3]] ∧ handed tr = [[1, 2]] ∧
        (∀ e ∈ tr, e.post.closed = false) ∧
        ∀ e ∈ tr, ¬ Overflows e.pre e.act ∧ ¬ CutsOff e.pre e.act) (by decide)
  exact ⟨tr, p, hrun, hacc, hh, (writeExact_iff hrun hc).mpr hv⟩

/-- One idle handle of an open pipe whose `send_loop` has not started, with `n` messages
queued. -/
structure Filled (n : ℕ) (p : Pipe β) : Prop where
  handles : p.handles = [some ⟨[], none⟩]
  closed : p.closed = false
  sendLoop : p.sendLoop = .head
  chanClosed : p.innerSend.closed = false
  cap : p.innerSend.cap = chanCap
  length : p.innerSend.queue.length = n

/-- One more write: it is reported as accepted, and stored if there is room. -/
theorem Filled.write {n : ℕ} (hp : Filled n p) (msg : List β) :
    ∃ tr p', (machine β).Run p tr p' ∧ (∀ e ∈ tr, e.post.closed = false) ∧ accepted tr = [msg] ∧
      handed tr = [] ∧ Filled (min (n + 1) chanCap) p' := by
  obtain ⟨hh, hc, hl, hcc, hcap, hlen⟩ := hp
  have h0 : p.handle? 0 = some ⟨[], none⟩ := by simp [handle?, hh]
  have h1 : (p.setHandle 0 ⟨[], some msg⟩).handle? 0 = some ⟨[], some msg⟩ := by
    simp [handle?, setHandle, hh]
  have hrun := Machine.Run.single (step_of_rule (@Rule.writeEnter _ p 0 msg _ h0 hc))
  cases hsend : p.innerSend.trySend msg with
  | ok r =>
    have hch := Chan.trySend_ok hsend
    refine ⟨_, _, hrun.snoc (step_of_rule (.writeStored h1 hsend)), ?_, ?_, rfl, ?_⟩
    · simp [hc, setHandle]
    · simp [accepted, Out.accepts]
    · refine ⟨by simp [setHandle, hh], hc, hl, hch.2.2.2.1, by rw [hch.2.2.2.2.2.1, hcap], ?_⟩
      have hlt := hch.2.1
      rw [hch.2.2.1, List.length_append, List.length_singleton, hlen]
      omega
  | error err =>
    have hfull := Chan.full_of_trySend_error hcc hsend
    refine ⟨_, _, hrun.snoc (step_of_rule (.writeLost h1 hsend)), ?_, ?_, rfl, ?_⟩
    · simp [hc, setHandle]
    · simp [accepted, Out.accepts]
    · refine ⟨by simp [setHandle, hh], hc, hl, hcc, hcap, ?_⟩
      have hle := p.innerSend.queue_le
      simp only [Chan.hasRoom, decide_eq_false_iff_not] at hfull
      change p.innerSend.queue.length = _
      omega

/-- While `send_loop` is stalled any number of writes report success, and the channel holds
100000 messages at most. -/
theorem exists_filled (u md : String) (msg : List β) (n : ℕ) :
    ∃ tr p, (machine β).Run (new u md) tr p ∧ (∀ e ∈ tr, e.post.closed = false) ∧
      (accepted tr).length = n ∧ handed tr = [] ∧ Filled (min n chanCap) p := by
  induction n with
  | zero => exact ⟨[], _, .nil, by simp, rfl, rfl, rfl, rfl, rfl, rfl, rfl, by simp [new]⟩
  | succ n ih =>
    obtain ⟨tr, p, hrun, ho, hacc, hh, hp⟩ := ih
    obtain ⟨tr', p', hrun', ho', hacc', hh', hp'⟩ := hp.write msg
    refine ⟨tr ++ tr', p', hrun.append hrun', ?_, ?_, ?_, ?_⟩
    · exact fun e he => (List.mem_append.mp he).elim (ho e) (ho' e)
    · rw [accepted, List.flatMap_append, List.length_append]
      exact congrArg₂ (· + ·) hacc (by rw [← accepted, hacc', List.length_singleton])
    · rw [handed, List.flatMap_append]
      exact List.append_eq_nil_iff.mpr ⟨hh, hh'⟩
    · rwa [show min (min n chanCap + 1) chanCap = min (n + 1) chanCap by omega] at hp'

/-- The write number 100001 of a pipe whose `send_loop` is stalled reports success and is lost. -/
theorem writeExact_fails :
    ∃ (tr : Trace UInt8) (p : Pipe UInt8), (machine UInt8).Run (new "" "") tr p ∧
      (∀ e ∈ tr, e.post.closed = false) ∧ (accepted tr).length = 100001 ∧ ¬ WriteExact tr p := by
  obtain ⟨tr, p, hrun, ho, hacc, hh, hp⟩ := exists_filled "" "" [(7 : UInt8)] 100001
  refine ⟨tr, p, hrun, ho, hacc, fun hexact => ?_⟩
  have hlen := congrArg List.length hexact
  rw [hh, hacc, List.length_append, hp.length, held, hp.sendLoop] at hlen
  simp [chanCap] at hlen

end Pipe

end ObfsWs
