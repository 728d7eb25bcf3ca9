import ObfsWs.Pipe.Lifecycle

/-!
# Flushing and closing

What `poll_flush` and `poll_close` leave of the messages that writes have put into the
`inner_send` channel. Neither of them moves a message: a flush only looks at the flag, and under
the flag `send_loop` does not come back for the rest of the queue.

## Main definitions

* `Pipe.leftOf` — what is left in the channel of the messages queued earlier
* `Pipe.CanStrand` — `send_loop` can still stop over one of them

## Main results

* `Pipe.flush_close_account` — where the stored messages are at a flush, and after closing

## What flushing could mean here

`poll_flush` returns at once in every state, with an error when the flag is set. It has no way to
wait: there is nothing that `send_loop` would tell it. So the account at a flush is about where
the messages are at that moment, all of them and in order, and it is not about what has been
delivered.

For closing the account is about the time after it. Under the flag `send_loop` finishes what it is
doing: if it was waiting in its receive, one message is still taken and handed over, and then it
is back at its `while` and stops. Even that one is not safe, because `recv_loop` sees the flag as
well, and when it returns, `send_loop` is dropped where it stands. `CanStrand` says that some run
ends like this, and it holds as soon as anything was queued at the call.
-/

namespace ObfsWs

namespace Pipe

variable {β : Type} {p p' q : Pipe β} {a : Act β} {o : Out β}

/-- How many messages `send_loop` can still take out of its channel once the flag is set. -/
def takeBudget (p : Pipe β) : ℕ :=
  match p.sendLoop with
  | .recv => 1
  | _ => 0

/-- Under the flag a step pays for what it takes. -/
theorem takeBudget_step (hc : p.closed = true) (hr : Rule p a o p') :
    o.takes.length + takeBudget p' ≤ takeBudget p := by
  cases hr <;> simp_all [takeBudget, Out.takes, setHandle]

/-- Under the flag `send_loop` takes at most the message it is waiting for. -/
theorem took_le_of_run {tr : Trace β} (h : (machine β).Run p tr q) (hc : p.closed = true) :
    (took tr).length ≤ takeBudget p := by
  have hle : (took tr).length + takeBudget q ≤ takeBudget p :=
    length_le_of_run (fun _ _ _ _ hc hr => takeBudget_step hc hr) h hc
  omega

/-- What is left in the channel, after the steps `tr`, of the messages queued at `p`. -/
def leftOf (p : Pipe β) (tr : Trace β) : List (List β) := p.innerSend.queue.drop (took tr).length

/-- What is left is still queued, before anything stored later. -/
theorem leftOf_isPrefix {tr : Trace β} (h : (machine β).Run p tr q) :
    leftOf p tr <+: q.innerSend.queue := by
  have heq := congrArg (List.drop (took tr).length) (queue_of_run h)
  rw [List.drop_left, List.drop_append] at heq
  exact ⟨_, heq⟩

/-- While a flush reports success, every stored message is handed over, held or queued. -/
theorem stored_eq_of_flush {u md : String} {tr : Trace β} {k : ℕ}
    (h : (machine β).Run (new u md) tr p)
    (hs : (machine β).step p (.pollFlush k) = some (p', .flushed (.ready (.ok ())))) :
    stored tr = handed tr ++ held p ++ p.innerSend.queue := by
  have hopen : p.closed = false ∧ p.alive = true := by
    generalize ho : Out.flushed (.ready (.ok ())) = o at hs
    cases rule_of_step hs with
    | flush hh =>
      refine ⟨?_, alive_of_handle hh⟩
      cases hc : p.closed with
      | false => rfl
      | true => simp [hc] at ho
  have hrun := ((inv_of_run h).open hopen.1 hopen.2).1
  rw [stored_eq_of_run h, took_eq_of_run h hrun]

/-! ### Stopping `send_loop` under a queue

The race ends with `recv_loop` as well, and then nothing takes from the queue any more. -/

/-- The websocket neither fails nor ends. -/
def steady : Act β → Bool
  | .sinkFail | .arrive none => false
  | _ => true

/-- Some continuation stops `send_loop` and leaves a message in the channel that is queued now. -/
def CanStrand (p : Pipe β) : Prop :=
  ∃ tr q, (machine β).Run p tr q ∧ (∀ e ∈ tr, steady e.act = true) ∧
    q.sendLoop.stopped = true ∧ leftOf p tr ≠ []

theorem canStrand_of_stopped (hl : p.sendLoop.stopped = true) (hq : p.innerSend.queue ≠ []) :
    CanStrand p :=
  ⟨[], p, .nil, by simp, hl, by simpa [leftOf, took] using hq⟩

/-- A step that takes nothing leads there if it leads to where one can get there. -/
theorem canStrand_of_rule (hr : Rule p a o p') (ha : steady a = true) (ho : o.takes = [])
    (hq : p'.innerSend.queue = p.innerSend.queue) (h : CanStrand p') : CanStrand p := by
  obtain ⟨tr, q, hrun, hsteady, hl, hleft⟩ := h
  refine ⟨_, q, (Machine.Run.single (step_of_rule hr)).append hrun, ?_, hl, ?_⟩
  · simpa [ha] using hsteady
  · rw [leftOf, hq] at hleft
    simpa [leftOf, took, ho] using hleft

theorem canStrand_of_recvReturned (hf : p.finished = false) (hl : p.recvLoop = .returned)
    (hq : p.innerSend.queue ≠ []) : CanStrand p :=
  canStrand_of_rule (.finish hf (.inr hl)) rfl rfl rfl (canStrand_of_stopped rfl hq)

theorem canStrand_of_recvExiting (hf : p.finished = false) (hl : p.recvLoop = .exiting)
    (hq : p.innerSend.queue ≠ []) : CanStrand p :=
  canStrand_of_rule (.recvReturn hf hl) rfl rfl rfl (canStrand_of_recvReturned hf rfl hq)

theorem canStrand_of_recvHead (hr : p.racing = true) (hc : p.closed = true)
    (hl : p.recvLoop = .head) (hq : p.innerSend.queue ≠ []) : CanStrand p := by
  obtain ⟨hf, -, -⟩ := racing_iff.mp hr
  refine canStrand_of_rule (.recvHead hr hl) rfl rfl rfl (canStrand_of_recvExiting hf ?_ hq)
  simp [hc]

/-- `recv_loop` puts its message and gets to its check of the flag. -/
theorem canStrand_of_putsAtOnce {msg : List β} (hr : p.racing = true) (hc : p.closed = true)
    (hl : p.recvLoop = .send msg) (hput : p.putsAtOnce = true) (hq : p.innerSend.queue ≠ []) :
    CanStrand p := by
  obtain ⟨hf, hs, -⟩ := racing_iff.mp hr
  cases hsend : p.innerRecv.trySend msg with
  | ok r =>
    refine canStrand_of_rule (.recvPut hr hl hsend) rfl rfl rfl (canStrand_of_recvHead ?_ hc rfl hq)
    exact racing_iff.mpr ⟨hf, hs, rfl⟩
  | error e =>
    have hclosed : p.innerRecv.closed = true := by
      by_contra hopen
      rw [Bool.not_eq_true] at hopen
      have hfull := Chan.full_of_trySend_error hopen hsend
      simp [putsAtOnce, hopen, hfull] at hput
    exact canStrand_of_rule (.recvHungUp hr hl hclosed) rfl rfl rfl
      (canStrand_of_recvExiting hf rfl hq)

/-- A full channel gets room by a read that has space for the leftover. -/
theorem canStrand_of_recvSend {msg recvBuf : List β} {k : ℕ} (hr : p.racing = true)
    (hc : p.closed = true) (hh : p.handle? k = some ⟨recvBuf, none⟩)
    (hcap : 0 < p.innerRecv.cap) (hl : p.recvLoop = .send msg) (hq : p.innerSend.queue ≠ []) :
    CanStrand p := by
  cases hput : p.putsAtOnce with
  | true => exact canStrand_of_putsAtOnce hr hc hl hput hq
  | false =>
    simp only [putsAtOnce, Chan.hasRoom, Bool.or_eq_false_iff, decide_eq_false_iff_not] at hput
    cases hqr : p.innerRecv.queue with
    | nil => simp [hqr, hcap] at hput
    | cons m rest =>
      obtain ⟨ch, ht⟩ := Chan.exists_tryRecv_of_cons hqr
      have hread := readOutcome_next (Nat.le_refl recvBuf.length) ht
      obtain ⟨hq', -, -, hcap'⟩ := Chan.tryRecv_ok ht
      have hle := p.innerRecv.queue_le
      rw [hq', List.length_cons] at hle
      have hrule := @Rule.read _ p k .task recvBuf recvBuf _ hh hread.symm
      refine canStrand_of_rule hrule rfl rfl rfl (canStrand_of_putsAtOnce hr hc hl ?_ hq)
      simp only [putsAtOnce, Chan.hasRoom, hcap', Bool.or_eq_true, decide_eq_true_eq]
      exact .inr (by omega)

/-- `recv_loop` takes what has arrived. -/
theorem canStrand_of_cons {recvBuf : List β} {k : ℕ} {item : Item β} {rest : List (Item β)}
    (hr : p.racing = true) (hc : p.closed = true) (hh : p.handle? k = some ⟨recvBuf, none⟩)
    (hcap : 0 < p.innerRecv.cap) (hl : p.recvLoop = .next) (hi : p.incoming = item :: rest)
    (hq : p.innerSend.queue ≠ []) : CanStrand p := by
  obtain ⟨hf, hs, -⟩ := racing_iff.mp hr
  rcases item with _ | ⟨⟨⟩ | msg | _⟩
  · exact canStrand_of_rule (.recvEnd hr hl hi) rfl rfl rfl (canStrand_of_recvExiting hf rfl hq)
  · exact canStrand_of_rule (.recvSkip hr hl hi (.inr rfl)) rfl rfl rfl
      (canStrand_of_recvHead (racing_iff.mpr ⟨hf, hs, rfl⟩) hc rfl hq)
  · exact canStrand_of_rule (.recvBinary hr hl hi) rfl rfl rfl
      (canStrand_of_recvSend (racing_iff.mpr ⟨hf, hs, rfl⟩) hc hh hcap rfl hq)
  · exact canStrand_of_rule (.recvSkip hr hl hi (.inl rfl)) rfl rfl rfl
      (canStrand_of_recvHead (racing_iff.mpr ⟨hf, hs, rfl⟩) hc rfl hq)

/-- Under the flag, a queued message can be stranded, wherever the loops are. -/
theorem canStrand {recvBuf : List β} {k : ℕ} (hi : Inv p) (hc : p.closed = true)
    (hh : p.handle? k = some ⟨recvBuf, none⟩) (hcap : 0 < p.innerRecv.cap)
    (hq : p.innerSend.queue ≠ []) : CanStrand p := by
  cases hs : p.sendLoop.stopped with
  | true => exact canStrand_of_stopped hs hq
  | false =>
    have hf : p.finished = false :=
      Bool.eq_false_iff.mpr fun h => by simp [(hi.finished h).1, SendPc.stopped] at hs
    cases hl : p.recvLoop with
    | returned => exact canStrand_of_recvReturned hf hl hq
    | exiting => exact canStrand_of_recvExiting hf hl hq
    | head => exact canStrand_of_recvHead (racing_iff.mpr ⟨hf, hs, by rw [hl]; rfl⟩) hc hl hq
    | send msg =>
      exact canStrand_of_recvSend (racing_iff.mpr ⟨hf, hs, by rw [hl]; rfl⟩) hc hh hcap hl hq
    | next =>
      have hr : p.racing = true := racing_iff.mpr ⟨hf, hs, by rw [hl]; rfl⟩
      cases hin : p.incoming with
      | cons item rest => exact canStrand_of_cons hr hc hh hcap hl hin hq
      | nil =>
        have hrule := @Rule.arrive _ p (some (.ok .other))
        refine canStrand_of_rule hrule rfl rfl rfl ?_
        exact canStrand_of_cons hr hc hh hcap hl (by rw [hin]; rfl) hq

/-- The capacity of `inner_recv` never changes. -/
theorem recvCap_of_run {u md : String} {tr : Trace β} (h : (machine β).Run (new u md) tr p) :
    p.innerRecv.cap = chanCap := by
  refine h.invariant (fun q => q.innerRecv.cap = chanCap) rfl ?_
  intro t a t' o hcap hs
  cases rule_of_step hs with
  | read _ hr => rw [hr, (readOutcome_chan _ _ _).2.2.1, hcap]
  | recvPut _ _ hsend =>
    obtain ⟨-, -, -, -, -, hcap', -⟩ := Chan.trySend_ok hsend
    exact hcap'.trans hcap
  | drop _ hp' _ | dropLast _ hp' _ =>
    subst hp'
    exact hcap
  | _ => exact hcap

/-! ### The accounts -/

/-- **Where accepted messages are at a flush and after closing.** When a flush reports success,
the stored messages are those handed over, the one held and those queued, so they are all handed
over exactly when none is held or queued. After closing, `send_loop` takes at most one more
message, and that only if it waits for one at the call; the rest of the queue stays in the
channel. So the websocket being steady, `send_loop` never stops over a message stored before the
call exactly when none is queued at the call. -/
theorem flush_close_account {u md : String} {tr : Trace β}
    (h : (machine β).Run (new u md) tr p) :
    (∀ k p', (machine β).step p (.pollFlush k) = some (p', .flushed (.ready (.ok ()))) →
      stored tr = handed tr ++ held p ++ p.innerSend.queue ∧
        (handed tr = stored tr ↔ held p = [] ∧ p.innerSend.queue = [])) ∧
    ∀ k p' o, (machine β).step p (.pollClose k) = some (p', o) →
      (∀ tr' q, (machine β).Run p' tr' q →
        stored tr = took tr ++ p.innerSend.queue ∧ (took tr').length ≤ takeBudget p ∧
          leftOf p tr' <+: q.innerSend.queue ∧
          p.innerSend.queue.length ≤ (leftOf p tr').length + takeBudget p) ∧
      ((∀ tr' q, (machine β).Run p' tr' q → (∀ e ∈ tr', steady e.act = true) →
        q.sendLoop.stopped = true → leftOf p tr' = []) ↔ p.innerSend.queue = []) := by
  refine ⟨fun k p' hs => ?_, fun k p' o hs => ?_⟩
  · have heq := stored_eq_of_flush h hs
    refine ⟨heq, ?_⟩
    rw [heq, List.append_assoc, List.self_eq_append_right, List.append_eq_nil_iff]
  · have hi' := inv_of_run (h.snoc hs)
    cases rule_of_step hs with
    | close hh =>
      refine ⟨fun tr' q hrun => ?_, fun hnever => ?_, fun hq tr' q _ _ _ => ?_⟩
      · have hle := took_le_of_run hrun rfl
        have hleft := leftOf_isPrefix hrun
        change _ ≤ takeBudget p at hle
        refine ⟨stored_eq_of_run h, hle, hleft, ?_⟩
        rw [leftOf, List.length_drop]
        omega
      · by_contra hq
        have hcap : 0 < p.innerRecv.cap := by rw [recvCap_of_run h, chanCap]; omega
        obtain ⟨tr', q, hrun, hsteady, hl, hleft⟩ :=
          canStrand (p := { p with closed := true }) hi' rfl hh hcap hq
        exact hleft (hnever tr' q hrun hsteady hl)
      · rw [leftOf, hq, List.drop_nil]

/-- A message is handed over before a flush reports success. And with two messages queued at a
close, `send_loop` takes the one that it is waiting for, and the other one stays. -/
theorem flush_close_account_one :
    (∃ (tr : Trace UInt8) (p p' : Pipe UInt8), (machine UInt8).Run (new "" "") tr p ∧
      (machine UInt8).step p (.pollFlush 0) = some (p', .flushed (.ready (.ok ()))) ∧
      stored tr = [[1, 2]] ∧ handed tr = stored tr) ∧
    ∃ (tr tr' : Trace UInt8) (p p' q : Pipe UInt8), (machine UInt8).Run (new "" "") tr p ∧
      (machine UInt8).step p (.pollClose 0) = some (p', .closed (.ready (.ok ()))) ∧
      (machine UInt8).Run p' tr' q ∧ q.sendLoop.stopped = true ∧
      p.innerSend.queue = [[3], [4]] ∧ took tr' = [[3]] ∧ leftOf p tr' = [[4]] ∧
      leftOf p tr' <+: q.innerSend.queue ∧ (took tr').length ≤ takeBudget p := by
  constructor
  · obtain ⟨tr, p, hrun, -, ⟨p', o⟩, hs, ho, hst, hn⟩ :=
      Machine.exists_run_of_exec (machine UInt8) (new "" "")
        [.pollWrite 0 [1, 2], .pollWriteSend 0, .sendHead, .sendRecv, .sinkTake]
        (P := fun tr p => ∃ r ∈ (machine UInt8).step p (.pollFlush 0),
          r.2 = .flushed (.ready (.ok ())) ∧ stored tr = [[1, 2]] ∧
            held p = [] ∧ p.innerSend.queue = []) (by decide)
    subst ho
    exact ⟨tr, p, p', hrun, hs, hst, ((flush_close_account hrun).1 0 p' hs).2.mpr hn⟩
  · obtain ⟨tr, p, hrun, -, hq, ⟨p', o⟩, hs, ho, r, hr, hstop, htook, hleft⟩ :=
      Machine.exists_run_of_exec (machine UInt8) (new "" "")
        [.sendHead, .sendRecv, .pollWrite 0 [3], .pollWriteSend 0, .pollWrite 0 [4],
          .pollWriteSend 0]
        (P := fun _ p => p.innerSend.queue = [[3], [4]] ∧
          ∃ r ∈ (machine UInt8).step p (.pollClose 0), r.2 = .closed (.ready (.ok ())) ∧
            ∃ r' ∈ (machine UInt8).exec r.1 [.sendRecv, .sinkTake, .sinkFlush, .sendHead],
              r'.2.sendLoop.stopped = true ∧ took r'.1 = [[3]] ∧ leftOf p r'.1 = [[4]])
        (by decide)
    subst ho
    have hrun' := Machine.run_of_mem_exec hr
    obtain ⟨-, hbudget, hpre, -⟩ := ((flush_close_account hrun).2 0 p' _ hs).1 r.1 r.2 hrun'
    exact ⟨tr, r.1, p, p', r.2, hrun, hs, hrun', hstop, hq, htook, hleft, hpre, hbudget⟩

/-- A stored message that is not handed over when the flush reports success, and that closing then
leaves in the channel. -/
theorem flush_close_fails :
    ∃ (tr : Trace UInt8) (p : Pipe UInt8), (machine UInt8).Run (new "" "") tr p ∧
      (∀ e ∈ tr, steady e.act = true) ∧
      tr.map Event.out = [.tau, .wrote [1] (.ready (.ok 1)), .flushed (.ready (.ok ())),
        .closed (.ready (.ok ())), .tau] ∧
      handed tr = [] ∧ p.sendLoop.stopped = true ∧ p.innerSend.queue = [[1]] := by
  obtain ⟨tr, p, hrun, -, h⟩ :=
    Machine.exists_run_of_exec (machine UInt8) (new "" "")
      [.pollWrite 0 [1], .pollWriteSend 0, .pollFlush 0, .pollClose 0, .sendHead]
      (P := fun tr p => (∀ e ∈ tr, steady e.act = true) ∧
        tr.map Event.out = [.tau, .wrote [1] (.ready (.ok 1)), .flushed (.ready (.ok ())),
          .closed (.ready (.ok ())), .tau] ∧
        handed tr = [] ∧ p.sendLoop.stopped = true ∧ p.innerSend.queue = [[1]]) (by decide)
  exact ⟨tr, p, hrun, h⟩

end Pipe

end ObfsWs
