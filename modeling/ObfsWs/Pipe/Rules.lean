import ObfsWs.Pipe.Defs

/-!
# The rules of the pipe

`Rule p a o p'` lists, one constructor per branch of the source, everything a step can do: its
guards, its outcome and the state it leaves. `step_iff_rule` says that the list is complete and
that every entry is a step. Invariants are proved by cases on the rule, runs are built from rules,
and neither unfolds a step function.

## The two descriptions

The step functions are the code, in the order in which the code looks at things; a reader checks
them against the source. The rules are the same transitions, but each with everything that is
known when it happens: the state of the loop, the outcome of the channel operation, the new state.
Proofs use the rules. If a function of the source changes, its step function changes with it, one
of the lemmas `rule_*` fails, and the constructor that has to change is the one this lemma is
about; the invariants then fail in that case and in no other.

The equivalence is in both directions because the modules above need both. An invariant needs that
nothing else can happen. A statement that something is stuck, or can go on, needs that what the
rules allow does happen.
-/

namespace ObfsWs

namespace Pipe

variable {β : Type}

/-- What a step can do. -/
inductive Rule (p : Pipe β) : Act β → Out β → Pipe β → Prop
  | writeBroken {h msg recvBuf} : p.handle? h = some ⟨recvBuf, none⟩ → p.closed = true →
      Rule p (.pollWrite h msg) (.wrote msg (.ready (.error .brokenPipe))) p
  | writeEnter {h msg recvBuf} : p.handle? h = some ⟨recvBuf, none⟩ → p.closed = false →
      Rule p (.pollWrite h msg) .tau (p.setHandle h ⟨recvBuf, some msg⟩)
  | writeStored {h msg recvBuf ch woken} : p.handle? h = some ⟨recvBuf, some msg⟩ →
      p.innerSend.trySend msg = .ok (ch, woken) →
      Rule p (.pollWriteSend h) (.wrote msg (.ready (.ok msg.length)))
        { p.setHandle h ⟨recvBuf, none⟩ with innerSend := ch }
  | writeLost {h msg recvBuf e} : p.handle? h = some ⟨recvBuf, some msg⟩ →
      p.innerSend.trySend msg = .error e →
      Rule p (.pollWriteSend h) (.wrote msg (.ready (.ok msg.length)))
        (p.setHandle h ⟨recvBuf, none⟩)
  | flush {h recvBuf} : p.handle? h = some ⟨recvBuf, none⟩ →
      Rule p (.pollFlush h)
        (.flushed (.ready (if p.closed then .error .brokenPipe else .ok ()))) p
  | close {h recvBuf} : p.handle? h = some ⟨recvBuf, none⟩ →
      Rule p (.pollClose h) (.closed (.ready (.ok ()))) { p with closed := true }
  | read {h ctx buf recvBuf r} : p.handle? h = some ⟨recvBuf, none⟩ →
      r = readOutcome recvBuf p.innerRecv buf →
      Rule p (.pollRead h ctx buf) (.read r.res r.buf)
        { p.setHandle h ⟨r.recvBuf, none⟩ with innerRecv := r.chan }
  | clone {h recvBuf} : p.handle? h = some ⟨recvBuf, none⟩ →
      Rule p (.clone h) .tau { p with handles := p.handles ++ [some ⟨recvBuf, none⟩] }
  | drop {h recvBuf p'} : p.handle? h = some ⟨recvBuf, none⟩ →
      p' = { p with handles := p.handles.set h none } → p'.alive = true →
      Rule p (.drop h) .tau p'
  | dropLast {h recvBuf p'} : p.handle? h = some ⟨recvBuf, none⟩ →
      p' = { p with handles := p.handles.set h none } → p'.alive = false →
      Rule p (.drop h) .tau
        { p' with innerSend := p.innerSend.close.1, innerRecv := p.innerRecv.close.1 }
  | sendHead : p.racing = true → p.sendLoop = .head →
      Rule p .sendHead .tau { p with sendLoop := if p.closed then .exiting else .recv }
  | sendTook {msg ch} : p.racing = true → p.sendLoop = .recv →
      p.innerSend.tryRecv = .ok (msg, ch) →
      Rule p .sendRecv (.took msg) { p with innerSend := ch, sendLoop := .send msg }
  | sendHungUp : p.racing = true → p.sendLoop = .recv → p.innerSend.queue = [] →
      p.innerSend.closed = true →
      Rule p .sendRecv .tau { p with sendLoop := .exiting }
  | sendPark {ch} : p.racing = true → p.sendLoop = .recv → p.innerSend.queue = [] →
      p.innerSend.closed = false → Waker.task ∉ p.innerSend.listeners →
      ch = { p.innerSend with listeners := p.innerSend.listeners.insert .task } →
      Rule p .sendRecv .tau { p with innerSend := ch }
  | sinkTake {msg} : p.racing = true → p.writable = true → p.sendLoop = .send msg →
      Rule p .sinkTake (.handed msg) { p with sendLoop := .flush }
  | sinkFlush : p.racing = true → p.writable = true → p.sendLoop = .flush →
      Rule p .sinkFlush .tau { p with sendLoop := .head }
  | sinkFail : p.racing = true → (p.sendLoop = .flush ∨ ∃ msg, p.sendLoop = .send msg) →
      Rule p .sinkFail .tau { p with closed := true, sendLoop := .exiting }
  | sendReturn : p.finished = false → p.sendLoop = .exiting →
      Rule p .sendReturn .tau
        { p with sendLoop := .returned, innerSend := p.innerSend.close.1 }
  | recvHead : p.racing = true → p.recvLoop = .head →
      Rule p .recvHead .tau { p with recvLoop := if p.closed then .exiting else .next }
  | recvBinary {msg rest} : p.racing = true → p.recvLoop = .next →
      p.incoming = some (.ok (.binary msg)) :: rest →
      Rule p .recvNext .tau { p with incoming := rest, recvLoop := .send msg }
  | recvSkip {item rest} : p.racing = true → p.recvLoop = .next →
      p.incoming = item :: rest →
      (item = some (.ok .other) ∨ item = some (.error .error)) →
      Rule p .recvNext .tau { p with incoming := rest, recvLoop := .head }
  | recvEnd {rest} : p.racing = true → p.recvLoop = .next → p.incoming = none :: rest →
      Rule p .recvNext .tau { p with incoming := rest, closed := true, recvLoop := .exiting }
  | recvPut {msg ch woken} : p.racing = true → p.recvLoop = .send msg →
      p.innerRecv.trySend msg = .ok (ch, woken) →
      Rule p .recvSend (.put msg woken) { p with innerRecv := ch, recvLoop := .head }
  | recvHungUp {msg} : p.racing = true → p.recvLoop = .send msg → p.innerRecv.closed = true →
      Rule p .recvSend .tau { p with recvLoop := .exiting }
  | recvReturn : p.finished = false → p.recvLoop = .exiting →
      Rule p .recvReturn (.hungUp p.innerRecv.listeners)
        { p with recvLoop := .returned, innerRecv := p.innerRecv.close.1 }
  | finish : p.finished = false → (p.sendLoop = .returned ∨ p.recvLoop = .returned) →
      Rule p .finish (.hungUp p.innerRecv.listeners)
        { p with
          finished := true
          sendLoop := .returned
          recvLoop := .returned
          innerSend := p.innerSend.close.1
          innerRecv := p.innerRecv.close.1 }
  | arrive {item} : Rule p (.arrive item) .tau { p with incoming := p.incoming ++ [item] }
  | setWritable {b} : Rule p (.setWritable b) .tau { p with writable := b }

/-! ### Completeness of the rules, call by call -/

section

variable {p p' : Pipe β} {o : Out β} {h : ℕ}

theorem rule_pollWrite {msg : List β} (hs : p.pollWrite h msg = some (p', o)) :
    Rule p (.pollWrite h msg) o p' := by
  unfold pollWrite at hs
  split at hs
  · rename_i hh
    split at hs <;> rename_i hc <;> cases hs
    · exact .writeBroken hh hc
    · exact .writeEnter hh (by simpa using hc)
  · cases hs

theorem rule_pollWriteSend (hs : p.pollWriteSend h = some (p', o)) :
    Rule p (.pollWriteSend h) o p' := by
  unfold pollWriteSend at hs
  split at hs
  · rename_i hh
    dsimp only at hs
    split at hs <;> rename_i hsend <;> cases hs
    · exact .writeStored hh hsend
    · exact .writeLost hh hsend
  · cases hs

theorem rule_pollRead {ctx : Waker} {buf : List β}
    (hs : p.pollReadHandle h ctx buf = some (p', o)) : Rule p (.pollRead h ctx buf) o p' := by
  unfold pollReadHandle at hs
  split at hs
  · rename_i hh
    simp only [pollRead_eq, Option.some.injEq, Prod.mk.injEq] at hs
    obtain ⟨rfl, rfl⟩ := hs
    exact .read hh rfl
  · cases hs

theorem rule_drop (hs : p.drop h = some (p', o)) : Rule p (.drop h) o p' := by
  unfold drop at hs
  split at hs
  · rename_i hh
    dsimp only at hs
    split at hs <;> rename_i ha <;> cases hs
    · exact .drop hh rfl ha
    · exact .dropLast hh rfl (by simpa using ha)
  · cases hs

theorem rule_sendRecv (hs : p.sendRecv = some (p', o)) : Rule p .sendRecv o p' := by
  unfold sendRecv at hs
  split at hs
  · rename_i hr hl
    obtain ⟨msg, ch, hp, ht⟩ | ⟨hp, hq, hc⟩ | ⟨hp, hq, hc⟩ := p.innerSend.pollRecv_cases .task
    · rw [hp] at hs
      cases hs
      exact .sendTook hr hl ht
    · rw [hp] at hs
      cases hs
      exact .sendHungUp hr hl hq hc
    · rw [hp] at hs
      dsimp only at hs
      split at hs <;> rename_i hmem <;> cases hs
      exact .sendPark hr hl hq hc hmem rfl
  · cases hs

theorem rule_recvNext (hs : p.recvNext = some (p', o)) : Rule p .recvNext o p' := by
  unfold recvNext at hs
  split at hs
  · rename_i hr hl hi
    dsimp only at hs
    split at hs <;> cases hs
    · exact .recvBinary hr hl hi
    · exact .recvSkip hr hl hi (.inl rfl)
    · exact .recvSkip hr hl hi (.inr rfl)
    · exact .recvEnd hr hl hi
  · cases hs

theorem rule_recvSend (hs : p.recvSend = some (p', o)) : Rule p .recvSend o p' := by
  unfold recvSend at hs
  split at hs
  · rename_i hr hl
    split at hs <;> rename_i hsend <;> cases hs
    · exact .recvPut hr hl hsend
    · exact .recvHungUp hr hl (Chan.trySend_closed_iff.mp hsend)
  · cases hs

theorem rule_sinkFail (hs : p.sinkFail = some (p', o)) : Rule p .sinkFail o p' := by
  unfold sinkFail at hs
  split at hs <;> cases hs <;> rename_i hr hl
  · exact .sinkFail hr (.inr ⟨_, hl⟩)
  · exact .sinkFail hr (.inl hl)

theorem rule_finish (hs : p.finish = some (p', o)) : Rule p .finish o p' := by
  unfold finish at hs
  split at hs <;> rename_i hg <;> cases hs
  simp only [Bool.and_eq_true, Bool.not_eq_true', Bool.or_eq_true, SendPc.gone_iff,
    RecvPc.gone_iff] at hg
  exact .finish hg.1 hg.2

/-- **The rules are complete.** -/
theorem rule_of_step {a : Act β} (hs : (machine β).step p a = some (p', o)) : Rule p a o p' := by
  change p.step a = some (p', o) at hs
  cases a with
  | pollWrite h msg => exact rule_pollWrite hs
  | pollWriteSend h => exact rule_pollWriteSend hs
  | pollFlush h =>
    simp only [step, pollFlush] at hs
    split at hs <;> cases hs
    exact .flush ‹_›
  | pollClose h =>
    simp only [step, pollClose] at hs
    split at hs <;> cases hs
    exact .close ‹_›
  | pollRead h ctx buf => exact rule_pollRead hs
  | clone h =>
    simp only [step, Pipe.clone] at hs
    split at hs <;> cases hs
    exact .clone ‹_›
  | drop h => exact rule_drop hs
  | sendHead =>
    simp only [step, sendHead] at hs
    split at hs <;> cases hs
    exact .sendHead ‹_› ‹_›
  | sendRecv => exact rule_sendRecv hs
  | sinkTake =>
    simp only [step, sinkTake] at hs
    split at hs <;> rename_i hg hl <;> cases hs
    rw [Bool.and_eq_true] at hg
    exact .sinkTake hg.1 hg.2 hl
  | sinkFlush =>
    simp only [step, sinkFlush] at hs
    split at hs <;> rename_i hg hl <;> cases hs
    rw [Bool.and_eq_true] at hg
    exact .sinkFlush hg.1 hg.2 hl
  | sinkFail => exact rule_sinkFail hs
  | sendReturn =>
    simp only [step, sendReturn] at hs
    split at hs <;> cases hs
    exact .sendReturn ‹_› ‹_›
  | recvHead =>
    simp only [step, recvHead] at hs
    split at hs <;> cases hs
    exact .recvHead ‹_› ‹_›
  | recvNext => exact rule_recvNext hs
  | recvSend => exact rule_recvSend hs
  | recvReturn =>
    simp only [step, recvReturn] at hs
    split at hs <;> cases hs
    exact .recvReturn ‹_› ‹_›
  | finish => exact rule_finish hs
  | arrive item => cases hs; exact .arrive
  | setWritable b => cases hs; exact .setWritable

/-- **The rules are sound.** -/
theorem step_of_rule {a : Act β} (hr : Rule p a o p') : (machine β).step p a = some (p', o) := by
  change p.step a = some (p', o)
  cases hr with
  | writeBroken hh hc => simp [step, pollWrite, hh, hc]
  | writeEnter hh hc => simp [step, pollWrite, hh, hc]
  | writeStored hh hsend =>
    simp only [step, pollWriteSend, hh]
    rw [show (p.setHandle _ _).innerSend.trySend _ = _ from hsend]
  | writeLost hh hsend =>
    simp only [step, pollWriteSend, hh]
    rw [show (p.setHandle _ _).innerSend.trySend _ = _ from hsend]
  | flush hh => simp [step, pollFlush, hh]
  | close hh => simp [step, pollClose, hh]
  | read hh hr => simp [step, pollReadHandle, hh, pollRead_eq, hr]
  | clone hh => simp [step, Pipe.clone, hh]
  | drop hh hp ha =>
    subst hp
    simp [step, Pipe.drop, hh, ha]
  | dropLast hh hp ha =>
    subst hp
    simp [step, Pipe.drop, hh, ha]
  | sendHead hr hl => simp [step, sendHead, hr, hl]
  | sendTook hr hl ht => simp [step, sendRecv, hr, hl, Chan.pollRecv, ht]
  | sendHungUp hr hl hq hc =>
    have he := (Chan.tryRecv_error_iff (c := p.innerSend)).mpr ⟨hq, rfl⟩
    simp [step, sendRecv, hr, hl, Chan.pollRecv, he, hc]
  | sendPark hr hl hq hc hm hch =>
    have he := (Chan.tryRecv_error_iff (c := p.innerSend)).mpr ⟨hq, rfl⟩
    simp [step, sendRecv, hr, hl, Chan.pollRecv, he, hc, hm, hch]
  | sinkTake hr hw hl => simp [step, sinkTake, hr, hw, hl]
  | sinkFlush hr hw hl => simp [step, sinkFlush, hr, hw, hl]
  | sinkFail hr hl =>
    obtain hl | ⟨msg, hl⟩ := hl <;> simp [step, sinkFail, hr, hl]
  | sendReturn hf hl => simp [step, sendReturn, hf, hl]
  | recvHead hr hl => simp [step, recvHead, hr, hl]
  | recvBinary hr hl hi => simp [step, recvNext, hr, hl, hi]
  | recvSkip hr hl hi hitem => obtain rfl | rfl := hitem <;> simp [step, recvNext, hr, hl, hi]
  | recvEnd hr hl hi => simp [step, recvNext, hr, hl, hi]
  | recvPut hr hl hsend => simp [step, recvSend, hr, hl, hsend]
  | @recvHungUp msg hr hl hc =>
    have he := (Chan.trySend_closed_iff (m := msg)).mpr hc
    simp [step, recvSend, hr, hl, he]
  | recvReturn hf hl => simp [step, recvReturn, hf, hl, Chan.close]
  | finish hf hl =>
    simp only [step, finish]
    rw [if_pos (by simpa [hf] using hl)]
    rfl
  | arrive => rfl
  | setWritable => rfl

/-- A step is a rule. -/
theorem step_iff_rule {a : Act β} : (machine β).step p a = some (p', o) ↔ Rule p a o p' :=
  ⟨rule_of_step, step_of_rule⟩

end

end Pipe

end ObfsWs
