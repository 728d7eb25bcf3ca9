import ObfsWs.Pipe.ReadSide

/-!
# The leftover

What `recv_buf` can hold, and what one `poll_read` does to the caller's buffer and the channel.
The leftover always comes from one message: the one that was dequeued last.

## Main definitions

* `dequeued` — the messages taken from `inner_recv`, oldest first

## Main results

* `Pipe.leftover_of_run` — the leftover is empty or the rest of the message dequeued last
* `Pipe.pollRead_safe` — every `poll_read` in every reachable state returns, and stays in bounds

## What is left open

`pollRead_safe` is about single calls in reachable states. That the bytes which a call delivers
are the next ones of the stream is the subject of `ReadSide`, and holds under a condition of its
own.

The leftover is the rest of the message that was dequeued last only while the handles are not
cloned: a clone copies the leftover, and from then on another handle may dequeue in between. So
the statements are about runs without clones. What one call does to a buffer and a leftover of any
length is `pollRead_eq`, and needs no run.
-/

namespace ObfsWs

variable {β ω : Type}

/-! ### One call -/

/-- The buffer keeps its length, and behind the bytes reported it is untouched. -/
theorem readOutcome_buf (recvBuf : List β) (ch : Chan (List β) ω) (buf : List β) :
    (readOutcome recvBuf ch buf).buf.length = buf.length ∧
      ∀ n, (readOutcome recvBuf ch buf).res = .ready (.ok n) →
        n ≤ buf.length ∧ (readOutcome recvBuf ch buf).buf.drop n = buf.drop n := by
  by_cases hlong : buf.length < recvBuf.length
  · rw [readOutcome_long ch hlong]
    refine ⟨List.length_take_of_le hlong.le, ?_⟩
    rintro n hn
    obtain rfl : buf.length = n := by injection hn with hn; injection hn
    refine ⟨le_rfl, ?_⟩
    rw [List.drop_length, List.drop_eq_nil_of_le (List.length_take_le _ _)]
  · have hfit := Nat.le_of_not_lt hlong
    rcases hr : ch.tryRecv with e | ⟨msg, ch'⟩
    · rw [readOutcome_vain hfit (Chan.tryRecv_error_iff.mp hr).1]
      refine ⟨?_, fun n hn => by cases hn⟩
      rw [List.length_append, List.length_drop]
      omega
    · rw [readOutcome_next hfit hr]
      have hle : (recvBuf ++ msg.take (buf.length - recvBuf.length)).length ≤ buf.length := by
        rw [List.length_append, List.length_take]
        omega
      refine ⟨?_, ?_⟩
      · show (_ ++ List.drop _ buf).length = _
        rw [List.length_append, List.length_drop]
        omega
      · rintro n hn
        obtain rfl : (recvBuf ++ msg.take (buf.length - recvBuf.length)).length = n := by
          injection hn with hn
          injection hn
        exact ⟨hle, List.drop_left⟩

/-- What a call takes and what it leaves behind: nothing taken and a suffix of the leftover kept,
or one message taken, the leftover having fitted, and a suffix of the message kept. -/
theorem readOutcome_leftover (recvBuf : List β) (ch : Chan (List β) ω) (buf : List β) :
    ((readOutcome recvBuf ch buf).chan.queue = ch.queue ∧
        (readOutcome recvBuf ch buf).recvBuf <:+ recvBuf) ∨
      ∃ msg, ch.queue = msg :: (readOutcome recvBuf ch buf).chan.queue ∧
        recvBuf.length ≤ buf.length ∧ (readOutcome recvBuf ch buf).recvBuf <:+ msg := by
  by_cases hlong : buf.length < recvBuf.length
  · rw [readOutcome_long ch hlong]
    exact .inl ⟨rfl, List.drop_suffix _ _⟩
  · have hfit := Nat.le_of_not_lt hlong
    rcases hr : ch.tryRecv with e | ⟨msg, ch'⟩
    · rw [readOutcome_vain hfit (Chan.tryRecv_error_iff.mp hr).1]
      exact .inl ⟨rfl, List.nil_suffix⟩
    · rw [readOutcome_next hfit hr]
      exact .inr ⟨msg, (Chan.tryRecv_ok hr).1, hfit, List.drop_suffix _ _⟩

/-! ### Whole runs -/

/-- The messages that a step took from `inner_recv`. -/
def Event.dequeues (e : Event (Pipe β) (Act β) (Out β)) : List (List β) :=
  e.pre.innerRecv.queue.take (e.pre.innerRecv.queue.length - e.post.innerRecv.queue.length)

/-- The messages taken from `inner_recv`, oldest first. -/
def dequeued (tr : Trace β) : List (List β) := tr.flatMap Event.dequeues

@[simp] theorem dequeued_snoc (tr : Trace β) (e : Event (Pipe β) (Act β) (Out β)) :
    dequeued (tr ++ [e]) = dequeued tr ++ e.dequeues := by simp [dequeued]

namespace Pipe

variable {p p' : Pipe β} {a : Act β} {o : Out β}

theorem dequeues_of_eq (h : p'.innerRecv.queue = p.innerRecv.queue) :
    Event.dequeues ⟨p, a, o, p'⟩ = [] := by
  rw [Event.dequeues, h, Nat.sub_self, List.take_zero]

theorem dequeues_of_put {msg : List β} (h : p'.innerRecv.queue = p.innerRecv.queue ++ [msg]) :
    Event.dequeues ⟨p, a, o, p'⟩ = [] := by
  have hlen : p.innerRecv.queue.length - p'.innerRecv.queue.length = 0 := by
    rw [h, List.length_append]
    omega
  rw [Event.dequeues, hlen, List.take_zero]

theorem dequeues_of_cons {msg : List β} (h : p.innerRecv.queue = msg :: p'.innerRecv.queue) :
    Event.dequeues ⟨p, a, o, p'⟩ = [msg] := by
  have hlen : p.innerRecv.queue.length - p'.innerRecv.queue.length = 1 := by
    rw [h, List.length_cons]
    omega
  rw [Event.dequeues, hlen, h]
  rfl

/-- The channel is a queue: what a step takes from it stood at its head, and what is put comes to
its end. -/
theorem queue_of_readRule (hr : ReadRule p a o p') :
    p.innerRecv.queue ++ o.puts = Event.dequeues ⟨p, a, o, p'⟩ ++ p'.innerRecv.queue := by
  cases hr with
  | quiet _ _ hput _ _ hq => rw [dequeues_of_eq hq, hput, hq, List.append_nil, List.nil_append]
  | put _ hq =>
    rw [dequeues_of_put hq, hq]
    rfl
  | @read _ _ buf hd r _ _ hres _ hq =>
    have hleft := readOutcome_leftover hd.recvBuf p.innerRecv buf
    rw [← hres, ← hq] at hleft
    rcases hleft with ⟨hsame, -⟩ | ⟨msg, hcons, -, -⟩
    · rw [dequeues_of_eq hsame, hsame]
      exact List.append_nil _
    · rw [dequeues_of_cons hcons, hcons]
      exact List.append_nil _
  | clone _ _ hq | drop _ hq =>
    rw [dequeues_of_eq hq, hq]
    exact List.append_nil _

/-- The one leftover is empty or the rest of the message dequeued last, and what was dequeued and
what is queued is what was received. -/
structure Leftover (tr : Trace β) (p : Pipe β) : Prop where
  one : (bufs p).length = 1
  suffix : ∀ recvBuf ∈ bufs p, recvBuf = [] ∨
    ∃ msg, (dequeued tr).getLast? = some msg ∧ recvBuf <:+ msg
  queue : dequeued tr ++ p.innerRecv.queue = puts tr

/-- A step that leaves the leftover and the channel alone. -/
theorem Leftover.quiet {tr : Trace β} (hi : Leftover tr p) (hput : o.puts = [])
    (hbufs : bufs p' = bufs p) (hq : p'.innerRecv.queue = p.innerRecv.queue) :
    Leftover (tr ++ [⟨p, a, o, p'⟩]) p' where
  one := by rw [hbufs, hi.one]
  suffix := by
    rw [dequeued_snoc, dequeues_of_eq hq, List.append_nil, hbufs]
    exact hi.suffix
  queue := by
    rw [dequeued_snoc, dequeues_of_eq hq, List.append_nil, puts_snoc, hput, List.append_nil, hq,
      hi.queue]

theorem Leftover.read {tr : Trace β} {h : ℕ} {hd : Handle β} {buf : List β} {ctx : Waker}
    {r : ReadResult β Waker} (hi : Leftover tr p) (hh : p.handle? h = some hd)
    (hr : r = readOutcome hd.recvBuf p.innerRecv buf)
    (hbufs : bufs p' = (bufs p).set h r.recvBuf) (hq : p'.innerRecv.queue = r.chan.queue) :
    Leftover (tr ++ [⟨p, .pollRead h ctx buf, .read r.res r.buf, p'⟩]) p' := by
  obtain ⟨x, hx⟩ := List.length_eq_one_iff.mp hi.one
  obtain ⟨rfl, rfl⟩ := handle_of_single hx hh
  have hone : bufs p' = [r.recvBuf] := by rw [hbufs, hx, List.set_cons_zero]
  have hleft := readOutcome_leftover hd.recvBuf p.innerRecv buf
  rw [← hr, ← hq] at hleft
  refine ⟨by rw [hone]; rfl, ?_, ?_⟩
  · intro recvBuf hmem
    rw [hone] at hmem
    obtain rfl := List.mem_singleton.mp hmem
    rw [dequeued_snoc]
    rcases hleft with ⟨hsame, hsuf⟩ | ⟨msg, hcons, -, hsuf⟩
    · rw [dequeues_of_eq hsame, List.append_nil]
      have hold := hi.suffix hd.recvBuf (by rw [hx]; exact List.mem_singleton_self _)
      rcases hold with hnil | ⟨msg, hlast, hmsg⟩
      · rw [hnil] at hsuf
        exact .inl (List.suffix_nil.mp hsuf)
      · exact .inr ⟨msg, hlast, hsuf.trans hmsg⟩
    · rw [dequeues_of_cons hcons, List.getLast?_concat]
      exact .inr ⟨msg, rfl, hsuf⟩
  · rw [dequeued_snoc, puts_snoc]
    show _ = puts tr ++ []
    rw [List.append_nil, ← hi.queue]
    rcases hleft with ⟨hsame, -⟩ | ⟨msg, hcons, -, -⟩
    · rw [dequeues_of_eq hsame, List.append_nil, hsame]
    · rw [dequeues_of_cons hcons, List.append_assoc, hcons]
      rfl

/-- One step. -/
theorem Leftover.step {tr : Trace β} (hi : Leftover tr p) (hc : a.clones = false)
    (hr : ReadRule p a o p') : Leftover (tr ++ [⟨p, a, o, p'⟩]) p' := by
  cases hr with
  | quiet _ _ hput _ hbufs hq => exact hi.quiet hput hbufs hq
  | @put msg woken _ hbufs hq =>
    refine ⟨by rw [hbufs, hi.one], ?_, ?_⟩
    · rw [dequeued_snoc, dequeues_of_put hq, List.append_nil, hbufs]
      exact hi.suffix
    · rw [dequeued_snoc, dequeues_of_put hq, List.append_nil, puts_snoc, hq, ← List.append_assoc,
        hi.queue]
      rfl
  | read hh hr hbufs hq => exact hi.read hh hr hbufs hq
  | clone => cases hc
  | @drop h _ hbufs hq =>
    refine ⟨by rw [hbufs, List.length_set, hi.one], ?_, ?_⟩
    · intro recvBuf hmem
      obtain ⟨x, hx⟩ := List.length_eq_one_iff.mp hi.one
      rw [dequeued_snoc, dequeues_of_eq hq, List.append_nil]
      rw [hbufs] at hmem
      rcases List.mem_or_eq_of_mem_set hmem with hmem | rfl
      · exact hi.suffix recvBuf hmem
      · exact .inl rfl
    · rw [dequeued_snoc, dequeues_of_eq hq, List.append_nil, puts_snoc, hq, hi.queue]
      exact (List.append_nil _).symm

/-- **The leftover is the rest of one message**, in every state that a pipe that is not cloned
can reach. -/
theorem leftover_of_run {u md : String} {tr : Trace β} (h : (machine β).Run (new u md) tr p)
    (hc : ∀ e ∈ tr, e.act.clones = false) : Leftover tr p := by
  refine h.induct (fun tr p => (∀ e ∈ tr, e.act.clones = false) → Leftover tr p) ?_ ?_ hc
  · intro _
    refine ⟨rfl, ?_, rfl⟩
    rintro recvBuf hmem
    exact .inl (List.mem_singleton.mp hmem)
  · intro tr t a t' o _ ih hs hc
    have hctr : ∀ e ∈ tr, e.act.clones = false := fun e he => hc e (List.mem_append_left _ he)
    have hca : a.clones = false := hc _ (List.mem_append_right _ (List.mem_singleton_self _))
    exact (ih hctr).step hca (readRule_of_rule (rule_of_step hs))

/-- No call panics. -/
theorem not_panicked_of_run {u md : String} {tr : Trace β}
    (h : (machine β).Run (new u md) tr p) : ∀ e ∈ tr, e.out ≠ .panicked := by
  refine h.induct (fun tr _ => ∀ e ∈ tr, e.out ≠ .panicked) ?_ ?_
  · intro e he
    exact absurd he List.not_mem_nil
  · intro tr t a t' o _ ih hs e he
    rcases List.mem_append.mp he with he | he
    · exact ih e he
    · obtain rfl := List.mem_singleton.mp he
      rintro rfl
      cases rule_of_step hs

/-- **`poll_read` is safe.** In every state that arrivals and reads can reach: no call has
panicked and none will; the leftover is the rest of the message dequeued last and no longer than
some message received; a call reports at most as many bytes as the buffer has, leaves the others
as they were, and takes at most one message, that one only when the leftover fits the buffer. -/
theorem pollRead_safe {u md : String} {tr : Trace β} (h : (machine β).Run (new u md) tr p)
    (hc : ∀ e ∈ tr, e.act.clones = false) :
    (∀ e ∈ tr, e.out ≠ .panicked) ∧
    ∀ hd ∈ p.handle? 0,
      (hd.recvBuf = [] ∨ ∃ msg, (dequeued tr).getLast? = some msg ∧ hd.recvBuf <:+ msg) ∧
      (hd.recvBuf = [] ∨ ∃ msg ∈ puts tr, hd.recvBuf.length ≤ msg.length) ∧
      ∀ (ctx : Waker) (buf : List β), ∃ r, pollRead hd.recvBuf p.innerRecv ctx buf = some r ∧
        r.buf.length = buf.length ∧
        (∀ n, r.res = .ready (.ok n) → n ≤ buf.length ∧ r.buf.drop n = buf.drop n) ∧
        (r.chan.queue = p.innerRecv.queue ∨
          ∃ msg, p.innerRecv.queue = msg :: r.chan.queue ∧ hd.recvBuf.length ≤ buf.length) := by
  have hi := leftover_of_run h hc
  refine ⟨not_panicked_of_run h, ?_⟩
  intro hd hhd
  have hmem : hd.recvBuf ∈ bufs p := List.mem_of_getElem? (bufs_of_handle hhd)
  have hsuf := hi.suffix hd.recvBuf hmem
  refine ⟨hsuf, ?_, ?_⟩
  · rcases hsuf with hnil | ⟨msg, hlast, hmsg⟩
    · exact .inl hnil
    · refine .inr ⟨msg, ?_, hmsg.length_le⟩
      rw [← hi.queue]
      exact List.mem_append_left _ (List.mem_of_getLast? hlast)
  · intro ctx buf
    obtain ⟨hlen, hn⟩ := readOutcome_buf hd.recvBuf p.innerRecv buf
    refine ⟨_, pollRead_eq hd.recvBuf p.innerRecv ctx buf, hlen, hn, ?_⟩
    rcases readOutcome_leftover hd.recvBuf p.innerRecv buf with ⟨hq, -⟩ | ⟨msg, hq, hfit, -⟩
    · exact .inl hq
    · exact .inr ⟨msg, hq, hfit⟩

/-- After a read of two of three bytes the third is the leftover. -/
theorem pollRead_safe_arrival :
    ∃ (tr : Trace UInt8) (p : Pipe UInt8), (machine UInt8).Run (new "" "") tr p ∧
      p.handle? 0 = some ⟨[3], none⟩ ∧
      ∃ msg, (dequeued tr).getLast? = some msg ∧ [3] <:+ msg := by
  obtain ⟨tr, p, hrun, -, hh, hc⟩ :=
    Machine.exists_run_of_exec (machine UInt8) (new "" "")
      (arrival ++ [.pollRead 0 .task [0, 0]])
      (P := fun tr p => p.handle? 0 = some ⟨[3], none⟩ ∧ ∀ e ∈ tr, e.act.clones = false)
      (by decide)
  obtain ⟨hnil | hmsg, -⟩ := (pollRead_safe hrun hc).2 _ hh
  · cases hnil
  · exact ⟨tr, p, hrun, hh, hmsg⟩

end Pipe

end ObfsWs
