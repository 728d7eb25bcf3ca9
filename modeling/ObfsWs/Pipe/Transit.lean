import ObfsWs.Pipe.ReadSide
import ObfsWs.Pipe.WriteSide

/-!
# What a pipe holds of the streams through it

Two streams go through a pipe, out through `inner_send` and in through `inner_recv`. Each of the
three stretches that a pipe holds of them is a buffer with a law of its own: what was there and
what came in, is what went out and what is there after the step.

## Main results

* `Pipe.outMessages_of_rule` — from the writes to the websocket, until `send_loop` stops, message by
  message
* `Pipe.inMessages_of_rule` — from the websocket into `inner_recv`, until `recv_loop` stops
* `Pipe.puts_of_run` — what is put into `inner_recv` in a run has arrived, in order
* `Pipe.front_of_rule` — from `inner_recv` to the reads

## How the laws are used

A law is about one step of any kind: what is in the buffer afterwards, with what left it in the
step on the one side and what entered it on the other, is the same list. So a system that contains
a pipe adds up the laws of its buffers in the order in which the bytes pass through them, and gets
the law of the whole; `Duplex` does this once for bytes and once for messages.

They hold until the loop in question stops. From then on its buffer is cut off from one side, and
what a stopped loop held is gone. For the stretch from `inner_recv` to the reads there is no such
condition, but a read that returns `Pending` takes away what it drained, and a clone adds a copy.
-/

namespace ObfsWs

variable {β : Type}

/-- The messages in an item. -/
def Item.messages : Item β → List (List β)
  | some (.ok (.binary msg)) => [msg]
  | _ => []

/-- The messages that arrive with an action. -/
def Act.arrivals : Act β → List (List β)
  | .arrive item => Item.messages item
  | _ => []

namespace Pipe

variable {p p' : Pipe β} {a : Act β} {o : Out β}

/-! ### Out -/

/-- The message that `send_loop` holds and those in its channel. -/
def outMessages (p : Pipe β) : List (List β) := held p ++ p.innerSend.queue

/-- The slice that a write reports as accepted and that did not find the channel full. -/
def admits (p : Pipe β) (a : Act β) (o : Out β) : List (List β) :=
  if Overflows p a then [] else o.accepts

/-- The bytes on their way from the writes to the websocket. -/
def outgoing (p : Pipe β) : List β := (held p ++ p.innerSend.queue).flatten

theorem admits_eq_nil (h : o.accepts = []) : admits p a o = [] := by
  rw [admits, h, ite_self]

/-- **The way out, message by message**, while `send_loop` has not stopped. -/
theorem outMessages_of_rule (hi : Inv p) (hr : Rule p a o p') (hl : p'.sendLoop.stopped = false) :
    p.sendLoop.stopped = false ∧ outMessages p ++ admits p a o = o.hands ++ outMessages p' := by
  cases writeRule_of_rule hr with
  | quiet _ _ hacc _ hh hq hstop hheld =>
    refine ⟨hstop hl, ?_⟩
    simp [outMessages, admits_eq_nil hacc, hh, hq, hheld (.inr hl)]
  | @stored h recvBuf msg r _ hh hsend hq hs =>
    have hroom := Chan.hasRoom_of_trySend_ok hsend
    rw [hs] at hl
    refine ⟨hl, ?_⟩
    simp [outMessages, admits, Overflows, Act.sends, hroom, Out.accepts, Out.hands, hq, held, hs]
  | @lost h recvBuf msg err _ hh hsend hq hs =>
    rw [hs] at hl
    have hopen := hi.sendOpen (alive_of_handle hh) hl
    have hfull := Chan.full_of_trySend_error hopen hsend
    refine ⟨hl, ?_⟩
    simp [outMessages, admits, Overflows, Act.sends, hfull, Out.hands, hq, held, hs]
  | took hs hs' hq =>
    refine ⟨by rw [hs]; rfl, ?_⟩
    simp [outMessages, admits, Overflows, Act.sends, Out.accepts, Out.hands, hq, held, hs, hs']
  | handed hs hs' hq =>
    refine ⟨by rw [hs]; rfl, ?_⟩
    simp [outMessages, admits, Overflows, Act.sends, Out.accepts, Out.hands, hq, held, hs, hs']
  | finish hs _ => simp [hs, SendPc.stopped] at hl

theorem hands_of_stopped (hr : Rule p a o p') (hl : p'.sendLoop.stopped = true) :
    o.hands = [] := by
  cases hr with
  | sinkTake => cases hl
  | _ => rfl

/-! ### In -/

/-- The message that `recv_loop` waits to put into its channel. -/
def heldRecv (p : Pipe β) : List (List β) :=
  match p.recvLoop with
  | .send msg => [msg]
  | _ => []

/-- The messages that have arrived and are not in the channel yet. -/
def inMessages (p : Pipe β) : List (List β) :=
  heldRecv p ++ p.incoming.flatMap Item.messages

/-- The bytes that have arrived and are not in the channel yet. -/
def arriving (p : Pipe β) : List β := (heldRecv p ++ p.incoming.flatMap Item.messages).flatten

/-- **The way in, message by message**, while `recv_loop` has not stopped. -/
theorem inMessages_of_rule (hr : Rule p a o p') (hl : p'.recvLoop.stopped = false) :
    p.recvLoop.stopped = false ∧ inMessages p ++ a.arrivals = o.puts ++ inMessages p' := by
  cases hr with
  | recvHead _ h =>
    cases hc : p.closed <;> simp_all [inMessages, heldRecv, Act.arrivals, Out.puts, RecvPc.stopped]
  | recvBinary _ h hin =>
    simp [inMessages, heldRecv, Act.arrivals, Out.puts, h, hin, Item.messages, RecvPc.stopped]
  | recvSkip _ h hin hitem =>
    obtain rfl | rfl := hitem <;>
      simp [inMessages, heldRecv, Act.arrivals, Out.puts, h, hin, Item.messages, RecvPc.stopped]
  | recvPut _ h _ => simp [inMessages, heldRecv, Act.arrivals, Out.puts, h, RecvPc.stopped]
  | recvEnd | recvHungUp | recvReturn | finish => cases hl
  | arrive => exact ⟨hl, by simp [inMessages, heldRecv, Act.arrivals, Out.puts]⟩
  | drop _ hp' _ | dropLast _ hp' _ =>
    subst hp'
    exact ⟨hl, by simp [inMessages, heldRecv, Act.arrivals, Out.puts]⟩
  | sendPark _ _ _ _ _ hch =>
    exact ⟨hl, by simp [inMessages, heldRecv, Act.arrivals, Out.puts]⟩
  | _ => exact ⟨hl, by simp [inMessages, heldRecv, Act.arrivals, Out.puts, setHandle]⟩

theorem puts_of_stopped (hr : Rule p a o p') (hl : p'.recvLoop.stopped = true) :
    o.puts = [] := by
  cases hr with
  | recvPut => cases hl
  | _ => rfl

/-- The messages that have arrived, oldest first. -/
def arrived (tr : Trace β) : List (List β) := tr.flatMap fun e => e.act.arrivals

/-- **What is put into the channel has arrived**: the payloads of the binary messages, in order and
each once, as far as `recv_loop` has come with them. -/
theorem puts_of_run {u md : String} {tr : Trace β} (h : (machine β).Run (new u md) tr p) :
    puts tr <+: arrived tr ∧
      (p.recvLoop.stopped = false → puts tr ++ inMessages p = arrived tr) := by
  refine h.induct (fun tr p => puts tr <+: arrived tr ∧
    (p.recvLoop.stopped = false → puts tr ++ inMessages p = arrived tr)) ⟨List.prefix_rfl, ?_⟩ ?_
  · intro _
    rfl
  · intro tr t a t' o _ ⟨hpre, heq⟩ hs
    have hr := rule_of_step hs
    have harr : arrived (tr ++ [⟨t, a, o, t'⟩]) = arrived tr ++ a.arrivals := by
      rw [arrived, List.flatMap_append, List.flatMap_singleton, arrived]
    rw [puts_snoc, harr]
    cases hl : t'.recvLoop.stopped with
    | true =>
      rw [puts_of_stopped hr hl, List.append_nil]
      exact ⟨hpre.trans (List.prefix_append _ _), fun h => by cases h⟩
    | false =>
      obtain ⟨hl', hin⟩ := inMessages_of_rule hr hl
      have hall : puts tr ++ o.puts ++ inMessages t' = arrived tr ++ a.arrivals := by
        rw [List.append_assoc, ← hin, ← List.append_assoc, heq hl']
      exact ⟨⟨_, hall⟩, fun _ => hall⟩

/-- The leftover of a handle. -/
def leftover (p : Pipe β) (h : ℕ) : List β :=
  match p.handle? h with
  | some hd => hd.recvBuf
  | none => []

/-- A `poll_read` returned `Pending`. -/
def tears : Act β → Out β → Bool
  | .pollRead _ _ _, .read .pending _ => true
  | _, _ => false

/-- The bytes that a `poll_read` uses up: what it returns, or the whole leftover if it returns
`Pending`. -/
def uses (p : Pipe β) : Act β → Out β → List β
  | .pollRead h _ _, .read .pending _ => leftover p h
  | _, o => o.returns

theorem returns_of_tears (h : tears a o = true) : o.returns = [] := by
  unfold tears at h
  split at h
  · rfl
  · cases h

theorem uses_of_not_tears (h : tears a o = false) : uses p a o = o.returns := by
  unfold uses
  split
  · cases h
  · rfl

/-- The leftovers and the channel. -/
def front (p : Pipe β) : List β := (bufs p).flatten ++ p.innerRecv.queue.flatten

theorem uses_eq_returns (h : ∀ h ctx buf, a ≠ .pollRead h ctx buf) : uses p a o = o.returns := by
  cases a with
  | pollRead => exact absurd rfl (h _ _ _)
  | _ => rfl

/-- What a read uses up and leaves is what it found. -/
theorem uses_read {h : ℕ} {ctx : Waker} {buf : List β} {hd : Handle β}
    {r : ReadResult β Waker} (hh : p.handle? h = some hd)
    (hr : r = readOutcome hd.recvBuf p.innerRecv buf) :
    uses p (.pollRead h ctx buf) (.read r.res r.buf) ++ r.recvBuf ++ r.chan.queue.flatten =
      hd.recvBuf ++ p.innerRecv.queue.flatten := by
  by_cases hp : r.res = .pending
  · have hleft : leftover p h = hd.recvBuf := by rw [leftover, hh]
    have hfit := res_eq_pending_iff.mp (hr ▸ hp)
    rw [readOutcome_vain hfit.1 hfit.2] at hr
    simp [uses, hr, hleft]
  · have huses : uses p (.pollRead h ctx buf) (.read r.res r.buf) = r.bytes := by
      rw [← returned_read, uses]
      simp [hp]
    rw [huses, hr]
    rw [hr, res_eq_pending_iff] at hp
    exact readOutcome_conserves fun hfit => .inr fun hq => hp ⟨hfit, hq⟩

/-- **The way to the reads**, with one handle. -/
theorem front_of_rule (hb : (bufs p).length = 1) (hk : a.keepsHandles = true)
    (hr : Rule p a o p') : front p ++ o.puts.flatten = uses p a o ++ front p' := by
  obtain ⟨x, hx⟩ := List.length_eq_one_iff.mp hb
  cases readRule_of_rule hr with
  | quiet hread _ hput hret hbufs hq =>
    simp [front, uses_eq_returns hread, hput, hret, hbufs, hq]
  | put hbufs hq => simp [front, uses, Out.puts, Out.returns, hbufs, hq]
  | @read h ctx buf hd r _ hh hres hbufs hq =>
    obtain ⟨rfl, rfl⟩ := handle_of_single hx hh
    have huse : uses p (.pollRead 0 ctx buf) (.read r.res r.buf) ++ r.recvBuf ++
        r.chan.queue.flatten = hd.recvBuf ++ p.innerRecv.queue.flatten := uses_read hh hres
    simp only [front, hx, hbufs, hq, Out.puts, List.set_cons_zero, List.flatten_singleton,
      List.flatten_nil, List.append_nil, ← List.append_assoc, huse]
  | clone => cases hk
  | drop => cases hk

end Pipe

end ObfsWs
