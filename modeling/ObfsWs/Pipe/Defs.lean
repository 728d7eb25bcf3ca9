import ObfsWs.Lib.Machine
import ObfsWs.Pipe.PollRead

/-!
# The pipe as a machine

One websocket connection with everything that touches it: the handles (`ObfsWsPipe` values, which
clone each other), the two channels and the flag they share, the background task that races
`send_loop` against `recv_loop`, and the websocket as far as the loops see it.

## Granularity

A step is one access to shared state. The calls that make one access are one step; `poll_write`
loads the flag and then calls `try_send`, so it is two, and the handle is inside the call in
between. Each loop is a program counter that stands at its next access or `await`.

`race` polls the two loops in one task: when one of them returns, the other is never polled again
and is dropped. That is the guard `racing`, and the step `finish`. Until then the steps of the two
loops interleave freely, which covers every order in which one task can poll them.

## The environment

What the websocket yields next, and whether it takes data, is chosen by the actions `arrive`,
`setWritable` and `sinkFail`. An item has arrived before `next` yields it.

## What is assumed

The channels are those of `Chan`, bounded and with listeners: of `smol::channel` this is that a
message is received once and in order, that `try_send` and `try_recv` never wait, that a waiting
receive is woken by the next send or by the end of the channel, and that a channel ends when all
senders or all receivers are gone. `smol::future::race` polls both loops until the first of them
returns and then drops the other one. Of the websocket it is assumed that `send` first hands the
message to the sink and then flushes, and that either may fail; what comes in is any sequence of
items, also after an end of the stream, because nothing here depends on what the peer is.

A `Relaxed` load sees the last store. All accesses to the flag in the source are loads and stores
of one variable, so there is nothing else that could be reordered against it.

## What is left out

The contexts of `poll_write`, `poll_flush` and `poll_close` are not arguments: the source never
uses them. The kind of a websocket error is not kept, because no branch looks into it, and a
message that is not binary is `other` for the same reason. Log lines are left out.
`Pipe::protocol` is a constant string.

## Main definitions

* `Handle`, `SendPc`, `RecvPc`, `Pipe` — the state
* `Act`, `Out`, `Pipe.step`, `Pipe.machine` — the steps
* `Pipe.remoteAddr` — `Pipe::remote_addr` of a live handle

## Implementation notes

A call on a handle that is inside `poll_write` is not enabled: the calls take `&mut self` or
consume the handle, so the language excludes it. Dropped handles stay in the list as `none`, so
that the number of a handle never changes its meaning. The state carries no histories; what was
written, taken or returned is read off the recorded steps.
-/

namespace ObfsWs

/-- Who can be woken: the background task, or a task that reads. -/
inductive Waker
  | task
  | reader (id : ℕ)
  deriving DecidableEq

/-- `ws::Message`: the loops tell binary messages from all others. -/
inductive Message (β : Type)
  | binary (msg : List β)
  | other
  deriving DecidableEq

/-- `tungstenite::Error`: never looked into. -/
inductive WsError
  | error
  deriving DecidableEq

/-- What `inner_reader.next()` yields: `none` is the end of the stream. -/
abbrev Item (β : Type) := Option (Except WsError (Message β))

/-- Where `send_loop` stands. -/
inductive SendPc (β : Type)
  /-- At the `while` condition. -/
  | head
  /-- In `inner_send_rx.recv().await`. -/
  | recv
  /-- In `inner_writer.send(..).await`, the sink has not taken `msg` yet. -/
  | send (msg : List β)
  /-- In `inner_writer.send(..).await`, the sink has the message and flushes. -/
  | flush
  /-- About to return its `Err`. -/
  | exiting
  /-- Returned, or dropped with the race; its captured values are gone. -/
  | returned
  deriving DecidableEq

/-- Where `recv_loop` stands. -/
inductive RecvPc (β : Type)
  /-- At the `while` condition. -/
  | head
  /-- In `inner_reader.next().await`. -/
  | next
  /-- In `inner_recv_tx.send(msg).await`. -/
  | send (msg : List β)
  /-- About to return its `Err`. -/
  | exiting
  /-- Returned, or dropped with the race; its captured values are gone. -/
  | returned
  deriving DecidableEq

/-- The loop has left its `while`. -/
def SendPc.stopped {β : Type} : SendPc β → Bool
  | .exiting | .returned => true
  | _ => false

/-- The loop has left its `while`. -/
def RecvPc.stopped {β : Type} : RecvPc β → Bool
  | .exiting | .returned => true
  | _ => false

/-- The loop has returned. -/
def SendPc.gone {β : Type} : SendPc β → Bool
  | .returned => true
  | _ => false

/-- The loop has returned. -/
def RecvPc.gone {β : Type} : RecvPc β → Bool
  | .returned => true
  | _ => false

@[simp] theorem SendPc.gone_iff {β : Type} {s : SendPc β} : s.gone = true ↔ s = .returned := by
  cases s <;> simp [SendPc.gone]

@[simp] theorem RecvPc.gone_iff {β : Type} {r : RecvPc β} : r.gone = true ↔ r = .returned := by
  cases r <;> simp [RecvPc.gone]

/-- The part of an `ObfsWsPipe` that a clone does not share. -/
structure Handle (β : Type) where
  /-- The leftover of a message that did not fit the reader's buffer. -/
  recvBuf : List β
  /-- The slice of a `poll_write` that has passed its check of the flag. -/
  writing : Option (List β)
  deriving DecidableEq

/-- One connection. -/
structure Pipe (β : Type) where
  /-- The shared flag. -/
  closed : Bool
  /-- The `inner_send` channel, from the handles to `send_loop`. -/
  innerSend : Chan (List β) Waker
  /-- The `inner_recv` channel, from `recv_loop` to the handles. -/
  innerRecv : Chan (List β) Waker
  /-- The handles made so far; `none` once dropped. -/
  handles : List (Option (Handle β))
  /-- `send_loop`. -/
  sendLoop : SendPc β
  /-- `recv_loop`. -/
  recvLoop : RecvPc β
  /-- The race is over and the websocket dropped. -/
  finished : Bool
  /-- What has arrived on the websocket and not been yielded. -/
  incoming : List (Item β)
  /-- The websocket takes data without the peer reading first. -/
  writable : Bool
  /-- The `peer_url` of every handle. -/
  peerUrl : String
  deriving DecidableEq

/-- The actions. -/
inductive Act (β : Type)
  /-- `poll_write` is called and loads the flag. -/
  | pollWrite (h : ℕ) (msg : List β)
  /-- `poll_write` calls `try_send` and returns. -/
  | pollWriteSend (h : ℕ)
  | pollFlush (h : ℕ)
  | pollClose (h : ℕ)
  | pollRead (h : ℕ) (ctx : Waker) (buf : List β)
  | clone (h : ℕ)
  | drop (h : ℕ)
  | sendHead
  | sendRecv
  | sinkTake
  | sinkFlush
  | sinkFail
  | sendReturn
  | recvHead
  | recvNext
  | recvSend
  | recvReturn
  | finish
  | arrive (item : Item β)
  | setWritable (b : Bool)
  deriving DecidableEq

/-- What is observed of a step. -/
inductive Out (β : Type)
  /-- Nothing. -/
  | tau
  /-- `poll_write` of `msg` returned. -/
  | wrote (msg : List β) (res : Poll (Except ErrorKind ℕ))
  | flushed (res : Poll (Except ErrorKind Unit))
  | closed (res : Poll (Except ErrorKind Unit))
  /-- `poll_read` returned and left `buf` in the caller's buffer. -/
  | read (res : Poll (Except ErrorKind ℕ)) (buf : List β)
  | panicked
  /-- `send_loop` received `msg` from its channel. -/
  | took (msg : List β)
  /-- The sink took `msg`. -/
  | handed (msg : List β)
  /-- `recv_loop` put `msg` into its channel and woke the listeners. -/
  | put (msg : List β) (woken : List Waker)
  /-- The sending side of `inner_recv` went away and woke the listeners. -/
  | hungUp (woken : List Waker)
  deriving DecidableEq

namespace Pipe

variable {β : Type}

/-- `smol::channel::bounded(100000)`. -/
def chanCap : ℕ := 100000

/-- `ObfsWsPipe::new`: one handle, and the background task spawned. -/
def new (peerUrl peerMetadata : String) : Pipe β where
  closed := false
  innerSend := .bounded chanCap
  innerRecv := .bounded chanCap
  handles := [some ⟨[], none⟩]
  sendLoop := .head
  recvLoop := .head
  finished := false
  incoming := []
  writable := true
  peerUrl := peerUrl ++ "#" ++ peerMetadata

/-- The handle `h`, unless dropped. -/
def handle? (p : Pipe β) (h : ℕ) : Option (Handle β) := p.handles[h]?.join

/-- Some handle is not dropped. -/
def alive (p : Pipe β) : Bool := p.handles.any Option.isSome

def setHandle (p : Pipe β) (h : ℕ) (hd : Handle β) : Pipe β :=
  { p with handles := p.handles.set h (some hd) }

/-- Neither loop has stopped, so both are still polled. -/
def racing (p : Pipe β) : Bool := !p.finished && !p.sendLoop.stopped && !p.recvLoop.stopped

/-- `ObfsWsPipe::is_closed`. -/
def isClosed (p : Pipe β) : Bool := p.closed

/-- `Pipe::remote_addr`. -/
def remoteAddr (p : Pipe β) : Option String := if p.isClosed then none else some p.peerUrl

/-! ### Calls on a handle -/

/-- `poll_write` up to its check of the flag. -/
def pollWrite (p : Pipe β) (h : ℕ) (msg : List β) : Option (Pipe β × Out β) :=
  match p.handle? h with
  | some ⟨recvBuf, none⟩ =>
    if p.closed then some (p, .wrote msg (.ready (.error .brokenPipe)))
    else some (p.setHandle h ⟨recvBuf, some msg⟩, .tau)
  | _ => none

/-- The rest of `poll_write`: the result of `try_send` is logged and not returned. -/
def pollWriteSend (p : Pipe β) (h : ℕ) : Option (Pipe β × Out β) :=
  match p.handle? h with
  | some ⟨recvBuf, some msg⟩ =>
    let p := p.setHandle h ⟨recvBuf, none⟩
    match p.innerSend.trySend msg with
    | .ok (ch, _) => some ({ p with innerSend := ch }, .wrote msg (.ready (.ok msg.length)))
    | .error _ => some (p, .wrote msg (.ready (.ok msg.length)))
  | _ => none

/-- `poll_flush`. -/
def pollFlush (p : Pipe β) (h : ℕ) : Option (Pipe β × Out β) :=
  match p.handle? h with
  | some ⟨_, none⟩ =>
    some (p, .flushed (.ready (if p.closed then .error .brokenPipe else .ok ())))
  | _ => none

/-- `poll_close`. -/
def pollClose (p : Pipe β) (h : ℕ) : Option (Pipe β × Out β) :=
  match p.handle? h with
  | some ⟨_, none⟩ => some ({ p with closed := true }, .closed (.ready (.ok ())))
  | _ => none

/-- `poll_read` of a handle. -/
def pollReadHandle (p : Pipe β) (h : ℕ) (ctx : Waker) (buf : List β) :
    Option (Pipe β × Out β) :=
  match p.handle? h with
  | some ⟨recvBuf, none⟩ =>
    match pollRead recvBuf p.innerRecv ctx buf with
    | some r =>
      some ({ p.setHandle h ⟨r.recvBuf, none⟩ with innerRecv := r.chan }, .read r.res r.buf)
    | none => some (p, .panicked)
  | _ => none

/-- The derived `clone`: the channel ends and the flag are shared, the leftover is copied. -/
def clone (p : Pipe β) (h : ℕ) : Option (Pipe β × Out β) :=
  match p.handle? h with
  | some ⟨recvBuf, none⟩ => some ({ p with handles := p.handles ++ [some ⟨recvBuf, none⟩] }, .tau)
  | _ => none

/-- Dropping a handle; the last one takes its side of both channels with it. -/
def drop (p : Pipe β) (h : ℕ) : Option (Pipe β × Out β) :=
  match p.handle? h with
  | some ⟨_, none⟩ =>
    let p := { p with handles := p.handles.set h none }
    if p.alive then some (p, .tau)
    else
      some ({ p with innerSend := p.innerSend.close.1, innerRecv := p.innerRecv.close.1 }, .tau)
  | _ => none

/-! ### `send_loop` -/

/-- `while !closed.load(Relaxed)`. -/
def sendHead (p : Pipe β) : Option (Pipe β × Out β) :=
  match p.racing, p.sendLoop with
  | true, .head => some ({ p with sendLoop := if p.closed then .exiting else .recv }, .tau)
  | _, _ => none

/-- `inner_send_rx.recv().await?`: polled when it has not parked yet, and when it was woken. -/
def sendRecv (p : Pipe β) : Option (Pipe β × Out β) :=
  match p.racing, p.sendLoop with
  | true, .recv =>
    match p.innerSend.pollRecv .task with
    | (.ready (.ok msg), ch) => some ({ p with innerSend := ch, sendLoop := .send msg }, .took msg)
    | (.ready (.error _), ch) => some ({ p with innerSend := ch, sendLoop := .exiting }, .tau)
    | (.pending, ch) =>
      if .task ∈ p.innerSend.listeners then none else some ({ p with innerSend := ch }, .tau)
  | _, _ => none

/-- The sink takes the message. -/
def sinkTake (p : Pipe β) : Option (Pipe β × Out β) :=
  match p.racing && p.writable, p.sendLoop with
  | true, .send msg => some ({ p with sendLoop := .flush }, .handed msg)
  | _, _ => none

/-- The sink has flushed and `send` returns `Ok`. -/
def sinkFlush (p : Pipe β) : Option (Pipe β × Out β) :=
  match p.racing && p.writable, p.sendLoop with
  | true, .flush => some ({ p with sendLoop := .head }, .tau)
  | _, _ => none

/-- `send` returns `Err`, before or after the sink took the message: the flag is set. -/
def sinkFail (p : Pipe β) : Option (Pipe β × Out β) :=
  match p.racing, p.sendLoop with
  | true, .send _ => some ({ p with closed := true, sendLoop := .exiting }, .tau)
  | true, .flush => some ({ p with closed := true, sendLoop := .exiting }, .tau)
  | _, _ => none

/-- `send_loop` returns and drops its receiver. -/
def sendReturn (p : Pipe β) : Option (Pipe β × Out β) :=
  match p.finished, p.sendLoop with
  | false, .exiting =>
    some ({ p with sendLoop := .returned, innerSend := p.innerSend.close.1 }, .tau)
  | _, _ => none

/-! ### `recv_loop` -/

/-- `while !closed.load(Relaxed)`. -/
def recvHead (p : Pipe β) : Option (Pipe β × Out β) :=
  match p.racing, p.recvLoop with
  | true, .head => some ({ p with recvLoop := if p.closed then .exiting else .next }, .tau)
  | _, _ => none

/-- `inner_reader.next().await` yields what arrived first. -/
def recvNext (p : Pipe β) : Option (Pipe β × Out β) :=
  match p.racing, p.recvLoop, p.incoming with
  | true, .next, item :: rest =>
    let p := { p with incoming := rest }
    match item with
    | some (.ok (.binary msg)) => some ({ p with recvLoop := .send msg }, .tau)
    -- an unexpected kind of message is logged, an error is not even that
    | some (.ok .other) => some ({ p with recvLoop := .head }, .tau)
    | some (.error _) => some ({ p with recvLoop := .head }, .tau)
    | none => some ({ p with closed := true, recvLoop := .exiting }, .tau)
  | _, _, _ => none

/-- `inner_recv_tx.send(msg).await?`: waits while the channel is full. -/
def recvSend (p : Pipe β) : Option (Pipe β × Out β) :=
  match p.racing, p.recvLoop with
  | true, .send msg =>
    match p.innerRecv.trySend msg with
    | .ok (ch, woken) => some ({ p with innerRecv := ch, recvLoop := .head }, .put msg woken)
    | .error .closed => some ({ p with recvLoop := .exiting }, .tau)
    | .error .full => none
  | _, _ => none

/-- `recv_loop` returns and drops its sender. -/
def recvReturn (p : Pipe β) : Option (Pipe β × Out β) :=
  match p.finished, p.recvLoop with
  | false, .exiting =>
    some ({ p with recvLoop := .returned, innerRecv := p.innerRecv.close.1 },
      .hungUp p.innerRecv.close.2)
  | _, _ => none

/-- A loop has returned: the race drops the other one, and with it the websocket. -/
def finish (p : Pipe β) : Option (Pipe β × Out β) :=
  if !p.finished && (p.sendLoop.gone || p.recvLoop.gone) then
    some ({ p with
      finished := true
      sendLoop := .returned
      recvLoop := .returned
      innerSend := p.innerSend.close.1
      innerRecv := p.innerRecv.close.1 }, .hungUp p.innerRecv.close.2)
  else none

/-! ### The machine -/

/-- One step. -/
def step (p : Pipe β) : Act β → Option (Pipe β × Out β)
  | .pollWrite h msg => p.pollWrite h msg
  | .pollWriteSend h => p.pollWriteSend h
  | .pollFlush h => p.pollFlush h
  | .pollClose h => p.pollClose h
  | .pollRead h ctx buf => p.pollReadHandle h ctx buf
  | .clone h => p.clone h
  | .drop h => p.drop h
  | .sendHead => p.sendHead
  | .sendRecv => p.sendRecv
  | .sinkTake => p.sinkTake
  | .sinkFlush => p.sinkFlush
  | .sinkFail => p.sinkFail
  | .sendReturn => p.sendReturn
  | .recvHead => p.recvHead
  | .recvNext => p.recvNext
  | .recvSend => p.recvSend
  | .recvReturn => p.recvReturn
  | .finish => p.finish
  | .arrive item => some ({ p with incoming := p.incoming ++ [item] }, .tau)
  | .setWritable b => some ({ p with writable := b }, .tau)

/-- The pipe as a machine. -/
def machine (β : Type) : Machine (Pipe β) (Act β) (Out β) := ⟨step⟩

end Pipe

end ObfsWs
