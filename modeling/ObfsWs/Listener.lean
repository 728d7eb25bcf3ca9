import ObfsWs.Pipe.ReadSide

/-!
# The listener

The accept loop, the task that it spawns for each connection, and the queue from which
`ObfsWsListener::accept` takes the pipes. The senders of the queue are the loop and the tasks that
have not ended; when all of them are gone, it is closed.

What `socket.accept`, `set_nodelay` and the handshake answer, and when, is chosen by the actions.

## The life of a connection

The loop accepts a socket and spawns a task. The task sets `nodelay`, makes the handshake, takes
the key from its one-shot channel and puts the pipe into the queue. Every step on the way can fail
and then ends the task; only the loop's own `accept` ends the loop. Nothing that a connection does
reaches another one, except through the queue, which is bounded: a task waits there as long as the
queue is full and somebody may still take from it.

The handshake is one step here, with the key that the callback let through as its argument, or
nothing. Which keys these are is the subject of `Handshake`, and is tied to this machine by
`Listener.HandsOver`; `FrontDoor` puts the two together.

## Main definitions

* `ConnPc`, `Listener`, `Listener.machine` — the loop, the tasks and the queue
* `Listener.Sound` — the loop runs, and each handshaken connection is in one place

## Main results

* `Listener.held_of_run` — every handshaken connection is returned, queued or waiting, once
* `Listener.sound_iff` — the listener is sound exactly as long as `socket.accept` does not fail

## What is assumed

That the crate's handshake function calls the callback once at most and returns `Ok` only when it
was called and let the request through. `smolscale2::spawn` with `detach`: a task runs until it
ends, whoever dropped its handle. The error of `set_nodelay` ends a task as the code has it.

## Implementation notes

The queue is closed when all its senders are gone, and its senders are the loop and the tasks that
have not ended. `settle` recomputes this after every end, instead of counting references.
-/

namespace ObfsWs

/-- Where `pipe_accept_loop` stands. -/
inductive LoopPc
  /-- In `socket.accept().await`. -/
  | accepting
  /-- Returned its error, or cancelled with the listener. -/
  | returned
  deriving DecidableEq

/-- A pipe made by a connection's task, by its connection and its `peer_url`. -/
structure Incoming where
  conn : ℕ
  peerUrl : String
  deriving DecidableEq

/-- `ObfsWsPipe::new(ws_conn, "", &metadata)`. -/
def Incoming.of (conn : ℕ) (metadata : String) : Incoming :=
  ⟨conn, (Pipe.new "" metadata : Pipe UInt8).peerUrl⟩

/-- Where a connection's task stands. -/
inductive ConnPc
  /-- At `set_nodelay`. -/
  | start
  /-- In the handshake. -/
  | handshake
  /-- In `md_rx.recv().await`, after the handshake. -/
  | metadata (md : Chan String Unit)
  /-- In `pipe_tx.send(pipe).await`. -/
  | queueing (pipe : Incoming)
  /-- Returned; its sender is gone. -/
  | ended
  deriving DecidableEq

/-- A listener. -/
structure Listener where
  /-- The accept loop. -/
  loop : LoopPc
  /-- The tasks of the connections accepted so far. -/
  conns : List ConnPc
  /-- The channel from the tasks to `accept`. -/
  queue : Chan Incoming Unit
  /-- The `ObfsWsListener` is dropped. -/
  dropped : Bool
  deriving DecidableEq

/-- The actions. -/
inductive ListenerAct
  /-- `socket.accept` returns a connection. -/
  | connect
  /-- `socket.accept` returns an error. -/
  | acceptError
  /-- `set_nodelay` returns. -/
  | setNodelay (c : ℕ) (ok : Bool)
  /-- The handshake ends: with the accepted `Sec-Websocket-Key`, or with an error. -/
  | handshake (c : ℕ) (key : Option String)
  | recvMd (c : ℕ)
  | sendPipe (c : ℕ)
  /-- `ObfsWsListener::accept` is polled. -/
  | accept
  | drop
  deriving DecidableEq

/-- What is observed. -/
inductive ListenerOut
  | tau
  /-- `accept` returned. -/
  | accepted (res : Except ErrorKind Incoming)
  /-- `accept` is pending. -/
  | pending
  deriving DecidableEq

/-- The task has returned. -/
def ConnPc.isEnded : ConnPc → Bool
  | .ended => true
  | _ => false

/-- The pipe of a task that has got through the handshake and has not queued it. -/
def ConnPc.waiting (c : ℕ) : ConnPc → List Incoming
  | .metadata md => md.queue.map (.of c)
  | .queueing pipe => [pipe]
  | _ => []

/-- The task is past the handshake. -/
def ConnPc.isPast : ConnPc → Bool
  | .start | .handshake => false
  | _ => true

namespace Listener

/-- `ObfsWsListener::from`. -/
def new : Listener := ⟨.accepting, [], .bounded 1000, false⟩

/-- The loop and all tasks are gone. -/
def sendersGone (s : Listener) : Bool :=
  s.loop == .returned && s.conns.all ConnPc.isEnded

/-- The queue is closed with its last sender. -/
def settle (s : Listener) : Listener :=
  if s.sendersGone then { s with queue := s.queue.close.1 } else s

def setConn (s : Listener) (c : ℕ) (pc : ConnPc) : Listener :=
  { s with conns := s.conns.set c pc }

/-- The task of `c` returns and drops its sender. -/
def endConn (s : Listener) (c : ℕ) : Listener := (s.setConn c .ended).settle

/-- `socket.accept().await?`, when it returns a connection. -/
def connect (s : Listener) : Option (Listener × ListenerOut) :=
  match s.loop with
  | .accepting => some ({ s with conns := s.conns ++ [.start] }, .tau)
  | .returned => none

/-- `socket.accept().await?`, when it returns an error: the loop returns. -/
def acceptError (s : Listener) : Option (Listener × ListenerOut) :=
  match s.loop with
  | .accepting => some (settle { s with loop := .returned }, .tau)
  | .returned => none

/-- `conn.set_nodelay(true)?`. -/
def setNodelay (s : Listener) (c : ℕ) (ok : Bool) : Option (Listener × ListenerOut) :=
  match s.conns[c]? with
  | some .start => some (if ok then s.setConn c .handshake else s.endConn c, .tau)
  | _ => none

/-- The handshake: on success `pipe_get_metadata` has put the key into the one-slot channel, and
its sender is gone. -/
def handshake (s : Listener) (c : ℕ) (key : Option String) : Option (Listener × ListenerOut) :=
  match s.conns[c]?, key with
  | some .handshake, some key =>
    match (Chan.bounded 1 : Chan String Unit).trySend key with
    | .ok (md, _) => some (s.setConn c (.metadata md.close.1), .tau)
    -- the `unwrap` panics, and the task with it
    | .error _ => some (s.endConn c, .tau)
  | some .handshake, none => some (s.endConn c, .tau)
  | _, _ => none

/-- `md_rx.recv().await?`. -/
def recvMd (s : Listener) (c : ℕ) : Option (Listener × ListenerOut) :=
  match s.conns[c]? with
  | some (.metadata md) =>
    match md.pollRecv () with
    | (.ready (.ok key), _) => some (s.setConn c (.queueing (.of c key)), .tau)
    | (.ready (.error _), _) => some (s.endConn c, .tau)
    | (.pending, _) => none
  | _ => none

/-- `pipe_tx.send(pipe).await?`: waits while the queue is full. -/
def sendPipe (s : Listener) (c : ℕ) : Option (Listener × ListenerOut) :=
  match s.conns[c]? with
  | some (.queueing pipe) =>
    match s.queue.trySend pipe with
    | .ok (q, _) => some (endConn { s with queue := q } c, .tau)
    | .error .closed => some (s.endConn c, .tau)
    | .error .full => none
  | _ => none

/-- `ObfsWsListener::accept`. -/
def accept (s : Listener) : Option (Listener × ListenerOut) :=
  if s.dropped then none
  else
    match s.queue.pollRecv () with
    | (.ready (.ok pipe), q) => some ({ s with queue := q }, .accepted (.ok pipe))
    | (.ready (.error _), q) => some ({ s with queue := q }, .accepted (.error .brokenPipe))
    | (.pending, q) => some ({ s with queue := q }, .pending)

/-- Dropping the listener cancels the loop and takes the receiver. -/
def drop (s : Listener) : Option (Listener × ListenerOut) :=
  if s.dropped then none
  else some ({ s with loop := .returned, queue := s.queue.close.1, dropped := true }, .tau)

/-- One step. -/
def step (s : Listener) : ListenerAct → Option (Listener × ListenerOut)
  | .connect => s.connect
  | .acceptError => s.acceptError
  | .setNodelay c ok => s.setNodelay c ok
  | .handshake c key => s.handshake c key
  | .recvMd c => s.recvMd c
  | .sendPipe c => s.sendPipe c
  | .accept => s.accept
  | .drop => s.drop

/-- The listener as a machine. -/
def machine : Machine Listener ListenerAct ListenerOut := ⟨step⟩

/-! ### The rules

One constructor for each branch, with what is known in it. The branches that a listener never
takes are kept, as the source has them; that they are not taken is part of what is proved. -/

/-- What a step can do. -/
inductive Rule (s : Listener) : ListenerAct → ListenerOut → Listener → Prop
  | connect : s.loop = .accepting →
      Rule s .connect .tau { s with conns := s.conns ++ [.start] }
  | acceptError : s.loop = .accepting →
      Rule s .acceptError .tau (settle { s with loop := .returned })
  | nodelay {c} : s.conns[c]? = some .start →
      Rule s (.setNodelay c true) .tau (s.setConn c .handshake)
  | nodelayError {c} : s.conns[c]? = some .start → Rule s (.setNodelay c false) .tau (s.endConn c)
  | handshake {c key md} : s.conns[c]? = some .handshake → md.queue = [key] →
      Rule s (.handshake c (some key)) .tau (s.setConn c (.metadata md))
  | handshakeError {c} : s.conns[c]? = some .handshake →
      Rule s (.handshake c none) .tau (s.endConn c)
  | metadata {c key rest md} : s.conns[c]? = some (.metadata md) → md.queue = key :: rest →
      Rule s (.recvMd c) .tau (s.setConn c (.queueing (.of c key)))
  | metadataGone {c md} : s.conns[c]? = some (.metadata md) → md.queue = [] →
      Rule s (.recvMd c) .tau (s.endConn c)
  | queued {c pipe q woken} : s.conns[c]? = some (.queueing pipe) →
      s.queue.trySend pipe = .ok (q, woken) →
      Rule s (.sendPipe c) .tau (endConn { s with queue := q } c)
  | refused {c pipe} : s.conns[c]? = some (.queueing pipe) → s.queue.closed = true →
      Rule s (.sendPipe c) .tau (s.endConn c)
  | accepted {pipe q} : s.dropped = false → s.queue.tryRecv = .ok (pipe, q) →
      Rule s .accept (.accepted (.ok pipe)) { s with queue := q }
  | broken : s.dropped = false → s.queue.queue = [] → s.queue.closed = true →
      Rule s .accept (.accepted (.error .brokenPipe)) s
  | pending {q} : s.dropped = false →
      q = { s.queue with listeners := s.queue.listeners.insert () } →
      Rule s .accept .pending { s with queue := q }
  | drop : s.dropped = false →
      Rule s .drop .tau { s with loop := .returned, queue := s.queue.close.1, dropped := true }

variable {s s' : Listener} {a : ListenerAct} {o : ListenerOut}

theorem rule_of_step (hs : machine.step s a = some (s', o)) : Rule s a o s' := by
  change s.step a = some (s', o) at hs
  cases a with
  | connect =>
    simp only [step, Listener.connect] at hs
    split at hs <;> cases hs
    exact .connect ‹_›
  | acceptError =>
    simp only [step, Listener.acceptError] at hs
    split at hs <;> cases hs
    exact .acceptError ‹_›
  | setNodelay c ok =>
    simp only [step, setNodelay] at hs
    split at hs <;> cases hs
    cases ok with
    | true => exact .nodelay ‹_›
    | false => exact .nodelayError ‹_›
  | handshake c key =>
    simp only [step, Listener.handshake] at hs
    split at hs
    · rename_i key hc
      cases hs
      exact .handshake hc rfl
    · cases hs
      exact .handshakeError ‹_›
    · cases hs
  | recvMd c =>
    simp only [step, recvMd] at hs
    split at hs
    · rename_i md hc
      obtain ⟨key, md', hp, ht⟩ | ⟨hp, hq, -⟩ | ⟨hp, -⟩ := md.pollRecv_cases () <;>
        rw [hp] at hs <;> cases hs
      · exact .metadata hc (Chan.tryRecv_ok ht).1
      · exact .metadataGone hc hq
    · cases hs
  | sendPipe c =>
    simp only [step, sendPipe] at hs
    split at hs
    · rename_i pipe hc
      split at hs <;> rename_i hsend <;> cases hs
      · exact .queued hc hsend
      · exact .refused hc (Chan.trySend_closed_iff.mp hsend)
    · cases hs
  | accept =>
    simp only [step, Listener.accept] at hs
    split at hs
    · cases hs
    · rename_i hd
      rw [Bool.not_eq_true] at hd
      obtain ⟨pipe, q, hp, ht⟩ | ⟨hp, hq, hc⟩ | ⟨hp, -⟩ := s.queue.pollRecv_cases () <;>
        rw [hp] at hs <;> cases hs
      · exact .accepted hd ht
      · exact .broken hd hq hc
      · exact .pending hd rfl
  | drop =>
    simp only [step, Listener.drop] at hs
    split at hs <;> rename_i hd <;> cases hs
    exact .drop (by simpa using hd)

/-! ### The ends of the queue

Who holds a sender is a matter of where the tasks stand, and whether the queue is closed follows.
`Inv` says so in both directions, as long as nobody drops the listener. -/

@[simp] theorem loop_settle (s : Listener) : s.settle.loop = s.loop := by
  unfold settle
  split <;> rfl

@[simp] theorem conns_settle (s : Listener) : s.settle.conns = s.conns := by
  unfold settle
  split <;> rfl

@[simp] theorem queue_settle (s : Listener) : s.settle.queue.queue = s.queue.queue := by
  unfold settle
  split <;> rfl

theorem sendersGone_iff :
    s.sendersGone = true ↔ s.loop = .returned ∧ ∀ pc ∈ s.conns, pc = .ended := by
  have hended : ∀ pc : ConnPc, pc.isEnded = true ↔ pc = .ended := by
    intro pc
    cases pc <;> simp [ConnPc.isEnded]
  simp [sendersGone, hended]

theorem closed_settle (s : Listener) : s.settle.queue.closed = true ↔
    s.queue.closed = true ∨ s.loop = .returned ∧ ∀ pc ∈ s.conns, pc = .ended := by
  rw [← sendersGone_iff]
  unfold settle
  split <;> simp_all

/-- What holds while the listener exists. -/
structure Inv (s : Listener) : Prop where
  /-- After the handshake the key is in the one-slot channel. -/
  md : ∀ (c : ℕ) (md : Chan String Unit), s.conns[c]? = some (.metadata md) →
    ∃ key, md.queue = [key]
  /-- The queue is closed by its last sender only. -/
  closed : s.queue.closed = true → s.loop = .returned ∧ ∀ pc ∈ s.conns, pc = .ended

theorem inv_new : Inv new := by
  constructor <;> simp [new]

/-- A task that is not ended keeps the queue open. -/
theorem Inv.open (hi : Inv s) {c : ℕ} {pc : ConnPc} (hc : s.conns[c]? = some pc)
    (hpc : pc ≠ .ended) : s.queue.closed = false := by
  cases hq : s.queue.closed with
  | false => rfl
  | true => exact absurd ((hi.closed hq).2 pc (List.mem_of_getElem? hc)) hpc

/-- A task moves on. -/
theorem Inv.setConn (hi : Inv s) {c : ℕ} {pc pc' : ConnPc} (hc : s.conns[c]? = some pc)
    (hpc : pc ≠ .ended) (hmd : ∀ md, pc' = .metadata md → ∃ key, md.queue = [key]) :
    Inv (s.setConn c pc') := by
  refine ⟨fun c' md hc' => ?_, fun hq => ?_⟩
  · simp only [Listener.setConn, List.getElem?_set] at hc'
    split at hc'
    · split at hc'
      · exact hmd md (Option.some.inj hc')
      · cases hc'
    · exact hi.md c' md hc'
  · have hopen := hi.open hc hpc
    rw [Listener.setConn] at hq
    exact absurd (hopen.symm.trans hq) (by simp)

theorem Inv.settle (hi : Inv s) : Inv s.settle := by
  refine ⟨by simpa using hi.md, fun hq => ?_⟩
  rw [closed_settle] at hq
  rw [loop_settle, conns_settle]
  exact hq.elim hi.closed id

theorem Inv.endConn (hi : Inv s) {c : ℕ} {pc : ConnPc} (hc : s.conns[c]? = some pc)
    (hpc : pc ≠ .ended) : Inv (s.endConn c) :=
  (hi.setConn hc hpc (by simp)).settle

/-- The queue moves on. -/
theorem Inv.setQueue (hi : Inv s) {q : Chan Incoming Unit} (hq : q.closed = s.queue.closed) :
    Inv { s with queue := q } :=
  ⟨hi.md, fun h => hi.closed (hq.symm.trans h)⟩

theorem Inv.step (hi : Inv s) (hd : a ≠ .drop) (hr : Rule s a o s') : Inv s' := by
  cases hr with
  | connect hl =>
    refine ⟨fun c md hc => ?_, fun hq => ?_⟩
    · rw [List.getElem?_append] at hc
      split at hc
      · exact hi.md c md hc
      · rw [List.getElem?_singleton] at hc
        split at hc <;> cases hc
    · simp [(hi.closed hq).1] at hl
  | acceptError hl =>
    refine Inv.settle ⟨hi.md, fun hq => ?_⟩
    simp [(hi.closed hq).1] at hl
  | nodelay hc => exact hi.setConn hc (by simp) (by simp)
  | nodelayError hc => exact hi.endConn hc (by simp)
  | @handshake c key md hc hmd =>
    exact hi.setConn hc (by simp) fun md' h => ⟨key, by cases h; exact hmd⟩
  | handshakeError hc => exact hi.endConn hc (by simp)
  | metadata hc _ => exact hi.setConn hc (by simp) (by simp)
  | metadataGone hc _ => exact hi.endConn hc (by simp)
  | queued hc hsend =>
    obtain ⟨hopen, -, -, hopen', -⟩ := Chan.trySend_ok hsend
    exact (hi.setQueue (hopen'.trans hopen.symm)).endConn hc (by simp)
  | refused hc _ => exact hi.endConn hc (by simp)
  | accepted _ ht => exact hi.setQueue (Chan.tryRecv_ok ht).2.1
  | broken => exact hi
  | pending _ hq => exact hi.setQueue (by rw [hq])
  | drop => exact absurd rfl hd

theorem inv_of_run {tr : List (Event Listener ListenerAct ListenerOut)}
    (h : machine.Run new tr s) (hd : ∀ e ∈ tr, e.act ≠ .drop) : Inv s :=
  h.invariant_of Inv inv_new (fun _ _ _ _ hi hd hs => hi.step hd (rule_of_step hs)) hd

/-! ### Every handshaken connection is in one place

Pipes are compared as a multiset, because tasks overtake each other on the way to the queue. That
a connection is there once is then a statement about its number, which is not repeated. -/

/-- The pipes waiting to be queued by their tasks. -/
def waiting (s : Listener) : List Incoming := (s.conns.mapIdx ConnPc.waiting).flatten

/-- The connections that got through the handshake, as `accept` should return them. -/
def handshaken (tr : List (Event Listener ListenerAct ListenerOut)) : List Incoming :=
  tr.flatMap fun e =>
    match e.act with
    | .handshake c (some key) => [.of c key]
    | _ => []

/-- The pipes that `accept` returned. -/
def returned (tr : List (Event Listener ListenerAct ListenerOut)) : List Incoming :=
  tr.flatMap fun e =>
    match e.out with
    | .accepted (.ok pipe) => [pipe]
    | _ => []

/-- Every handshaken connection has been returned, or is queued, or is waiting, once. -/
def HeldOnce (tr : List (Event Listener ListenerAct ListenerOut)) (s : Listener) : Prop :=
  (returned tr : Multiset Incoming) + s.queue.queue + s.waiting = handshaken tr

@[simp] theorem waiting_settle (s : Listener) : s.settle.waiting = s.waiting := by
  rw [waiting, conns_settle, waiting]

/-- Moving one task on exchanges what it has waiting. -/
theorem waiting_setConn {c : ℕ} {pc : ConnPc} (hc : s.conns[c]? = some pc) :
    ∃ m : Multiset Incoming, (s.waiting : Multiset Incoming) = m + pc.waiting c ∧
      ∀ pc', ((s.setConn c pc').waiting : Multiset Incoming) = m + pc'.waiting c := by
  have hx : (s.conns.mapIdx ConnPc.waiting)[c]? = some (pc.waiting c) := by
    rw [List.getElem?_mapIdx, hc]
    rfl
  obtain ⟨m, h, h'⟩ := Pipe.flatten_set hx
  exact ⟨m, h, fun pc' => by rw [waiting, setConn, List.mapIdx_set]; exact h' _⟩

theorem waiting_endConn {c : ℕ} {pc : ConnPc} (hc : s.conns[c]? = some pc) :
    (s.waiting : Multiset Incoming) = (s.endConn c).waiting + pc.waiting c := by
  obtain ⟨m, h, h'⟩ := waiting_setConn hc
  rw [endConn, waiting_settle, h, h' .ended]
  simp [ConnPc.waiting]

theorem heldOnce_step {tr : List (Event Listener ListenerAct ListenerOut)} (hi : Inv s)
    (hd : a ≠ .drop) (hp : HeldOnce tr s) (hr : Rule s a o s') :
    HeldOnce (tr ++ [⟨s, a, o, s'⟩]) s' := by
  rw [HeldOnce] at hp
  have hret : returned (tr ++ [⟨s, a, o, s'⟩]) = returned tr ++ returned [⟨s, a, o, s'⟩] := by
    simp [returned]
  have hhand : handshaken (tr ++ [⟨s, a, o, s'⟩]) =
      handshaken tr ++ handshaken [⟨s, a, o, s'⟩] := by
    simp [handshaken]
  rw [HeldOnce, hret, hhand, ← Multiset.coe_add, ← Multiset.coe_add, ← hp]
  cases hr with
  | connect => simp [waiting, returned, handshaken, ConnPc.waiting]
  | acceptError => simp [waiting, returned, handshaken]
  | nodelay hc =>
    obtain ⟨m, h, h'⟩ := waiting_setConn hc
    rw [h, h']
    simp [returned, handshaken, ConnPc.waiting, setConn]
  | nodelayError hc | handshakeError hc =>
    rw [waiting_endConn hc]
    simp [returned, handshaken, ConnPc.waiting, endConn, setConn]
  | @handshake c key md hc hmd =>
    obtain ⟨m, h, h'⟩ := waiting_setConn hc
    rw [h, h']
    simp [returned, handshaken, ConnPc.waiting, setConn, hmd, add_assoc]
  | @metadata c key rest md hc hmd =>
    obtain ⟨m, h, h'⟩ := waiting_setConn hc
    obtain ⟨key', hkey⟩ := hi.md c md hc
    rw [hmd] at hkey
    obtain ⟨-, rfl⟩ := List.cons.inj hkey
    rw [h, h']
    simp [returned, handshaken, ConnPc.waiting, setConn, hmd]
  | metadataGone hc hq =>
    obtain ⟨key, hkey⟩ := hi.md _ _ hc
    rw [hq] at hkey
    cases hkey
  | @queued c pipe q woken hc hsend =>
    have hwait : (s.waiting : Multiset Incoming) =
        (endConn { s with queue := q } c).waiting + [pipe] :=
      waiting_endConn (s := { s with queue := q }) hc
    have hqueue : (endConn { s with queue := q } c).queue.queue = s.queue.queue ++ [pipe] := by
      rw [endConn, queue_settle]
      exact (Chan.trySend_ok hsend).2.2.1
    rw [hwait, hqueue, ← Multiset.coe_add]
    simp only [returned, handshaken, List.flatMap_singleton, Multiset.coe_nil]
    abel
  | refused hc hq =>
    have hopen := hi.open hc (by simp)
    simp [hq] at hopen
  | @accepted pipe q _ ht =>
    have hqueue : (s.queue.queue : Multiset Incoming) = [pipe] + q.queue := by
      rw [(Chan.tryRecv_ok ht).1]
      rfl
    rw [hqueue]
    simp only [returned, handshaken, waiting, List.flatMap_singleton, Multiset.coe_nil]
    abel
  | broken => simp [returned, handshaken]
  | pending _ hq =>
    subst hq
    simp [returned, handshaken, waiting]
  | drop => exact absurd rfl hd

/-- **Every handshaken connection has been returned, or is queued, or is waiting, once**, as long
as the listener exists, whatever happens to the accept loop and the other connections. -/
theorem held_of_run {tr : List (Event Listener ListenerAct ListenerOut)}
    (h : machine.Run new tr s) (hd : ∀ e ∈ tr, e.act ≠ .drop) : HeldOnce tr s := by
  refine h.induct (fun tr s => (∀ e ∈ tr, e.act ≠ .drop) → HeldOnce tr s)
    (fun _ => by simp [HeldOnce, new, returned, handshaken, waiting]) ?_ hd
  intro tr t a t' o hrun ih hs hd
  have hdtr : ∀ e ∈ tr, e.act ≠ .drop := fun e he => hd e (List.mem_append_left _ he)
  have hda : a ≠ .drop := hd ⟨t, a, o, t'⟩ (List.mem_append_right _ (List.mem_singleton_self _))
  exact heldOnce_step (inv_of_run hrun hdtr) hda (ih hdtr) (rule_of_step hs)

/-- The task of `c` is past the handshake. -/
def Past (s : Listener) (c : ℕ) : Prop := ∃ pc, s.conns[c]? = some pc ∧ pc.isPast = true

theorem past_setConn {c i : ℕ} {pc pc' : ConnPc} (hc : s.conns[c]? = some pc)
    (hpc : pc.isPast = true → pc'.isPast = true) (h : s.Past i) : (s.setConn c pc').Past i := by
  obtain ⟨pi, hi, hpi⟩ := h
  by_cases heq : c = i
  · subst heq
    rw [hc] at hi
    cases hi
    have hlt := (List.getElem?_eq_some_iff.mp hc).1
    exact ⟨pc', by simp [setConn, hlt], hpc hpi⟩
  · exact ⟨pi, by simpa [setConn, List.getElem?_set, heq] using hi, hpi⟩

theorem past_endConn {c i : ℕ} {pc : ConnPc} (hc : s.conns[c]? = some pc) (h : s.Past i) :
    (s.endConn c).Past i := by
  rw [Past, endConn, conns_settle]
  exact past_setConn hc (fun _ => rfl) h

theorem past_of_rule {i : ℕ} (hr : Rule s a o s') (h : s.Past i) : s'.Past i := by
  cases hr with
  | connect =>
    obtain ⟨pc, hi, hpc⟩ := h
    have hlt := (List.getElem?_eq_some_iff.mp hi).1
    exact ⟨pc, by rw [List.getElem?_append_left hlt, hi], hpc⟩
  | acceptError => rwa [Past, conns_settle]
  | nodelay hc => exact past_setConn hc (by simp [ConnPc.isPast]) h
  | handshake hc _ => exact past_setConn hc (fun _ => rfl) h
  | metadata hc _ => exact past_setConn hc (fun _ => rfl) h
  | nodelayError hc | handshakeError hc | refused hc _ | metadataGone hc _ =>
    exact past_endConn hc h
  | queued hc _ => exact past_endConn hc h
  | accepted | broken | pending | drop => exact h

/-- No two handshakes are of one connection, and the task of each is past it. -/
structure Distinct (tr : List (Event Listener ListenerAct ListenerOut)) (s : Listener) : Prop where
  nodup : ((handshaken tr).map Incoming.conn).Nodup
  past : ∀ c ∈ (handshaken tr).map Incoming.conn, s.Past c

theorem distinct_of_run {tr : List (Event Listener ListenerAct ListenerOut)}
    (h : machine.Run new tr s) : Distinct tr s := by
  refine h.induct Distinct ⟨by simp [handshaken], by simp [handshaken]⟩ ?_
  rintro tr t a t' o - ⟨hnodup, hpast⟩ hs
  have hr := rule_of_step hs
  have hhand : handshaken (tr ++ [⟨t, a, o, t'⟩]) =
      handshaken tr ++ handshaken [⟨t, a, o, t'⟩] := by
    simp [handshaken]
  have hpast' : ∀ c ∈ (handshaken tr).map Incoming.conn, t'.Past c :=
    fun c hc => past_of_rule hr (hpast c hc)
  cases hr with
  | @handshake c key md hc _ =>
    -- the task of `c` is in its handshake, so it is not among those past it
    have hnew : c ∉ (handshaken tr).map Incoming.conn := by
      intro hmem
      obtain ⟨pc, hpc, hisPast⟩ := hpast c hmem
      rw [hc] at hpc
      cases hpc
      cases hisPast
    have hlt := (List.getElem?_eq_some_iff.mp hc).1
    have hids : (handshaken (tr ++ [⟨t, .handshake c (some key), .tau,
        t.setConn c (.metadata md)⟩])).map Incoming.conn =
        (handshaken tr).map Incoming.conn ++ [c] := by
      rw [hhand, List.map_append]
      rfl
    refine ⟨?_, fun i hi => ?_⟩
    · rw [hids, ← List.concat_eq_append]
      exact hnodup.concat hnew
    · rw [hids] at hi
      obtain hi | hi := List.mem_append.mp hi
      · exact hpast' i hi
      · obtain rfl := List.mem_singleton.mp hi
        exact ⟨.metadata md, by simp [setConn, hlt], rfl⟩
  | _ =>
    have hids := hhand.trans (List.append_nil _)
    exact ⟨by rwa [hids], by rwa [hids]⟩

/-- The accept loop runs, every handshaken connection is in one place, and `accept` has not
returned `BrokenPipe`. -/
structure Sound (tr : List (Event Listener ListenerAct ListenerOut)) (s : Listener) : Prop where
  running : s.loop = .accepting
  held : HeldOnce tr s
  nodup : ((handshaken tr).map Incoming.conn).Nodup
  noBroken : ∀ e ∈ tr, e.out ≠ .accepted (.error .brokenPipe)

/-- Only an error of `socket.accept` ends the loop. -/
theorem loop_of_rule (hr : Rule s a o s') (hd : a ≠ .drop) :
    s'.loop = .accepting ↔ s.loop = .accepting ∧ a ≠ .acceptError := by
  cases hr <;> simp_all [endConn, setConn]

/-- `accept` does not return `BrokenPipe` while the loop runs. -/
theorem out_of_rule (hi : Inv s) (hl : s.loop = .accepting) (hr : Rule s a o s') :
    o ≠ .accepted (.error .brokenPipe) := by
  cases hr with
  | broken _ _ hc => simp [(hi.closed hc).1] at hl
  | _ => simp

/-- **One failed `socket.accept` stops the listener, and nothing else does.** As long as the
listener exists, it is sound at every moment if and only if `socket.accept` has not returned an
error. -/
theorem sound_iff {tr : List (Event Listener ListenerAct ListenerOut)}
    (h : machine.Run new tr s) (hd : ∀ e ∈ tr, e.act ≠ .drop) :
    machine.Always new Sound tr ↔ ∀ e ∈ tr, e.act ≠ .acceptError := by
  refine h.always_iff (Q := fun e => e.act ≠ .drop)
    ⟨rfl, rfl, by simp [handshaken], by simp⟩ ?_ hd
  intro tr t a t' o hrun hdtr hda hp hs
  have hr := rule_of_step hs
  have hloop := loop_of_rule hr hda
  constructor
  · exact fun hsound => (hloop.mp hsound.running).2
  · intro ha
    have hi := inv_of_run hrun hdtr
    refine ⟨hloop.mpr ⟨hp.running, ha⟩, heldOnce_step hi hda hp.held hr,
      (distinct_of_run (hrun.snoc hs)).nodup, fun e he => ?_⟩
    obtain he | he := List.mem_append.mp he
    · exact hp.noBroken e he
    · obtain rfl := List.mem_singleton.mp he
      exact out_of_rule hi hp.running hr

/-- Two clients: the handshake of the first is rejected, the second is returned. -/
theorem sound_iff_rejected :
    ∃ (tr : List (Event Listener ListenerAct ListenerOut)) (s : Listener),
      machine.Run new tr s ∧ returned tr = [⟨1, "#k"⟩] ∧ machine.Always new Sound tr := by
  obtain ⟨tr, s, hrun, -, hret, hd, ha⟩ :=
    Machine.exists_run_of_exec machine new
      [.connect, .connect, .setNodelay 0 true, .setNodelay 1 true, .handshake 1 (some "k"),
        .handshake 0 none, .recvMd 1, .sendPipe 1, .accept]
      (P := fun tr _ => returned tr = [⟨1, "#k"⟩] ∧ (∀ e ∈ tr, e.act ≠ .drop) ∧
        ∀ e ∈ tr, e.act ≠ .acceptError) (by decide)
  exact ⟨tr, s, hrun, hret, (sound_iff hrun hd).mpr ha⟩

/-- One error of `socket.accept`: the loop is gone, and `accept` returns `BrokenPipe`. -/
theorem sound_fails :
    ∃ (tr : List (Event Listener ListenerAct ListenerOut)) (s : Listener),
      machine.Run new tr s ∧ (∀ e ∈ tr, e.act ≠ .drop) ∧ s.loop = .returned ∧
      (tr.map Event.out).getLast? = some (.accepted (.error .brokenPipe)) ∧ ¬ Sound tr s := by
  obtain ⟨tr, s, hrun, -, hd, hl, hlast⟩ :=
    Machine.exists_run_of_exec machine new [.acceptError, .accept]
      (P := fun tr s => (∀ e ∈ tr, e.act ≠ .drop) ∧ s.loop = .returned ∧
        (tr.map Event.out).getLast? = some (.accepted (.error .brokenPipe))) (by decide)
  refine ⟨tr, s, hrun, hd, hl, hlast, fun hsound => ?_⟩
  have hrunning := hsound.running
  rw [hl] at hrunning
  cases hrunning

end Listener

end ObfsWs
