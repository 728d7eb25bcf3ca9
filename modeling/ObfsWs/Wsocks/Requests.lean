import ObfsWs.Lib.Chan
import ObfsWs.Wsocks.RemoteBytes

/-!
# The requests of the local proxy

The client's front ends, `request_fut` and the tasks that it spawns. A front end has a task for
every connection of an application. It sends its request into a channel that all of them share,
together with the sending end of a channel of its own for the response, and waits. `request_fut`
spawns a task for every request. That one opens a mux stream, sends the request on it, receives
the offer, and hands both over to the front end, which tells the application and forwards.
`request_fut` does not end, since `client` itself keeps a sender of its channel.

`Client` is one connection on its own, with the two tasks behind one another. Here there are any
number of connections at once. Each of them is such a client, on a stream of its own, whatever the
other ones do.

## What could go wrong

A response could come to the wrong front end, because all requests go through one channel. A
stream could be used by two connections. A request task could fail without anybody hearing of it,
and its front end wait for ever. The first two are excluded by what is in the channel: a request
carries the sending end of the channel of the one who asks, and a task opens a stream of its own.
The third is excluded by dropping: a task that ends drops the sending end, and the receive of the
front end fails.

## The stages

`Stage` relates one front end, its request task if there is one, and one client, position by
position. A step of the proxy that has nothing to do with the connection leaves the client where
it is; a step of either of its two tasks is a step of the client or none. The handing over is
none. So `client_of_run` is a simulation for every connection at once, and `view` is what the
client does.

## Main definitions

* `LocalProxy`, `LocalProxy.machine` — the front ends, the channels and the request tasks
* `Stage` — how a front end and a request task make up one client

## Main results

* `LocalProxy.client_of_run` — every connection of every run is a run of one client

## What is assumed

The channel of requests is unbounded and is closed never, because `client` holds a sender of it.
The channel of a response has one slot and one message. Opening a mux stream may fail. Each stream
has a peer of its own, which may do anything, as in `Exposed`; that the peers are handlers of one
server is not needed.
-/

namespace ObfsWs

/-! ### A request task

What `request_fut` spawns for one request. It owns a stream from the moment at which it has opened
it, and until it hands it over. Its steps on the stream are those of the client up to the offer,
with the same errors; only what becomes of the offer is different, as it is sent on. -/

/-- What is sent to `request_fut`: the request, and for which connection the response is. -/
structure Ask where
  dst : String
  port : UInt16
  resp : ℕ

/-- A mux stream, as its task sees it. -/
structure Relconn where
  /-- Under way to the task. -/
  input : List UInt8
  /-- The stream is broken. -/
  broken : Bool

/-- Where a task of `request_fut` stands. -/
inductive RequestPc
  /-- In `mux.open_conn`. -/
  | openConn
  /-- Before the request. -/
  | start
  /-- In `send` of the request, these bytes being still to be written. -/
  | send (rest : List UInt8)
  /-- In `Frame::recv`. -/
  | recv
  /-- In `resp.send`. -/
  | resp (id : Offer)
  /-- It has handed over its offer and its stream. -/
  | handed (id : Offer)
  /-- `resp.send` has failed. -/
  | unheard
  /-- It has returned before that. -/
  | done (exit : Exit)

/-- A task of `request_fut`. -/
structure RequestTask where
  ask : Ask
  pc : RequestPc
  /-- Its stream, once there is one. -/
  relconn : Option Relconn

namespace RequestPc

/-- After `Frame::recv`. -/
def handle (res : Protocol) : RequestPc :=
  match res with
  | .tcpOffer id => .resp id
  | _ => .done (.err (.bail
      "receive a unexpected frame type from wsocks server, only TcpOffer expected."))

/-- One step on the stream. -/
def step (pc : RequestPc) (ask : Ask) (broken : Bool) (input : List UInt8) :
    ClientAct → Option (RequestPc × Effect Obs)
  | .request paddingLen =>
    match pc with
    | .start =>
      let frame := Frame.fromProtocol (.tcpConnect ask.dst ask.port) paddingLen
      match frame.message with
      | .ok msg => some (.send msg, ⟨input, [], .built frame⟩)
      | .error e => some (.done (.err (.send e)), ⟨input, [], .tau⟩)
    | _ => none
  | .send n =>
    match pc with
    | .send rest => some (writeAll .send .recv rest n, ⟨input, rest.take n, .tau⟩)
    | _ => none
  | .sendFail =>
    match pc, broken with
    | .send _, true => some (.done (.err .stream), ⟨input, [], .tau⟩)
    | _, _ => none
  | .recv =>
    match pc with
    | .recv =>
      match Frame.recv input with
      | .ok (frame, input) => some (handle frame.protocol, ⟨input, [], .recvd frame⟩)
      | .error .unexpectedEof =>
        if broken then some (.done (.err (.recv .unexpectedEof)), ⟨input, [], .tau⟩) else none
      | .error e => some (.done (.err (.recv e)), ⟨input, [], .tau⟩)
    | _ => none
  | .recvFail =>
    match pc, broken with
    | .recv, true => some (.done (.err .stream), ⟨input, [], .tau⟩)
    | _, _ => none
  -- the rest is for the front end
  | _ => none

/-- The task has returned before it had anything to hand over. -/
def failed : RequestPc → Bool
  | .done _ => true
  | _ => false

end RequestPc

/-! ### A front end

What a task of `socks_fut` or `http_fut` does from the moment at which it knows the destination.
It waits for a response and then works on the stream that came with it. A response that does not
come is an error of the receive, which ends the task without an answer to the application. -/

/-- Where the task of a front end stands. -/
inductive LocalPc
  /-- In `resp_rx.recv`. -/
  | wait
  /-- It has its response, and this stream. -/
  | served (pc : ClientPc) (relconn : ℕ)
  /-- `resp_rx.recv` has failed. -/
  | hungUp

/-- The stream that the front end has. -/
def LocalPc.relconn : LocalPc → Option ℕ
  | .served _ j => some j
  | _ => none

/-- The task of a front end for one connection of an application. -/
structure Local where
  front : FrontEnd
  /-- The request. -/
  dst : String
  port : UInt16
  /-- The channel for the response: the offer and the stream. -/
  resp : Chan (Offer × ℕ) Unit
  pc : LocalPc

/-- What the front end does with an offer. -/
def FrontEnd.offered (front : FrontEnd) (id : Offer) : ClientPc :=
  match id with
  | .ok id => .reply id
  | .error err =>
    match front with
    | .socks _ => .refuse err
    | .http => .done (.panic .todoOffer)

/-- The client at `pc` whose request this is. -/
def Local.client (l : Local) (pc : ClientPc) : Client := ⟨l.front, l.dst, l.port, pc⟩

/-! ### The proxy

All front ends, the channel of requests, and all request tasks. Tasks are numbered in the order in
which they are spawned, which is the order of the requests. Front ends come in any order and at
any time. Nothing is ever removed, so that a number keeps its meaning. -/

/-- The front ends, `request_fut` and its tasks. A stream is named by the task that opened it. -/
structure LocalProxy where
  locals : List Local
  /-- The channel of requests, which is unbounded. -/
  requests : List Ask
  tasks : List RequestTask

/-- What happens. -/
inductive ProxyAct
  /-- A front end has parsed a request and sends it. -/
  | ask (front : FrontEnd) (dst : String) (port : UInt16)
  /-- `request_fut` receives a request and spawns a task. -/
  | spawn
  /-- `mux.open_conn` returns. -/
  | openConn (j : ℕ) (ok : Bool)
  /-- The task makes a step on its stream. -/
  | request (j : ℕ) (a : ClientAct)
  /-- The task sends its response. -/
  | respond (j : ℕ)
  /-- The front end receives its response, or that there will be none. -/
  | receive (k : ℕ)
  /-- The front end makes a step on the stream it was given. -/
  | serve (k : ℕ) (a : ClientAct)
  /-- The peer puts bytes on a stream. -/
  | put (j : ℕ) (bs : List UInt8)
  /-- A stream breaks; so many of the bytes under way will still arrive. -/
  | brk (j : ℕ) (n : ℕ)

namespace LocalProxy

/-- No connection has been made yet. -/
def new : LocalProxy := ⟨[], [], []⟩

def setLocal (s : LocalProxy) (k : ℕ) (l : Local) : LocalProxy :=
  { s with locals := s.locals.set k l }

def setTask (s : LocalProxy) (j : ℕ) (t : RequestTask) : LocalProxy :=
  { s with tasks := s.tasks.set j t }

/-- A task that returns drops its end of the response channel. -/
def hangUp (s : LocalProxy) (ask : Ask) : LocalProxy :=
  match s.locals[ask.resp]? with
  | some l => s.setLocal ask.resp { l with resp := l.resp.close.1 }
  | none => s

/-- One step; what is observed is what it does on a stream. -/
def step (s : LocalProxy) : ProxyAct → Option (LocalProxy × Option (Effect Obs))
  | .ask front dst port =>
    some ({ s with
      locals := s.locals ++ [⟨front, dst, port, .bounded 1, .wait⟩]
      requests := s.requests ++ [⟨dst, port, s.locals.length⟩] }, none)
  | .spawn =>
    match s.requests with
    | ask :: rest =>
      some ({ s with requests := rest, tasks := s.tasks ++ [⟨ask, .openConn, none⟩] }, none)
    | [] => none
  | .openConn j ok =>
    match s.tasks[j]? with
    | some ⟨ask, .openConn, _⟩ =>
      if ok then some (s.setTask j ⟨ask, .start, some ⟨[], false⟩⟩, none)
      else some ((s.setTask j ⟨ask, .done (.err .stream), none⟩).hangUp ask, none)
    | _ => none
  | .request j a =>
    match s.tasks[j]? with
    | some ⟨ask, pc, some c⟩ =>
      (pc.step ask c.broken c.input a).map fun (pc', e) =>
        let s := s.setTask j ⟨ask, pc', some { c with input := e.input }⟩
        (if pc'.failed then s.hangUp ask else s, some e)
    | _ => none
  | .respond j =>
    match s.tasks[j]? with
    | some ⟨ask, .resp id, c⟩ =>
      match s.locals[ask.resp]? with
      | some l =>
        match l.resp.trySend (id, j) with
        | .ok (ch, _) =>
          let s := s.setLocal ask.resp { l with resp := ch }
          some ((s.setTask j ⟨ask, .handed id, c⟩).hangUp ask, none)
        | .error .closed => some (s.setTask j ⟨ask, .unheard, c⟩, none)
        | .error .full => none
      | none => none
    | _ => none
  | .receive k =>
    match s.locals[k]? with
    | some ⟨front, dst, port, resp, .wait⟩ =>
      match resp.tryRecv with
      | .ok ((id, j), ch) =>
        some (s.setLocal k ⟨front, dst, port, ch, .served (front.offered id) j⟩, none)
      | .error .closed => some (s.setLocal k ⟨front, dst, port, resp, .hungUp⟩, none)
      | .error .empty => none
    | _ => none
  | .serve k a =>
    match s.locals[k]? with
    | some ⟨front, dst, port, resp, .served pc j⟩ =>
      match s.tasks[j]? with
      | some ⟨ask, tpc, some c⟩ =>
        (Client.step ⟨front, dst, port, pc⟩ c.broken c.input a).map fun (client, e) =>
          ((s.setTask j ⟨ask, tpc, some { c with input := e.input }⟩).setLocal k
            ⟨front, dst, port, resp, .served client.pc j⟩, some e)
      | _ => none
    | _ => none
  | .put j bs =>
    match s.tasks[j]? with
    | some ⟨ask, pc, some ⟨input, false⟩⟩ =>
      some (s.setTask j ⟨ask, pc, some ⟨input ++ bs, false⟩⟩, none)
    | _ => none
  | .brk j n =>
    match s.tasks[j]? with
    | some ⟨ask, pc, some c⟩ => some (s.setTask j ⟨ask, pc, some ⟨c.input.take n, true⟩⟩, none)
    | _ => none

/-- The proxy as a machine. -/
def machine : Machine LocalProxy ProxyAct (Option (Effect Obs)) := ⟨step⟩

/-! ### What a step can be -/

/-- What a step can be. -/
inductive Rule (s : LocalProxy) : ProxyAct → Option (Effect Obs) → LocalProxy → Prop
  | ask {front dst port} : Rule s (.ask front dst port) none
      { s with
        locals := s.locals ++ [⟨front, dst, port, .bounded 1, .wait⟩]
        requests := s.requests ++ [⟨dst, port, s.locals.length⟩] }
  | spawn {ask rest} : s.requests = ask :: rest →
      Rule s .spawn none { s with
        requests := rest
        tasks := s.tasks ++ [⟨ask, .openConn, none⟩] }
  | opened {j ask c} : s.tasks[j]? = some ⟨ask, .openConn, c⟩ →
      Rule s (.openConn j true) none (s.setTask j ⟨ask, .start, some ⟨[], false⟩⟩)
  | notOpened {j ask c} : s.tasks[j]? = some ⟨ask, .openConn, c⟩ →
      Rule s (.openConn j false) none
        ((s.setTask j ⟨ask, .done (.err .stream), none⟩).hangUp ask)
  | request {j a ask pc c pc' e} : s.tasks[j]? = some ⟨ask, pc, some c⟩ →
      pc.step ask c.broken c.input a = some (pc', e) → pc'.failed = false →
      Rule s (.request j a) (some e) (s.setTask j ⟨ask, pc', some { c with input := e.input }⟩)
  | failed {j a ask pc c pc' e} : s.tasks[j]? = some ⟨ask, pc, some c⟩ →
      pc.step ask c.broken c.input a = some (pc', e) → pc'.failed = true →
      Rule s (.request j a) (some e)
        ((s.setTask j ⟨ask, pc', some { c with input := e.input }⟩).hangUp ask)
  | responded {j ask id c l ch woken} : s.tasks[j]? = some ⟨ask, .resp id, c⟩ →
      s.locals[ask.resp]? = some l → l.resp.trySend (id, j) = .ok (ch, woken) →
      Rule s (.respond j) none
        (((s.setLocal ask.resp { l with resp := ch }).setTask j ⟨ask, .handed id, c⟩).hangUp ask)
  | unheard {j ask id c l} : s.tasks[j]? = some ⟨ask, .resp id, c⟩ →
      s.locals[ask.resp]? = some l → l.resp.closed = true →
      Rule s (.respond j) none (s.setTask j ⟨ask, .unheard, c⟩)
  | received {k front dst port resp id j ch} :
      s.locals[k]? = some ⟨front, dst, port, resp, .wait⟩ → resp.tryRecv = .ok ((id, j), ch) →
      Rule s (.receive k) none
        (s.setLocal k ⟨front, dst, port, ch, .served (front.offered id) j⟩)
  | hungUp {k front dst port resp} : s.locals[k]? = some ⟨front, dst, port, resp, .wait⟩ →
      resp.queue = [] → resp.closed = true →
      Rule s (.receive k) none (s.setLocal k ⟨front, dst, port, resp, .hungUp⟩)
  | serve {k front dst port resp pc j ask tpc c a client e} :
      s.locals[k]? = some ⟨front, dst, port, resp, .served pc j⟩ →
      s.tasks[j]? = some ⟨ask, tpc, some c⟩ →
      Client.step ⟨front, dst, port, pc⟩ c.broken c.input a = some (client, e) →
      Rule s (.serve k a) (some e)
        ((s.setTask j ⟨ask, tpc, some { c with input := e.input }⟩).setLocal k
          ⟨front, dst, port, resp, .served client.pc j⟩)
  | put {j bs ask pc input} : s.tasks[j]? = some ⟨ask, pc, some ⟨input, false⟩⟩ →
      Rule s (.put j bs) none (s.setTask j ⟨ask, pc, some ⟨input ++ bs, false⟩⟩)
  | brk {j n ask pc c} : s.tasks[j]? = some ⟨ask, pc, some c⟩ →
      Rule s (.brk j n) none (s.setTask j ⟨ask, pc, some ⟨c.input.take n, true⟩⟩)

variable {s s' : LocalProxy} {a : ProxyAct} {o : Option (Effect Obs)}

theorem rule_of_step (h : machine.step s a = some (s', o)) : Rule s a o s' := by
  change s.step a = some (s', o) at h
  cases a with
  | ask front dst port =>
    obtain ⟨rfl, rfl⟩ := Machine.next_inj h
    exact .ask
  | spawn =>
    simp only [step] at h
    split at h
    · rename_i hreq
      obtain ⟨rfl, rfl⟩ := Machine.next_inj h
      exact .spawn hreq
    · cases h
  | openConn j ok =>
    simp only [step] at h
    split at h
    · rename_i ht
      cases ok with
      | true =>
        obtain ⟨rfl, rfl⟩ := Machine.next_inj h
        exact .opened ht
      | false =>
        obtain ⟨rfl, rfl⟩ := Machine.next_inj h
        exact .notOpened ht
    · cases h
  | request j a =>
    simp only [step] at h
    split at h
    · rename_i ht
      obtain ⟨⟨pc', e⟩, hstep, heq⟩ := Option.map_eq_some_iff.mp h
      obtain ⟨rfl, rfl⟩ := Prod.mk.inj heq
      cases hf : pc'.failed with
      | true =>
        rw [if_pos rfl]
        exact .failed ht hstep hf
      | false =>
        rw [if_neg (by simp)]
        exact .request ht hstep hf
    · cases h
  | respond j =>
    simp only [step] at h
    split at h
    · rename_i ht
      split at h
      · rename_i hl
        split at h
        · rename_i hsend
          obtain ⟨rfl, rfl⟩ := Machine.next_inj h
          exact .responded ht hl hsend
        · rename_i hsend
          obtain ⟨rfl, rfl⟩ := Machine.next_inj h
          exact .unheard ht hl (Chan.trySend_closed_iff.mp hsend)
        · cases h
      · cases h
    · cases h
  | receive k =>
    simp only [step] at h
    split at h
    · rename_i hl
      split at h
      · rename_i hrecv
        obtain ⟨rfl, rfl⟩ := Machine.next_inj h
        exact .received hl hrecv
      · rename_i hrecv
        obtain ⟨rfl, rfl⟩ := Machine.next_inj h
        obtain ⟨hq, hc⟩ := Chan.tryRecv_error_iff.mp hrecv
        exact .hungUp hl hq (by_contra fun hn => by simp [hn] at hc)
      · cases h
    · cases h
  | serve k a =>
    simp only [step] at h
    split at h
    · rename_i hl
      split at h
      · rename_i ht
        obtain ⟨⟨client, e⟩, hstep, heq⟩ := Option.map_eq_some_iff.mp h
        obtain ⟨rfl, rfl⟩ := Prod.mk.inj heq
        exact .serve hl ht hstep
      · cases h
    · cases h
  | put j bs =>
    simp only [step] at h
    split at h
    · rename_i ht
      obtain ⟨rfl, rfl⟩ := Machine.next_inj h
      exact .put ht
    · cases h
  | brk j n =>
    simp only [step] at h
    split at h
    · rename_i ht
      obtain ⟨rfl, rfl⟩ := Machine.next_inj h
      exact .brk ht
    · cases h

/-! ### One connection

The requests that were made are the requests of the front ends, in the order of their numbers: the
channel is first in, first out, and `request_fut` spawns in that order. So task `j` works for
front end `j`, which is the fact that keeps the connections apart. -/

/-- The requests made, in order: those with a task and those that wait for one. -/
def asks (s : LocalProxy) : List Ask := s.tasks.map RequestTask.ask ++ s.requests

/-- The requests of the front ends, in order. -/
def asked (s : LocalProxy) : List Ask := s.locals.mapIdx fun k l => ⟨l.dst, l.port, k⟩

@[simp] theorem locals_setTask (s : LocalProxy) (j : ℕ) (t : RequestTask) :
    (s.setTask j t).locals = s.locals := rfl

@[simp] theorem tasks_setLocal (s : LocalProxy) (k : ℕ) (l : Local) :
    (s.setLocal k l).tasks = s.tasks := rfl

@[simp] theorem tasks_hangUp (s : LocalProxy) (ask : Ask) : (s.hangUp ask).tasks = s.tasks := by
  unfold hangUp
  split <;> rfl

@[simp] theorem requests_hangUp (s : LocalProxy) (ask : Ask) :
    (s.hangUp ask).requests = s.requests := by
  unfold hangUp
  split <;> rfl

@[simp] theorem asks_hangUp (s : LocalProxy) (ask : Ask) : (s.hangUp ask).asks = s.asks := by
  rw [asks, asks, tasks_hangUp, requests_hangUp]

/-- Putting back what was there. -/
theorem set_of_getElem? {α : Type} {l : List α} {i : ℕ} {x : α} (h : l[i]? = some x) :
    l.set i x = l := by
  obtain ⟨hlt, rfl⟩ := List.getElem?_eq_some_iff.mp h
  exact List.set_getElem_self hlt

theorem asks_setTask {j : ℕ} {ask : Ask} {pc pc' : RequestPc} {c c' : Option Relconn}
    (ht : s.tasks[j]? = some ⟨ask, pc, c⟩) : (s.setTask j ⟨ask, pc', c'⟩).asks = s.asks := by
  have hmap : (s.tasks.set j ⟨ask, pc', c'⟩).map RequestTask.ask =
      s.tasks.map RequestTask.ask := by
    rw [List.map_set]
    exact set_of_getElem? (by rw [List.getElem?_map, ht]; rfl)
  exact congrArg (· ++ s.requests) hmap

theorem asked_setLocal {k : ℕ} {front : FrontEnd} {dst : String} {port : UInt16}
    {resp resp' : Chan (Offer × ℕ) Unit} {pc pc' : LocalPc}
    (hl : s.locals[k]? = some ⟨front, dst, port, resp, pc⟩) :
    (s.setLocal k ⟨front, dst, port, resp', pc'⟩).asked = s.asked := by
  show (s.locals.set k ⟨front, dst, port, resp', pc'⟩).mapIdx _ = _
  rw [List.mapIdx_set]
  exact set_of_getElem? (by rw [List.getElem?_mapIdx, hl]; rfl)

theorem asked_hangUp (s : LocalProxy) (ask : Ask) : (s.hangUp ask).asked = s.asked := by
  unfold hangUp
  split
  · rename_i hl
    exact asked_setLocal hl
  · rfl

/-- The requests are those of the front ends, in the same order. -/
theorem asks_of_rule (hs : s.asks = s.asked) (hr : Rule s a o s') : s'.asks = s'.asked := by
  cases hr with
  | ask =>
    show s.tasks.map RequestTask.ask ++ (s.requests ++ _) = (s.locals ++ _).mapIdx _
    rw [List.mapIdx_concat, ← List.append_assoc]
    exact congrArg (· ++ [_]) hs
  | spawn hreq =>
    rw [asks, hreq] at hs
    rw [asks, List.map_append, List.append_assoc]
    exact hs
  | opened ht | put ht | brk ht => exact (asks_setTask ht).trans hs
  | request ht _ _ | unheard ht _ _ => exact (asks_setTask ht).trans hs
  | notOpened ht | failed ht _ _ =>
    rw [asks_hangUp, asked_hangUp]
    exact (asks_setTask ht).trans hs
  | @responded j ask id c l ch _ ht hl _ =>
    rw [asks_hangUp, asked_hangUp]
    have hl' : (s.setLocal ask.resp { l with resp := ch }).asked = s.asked := asked_setLocal hl
    have ht' : (s.setLocal ask.resp { l with resp := ch }).tasks[j]? =
      some ⟨ask, .resp id, c⟩ := ht
    exact (asks_setTask ht').trans (hs.trans hl'.symm)
  | received hl _ | hungUp hl _ _ => exact hs.trans (asked_setLocal hl).symm
  | @serve k front dst port resp pc j ask tpc c _ _ e hl ht _ =>
    have hl' : (s.setTask j ⟨ask, tpc, some { c with input := e.input }⟩).locals[k]? =
      some ⟨front, dst, port, resp, .served pc j⟩ := hl
    exact (asks_setTask ht).trans (hs.trans (asked_setLocal hl').symm)

/-- The task `j` works for the front end `j`. -/
theorem exists_local (hs : s.asks = s.asked) {j : ℕ} {t : RequestTask}
    (ht : s.tasks[j]? = some t) :
    ∃ l, s.locals[j]? = some l ∧ t.ask = ⟨l.dst, l.port, j⟩ := by
  have hask : s.asks[j]? = some t.ask := by
    rw [asks, List.getElem?_append_left, List.getElem?_map, ht]
    · rfl
    · rw [List.length_map]
      exact (List.getElem?_eq_some_iff.mp ht).1
  rw [hs, asked, List.getElem?_mapIdx, Option.map_eq_some_iff] at hask
  obtain ⟨l, hl, heq⟩ := hask
  exact ⟨l, hl, heq.symm⟩

theorem resp_of_task (hs : s.asks = s.asked) {j : ℕ} {t : RequestTask}
    (ht : s.tasks[j]? = some t) : t.ask.resp = j := by
  obtain ⟨l, -, hask⟩ := exists_local hs ht
  rw [hask]

/-! ### Stages

The relation of the simulation. It has one constructor for each way in which a front end, its task
and the channels between them can stand, with the client that this amounts to. Two of them stand
for the same client: before and after the handing over. -/

end LocalProxy

/-- Where the client stands while its request task works. -/
def RequestPc.client (front : FrontEnd) : RequestPc → Option ClientPc
  | .start => some .start
  | .send rest => some (.send rest)
  | .recv => some .recv
  | .resp id => some (front.offered id)
  | .done exit => some (.done exit)
  | _ => none

/-- The front end waits: for a response that can still come, or for one that cannot. -/
def Local.Waits (l : Local) (failed : Bool) : Prop :=
  if failed then (l.pc = .wait ∨ l.pc = .hungUp) ∧ l.resp.queue = []
  else l.pc = .wait ∧ l.resp = .bounded 1

/-- **How the front end `k` and its request task make up one client**, and what its stream is. -/
inductive Stage (k : ℕ) (l : Local) : Option RequestTask → Exposed Client → Prop
  /-- There is no task yet. -/
  | queued : l.Waits false → Stage k l none (.start (l.client .start))
  /-- There is no stream yet, or there will be none. -/
  | opening {ask pc} : (pc = .openConn ∨ pc.failed = true) → l.Waits pc.failed →
      Stage k l (some ⟨ask, pc, none⟩) (.start (l.client .start))
  | running {ask pc cpc c} : pc.client l.front = some cpc → l.Waits pc.failed →
      Stage k l (some ⟨ask, pc, some c⟩) ⟨l.client cpc, c.input, c.broken⟩
  /-- The response is under way. -/
  | handed {ask id c} : l.pc = .wait → l.resp.queue = [(id, k)] →
      Stage k l (some ⟨ask, .handed id, some c⟩) ⟨l.client (l.front.offered id), c.input, c.broken⟩
  | served {ask id c cpc} : l.pc = .served cpc k → l.resp.queue = [] →
      Stage k l (some ⟨ask, .handed id, some c⟩) ⟨l.client cpc, c.input, c.broken⟩

theorem Client.answer_tcpOffer (c : Client) (id : Offer) :
    c.answer (.tcpOffer id) = c.front.offered id := by
  rcases id with e | id
  · cases hf : c.front <;> simp [answer, FrontEnd.offered, hf]
  · rfl

section

variable {c : Client} {broken : Bool} {input : List UInt8}

theorem Client.step_request_ok {paddingLen : PaddingLen} {msg : List UInt8} (hc : c.pc = .start)
    (hmsg : (Frame.fromProtocol (.tcpConnect c.dst c.port) paddingLen).message = .ok msg) :
    c.step broken input (.request paddingLen) = some (c.goto (.send msg),
      ⟨input, [], .built (.fromProtocol (.tcpConnect c.dst c.port) paddingLen)⟩) := by
  simp only [step, hc, hmsg]

theorem Client.step_request_error {paddingLen : PaddingLen} {e : SendError} (hc : c.pc = .start)
    (hmsg : (Frame.fromProtocol (.tcpConnect c.dst c.port) paddingLen).message = .error e) :
    c.step broken input (.request paddingLen) =
      some (c.goto (.done (.err (.send e))), ⟨input, [], .tau⟩) := by
  simp only [step, hc, hmsg]

theorem Client.step_recv_ok {frame : Frame} {rest : List UInt8} (hc : c.pc = .recv)
    (hrecv : Frame.recv input = .ok (frame, rest)) :
    c.step broken input .recv =
      some (c.goto (c.answer frame.protocol), ⟨rest, [], .recvd frame⟩) := by
  simp only [step, hc, hrecv]

/-- An error of `Frame::recv`; a stream that has not broken does not end. -/
theorem Client.step_recv_error {e : RecvError} (hc : c.pc = .recv)
    (hrecv : Frame.recv input = .error e) (he : e = .unexpectedEof → broken = true) :
    c.step broken input .recv = some (c.goto (.done (.err (.recv e))), ⟨input, [], .tau⟩) := by
  cases e with
  | unexpectedEof => simp only [step, hc, hrecv, he rfl, if_true]
  | decode de => simp only [step, hc, hrecv]

end

theorem RequestPc.client_handle (l : Local) (res : Protocol) :
    (handle res).client l.front = some ((l.client .recv).answer res) := by
  rcases res with _ | id | _
  · rfl
  · rw [Client.answer_tcpOffer]
    rfl
  · rfl

/-- What the task does on its stream, the client does. -/
theorem RequestPc.client_step {l : Local} {pc pc' : RequestPc} {cpc : ClientPc} {ask : Ask}
    {broken : Bool} {input : List UInt8} {a : ClientAct} {e : Effect Obs}
    (hask : ask.dst = l.dst ∧ ask.port = l.port) (hc : pc.client l.front = some cpc)
    (h : pc.step ask broken input a = some (pc', e)) :
    ∃ cpc', pc'.client l.front = some cpc' ∧
      (l.client cpc).step broken input a = some (l.client cpc', e) := by
  obtain ⟨hdst, hport⟩ := hask
  cases a with
  | request paddingLen =>
    simp only [step] at h
    split at h
    · obtain rfl := Option.some.inj hc
      rw [hdst, hport] at h
      split at h
      · rename_i hmsg
        obtain ⟨rfl, rfl⟩ := Machine.next_inj h
        exact ⟨_, rfl, Client.step_request_ok rfl hmsg⟩
      · rename_i hmsg
        obtain ⟨rfl, rfl⟩ := Machine.next_inj h
        exact ⟨_, rfl, Client.step_request_error rfl hmsg⟩
    · cases h
  | send n =>
    simp only [step] at h
    split at h
    · rename_i rest
      obtain rfl := Option.some.inj hc
      obtain ⟨rfl, rfl⟩ := Machine.next_inj h
      refine ⟨writeAll .send .recv rest n, ?_, rfl⟩
      rw [writeAll, writeAll]
      split <;> rfl
    · cases h
  | sendFail =>
    simp only [step] at h
    split at h
    · obtain rfl := Option.some.inj hc
      obtain ⟨rfl, rfl⟩ := Machine.next_inj h
      exact ⟨_, rfl, rfl⟩
    · cases h
  | recv =>
    simp only [step] at h
    split at h
    · obtain rfl := Option.some.inj hc
      split at h
      · rename_i frame rest hrecv
        obtain ⟨rfl, rfl⟩ := Machine.next_inj h
        exact ⟨_, client_handle l frame.protocol, Client.step_recv_ok rfl hrecv⟩
      · rename_i hrecv
        split at h
        · rename_i hbroken
          obtain ⟨rfl, rfl⟩ := Machine.next_inj h
          exact ⟨_, rfl, Client.step_recv_error rfl hrecv fun _ => hbroken⟩
        · cases h
      · rename_i re hne hrecv
        obtain ⟨rfl, rfl⟩ := Machine.next_inj h
        exact ⟨_, rfl, Client.step_recv_error rfl hrecv fun he => absurd he hne⟩
    · cases h
  | recvFail =>
    simp only [step] at h
    split at h
    · obtain rfl := Option.some.inj hc
      obtain ⟨rfl, rfl⟩ := Machine.next_inj h
      exact ⟨_, rfl, rfl⟩
    · cases h
  | reply ok => cases h
  | forward a => cases h

/-- Only a task that works makes a step. -/
theorem RequestPc.working_of_step {pc pc' : RequestPc} {ask : Ask} {broken : Bool}
    {input : List UInt8} {a : ClientAct} {e : Effect Obs}
    (h : pc.step ask broken input a = some (pc', e)) :
    pc.failed = false ∧ ∀ id, pc ≠ .handed id := by
  cases pc with
  | handed id => cases a <;> cases h
  | done exit => cases a <;> cases h
  | _ => exact ⟨rfl, fun _ hid => by cases hid⟩

theorem Stage.waits_of_task {k : ℕ} {l : Local} {t : RequestTask} {x : Exposed Client}
    (hst : Stage k l (some t) x) (hw : ∀ id, t.pc ≠ .handed id) : l.Waits t.pc.failed := by
  cases hst with
  | opening _ h => exact h
  | running _ h => exact h
  | handed => exact absurd rfl (hw _)
  | served => exact absurd rfl (hw _)

/-- A front end that forwards has the stream that its own request task opened. -/
theorem Stage.of_served {k i : ℕ} {l : Local} {t : Option RequestTask} {x : Exposed Client}
    {cpc : ClientPc} (hst : Stage k l t x) (hpc : l.pc = .served cpc i) :
    i = k ∧ l.resp.queue = [] ∧ ∃ ask id c, t = some ⟨ask, .handed id, some c⟩ ∧
      x = ⟨l.client cpc, c.input, c.broken⟩ := by
  have hno : ∀ failed, ¬ l.Waits failed := by
    intro failed hw
    cases failed with
    | true =>
      obtain ⟨hw | hw, -⟩ := hw
      · simp [hpc] at hw
      · simp [hpc] at hw
    | false =>
      obtain ⟨hw, -⟩ := hw
      simp [hpc] at hw
  cases hst with
  | queued hw => exact absurd hw (hno _)
  | opening _ hw => exact absurd hw (hno _)
  | running _ hw => exact absurd hw (hno _)
  | handed hpc' => simp [hpc] at hpc'
  | served hpc' hq =>
    obtain ⟨rfl, rfl⟩ := LocalPc.served.inj (hpc.symm.trans hpc')
    exact ⟨rfl, hq, _, _, _, rfl, rfl⟩

/-- The stream of the client is that of its task, and can be changed with it. -/
theorem Stage.relconn {k : ℕ} {l : Local} {ask : Ask} {pc : RequestPc} {c : Relconn}
    {x : Exposed Client} (hst : Stage k l (some ⟨ask, pc, some c⟩) x) :
    x = ⟨x.handler, c.input, c.broken⟩ ∧
      ∀ c', Stage k l (some ⟨ask, pc, some c'⟩) ⟨x.handler, c'.input, c'.broken⟩ := by
  cases hst with
  | running hc hw => exact ⟨rfl, fun _ => .running hc hw⟩
  | handed hpc hq => exact ⟨rfl, fun _ => .handed hpc hq⟩
  | served hpc hq => exact ⟨rfl, fun _ => .served hpc hq⟩

theorem Local.Waits.close {l : Local} (h : l.Waits false) :
    Local.Waits { l with resp := l.resp.close.1 } true := by
  obtain ⟨hpc, hresp⟩ := h
  exact ⟨.inl hpc, by rw [hresp]; rfl⟩

/-- The client makes the step of its request task, and the front end still waits. -/
theorem Stage.request {k : ℕ} {l : Local} {ask : Ask} {pc pc' : RequestPc} {c : Relconn}
    {e : Effect Obs} {b : ClientAct} {x : Exposed Client}
    (hask : ask.dst = l.dst ∧ ask.port = l.port) (hst : Stage k l (some ⟨ask, pc, some c⟩) x)
    (hstep : pc.step ask c.broken c.input b = some (pc', e)) :
    l.Waits false ∧ ∃ x', clientHandler.machine.step x (.step b) = some (x', some e) ∧
      ∀ l' : Local, l'.client .start = l.client .start → l'.Waits pc'.failed →
        Stage k l' (some ⟨ask, pc', some { c with input := e.input }⟩) x' := by
  obtain ⟨hwork, hne⟩ := RequestPc.working_of_step hstep
  have hw := hst.waits_of_task hne
  rw [hwork] at hw
  refine ⟨hw, ?_⟩
  cases hst with
  | running hc _ =>
    obtain ⟨cpc', hc', hcstep⟩ := RequestPc.client_step hask hc hstep
    refine ⟨⟨l.client cpc', e.input, c.broken⟩, Option.map_eq_some_iff.mpr ⟨_, hcstep, rfl⟩, ?_⟩
    intro l' hsame hw'
    have hfront : l'.front = l.front := congrArg Client.front hsame
    have hclient : l'.client cpc' = l.client cpc' := congrArg (Client.goto · cpc') hsame
    rw [← hclient]
    exact .running (hfront ▸ hc') hw'
  | handed => exact absurd rfl (hne _)
  | served => exact absurd rfl (hne _)

namespace LocalProxy

variable {s s' : LocalProxy} {a : ProxyAct} {o : Option (Effect Obs)}

/-- What the client of the front end `k` sees of a step: what its own task, its own front end or
the peer at its own stream does, and what is observed of that. -/
def seen (k : ℕ) (a : ProxyAct) (o : Option (Effect Obs)) :
    List (ExposedAct ClientAct × Option (Effect Obs)) :=
  match a with
  | .request j b => if j = k then [(.step b, o)] else []
  | .serve j b => if j = k then [(.step b, o)] else []
  | .put j bs => if j = k then [(.put bs, o)] else []
  | .brk j n => if j = k then [(.brk n, o)] else []
  | _ => []

/-- After a step the front end `k` and its task still make up one client, and the client has made
the step that it sees, if it sees one. -/
def Goes (k : ℕ) (l : Local) (x : Exposed Client) (s' : LocalProxy) (a : ProxyAct)
    (o : Option (Effect Obs)) : Prop :=
  ∃ l' x', s'.locals[k]? = some l' ∧ l'.client .start = l.client .start ∧
    Stage k l' s'.tasks[k]? x' ∧
    ((seen k a o = [] ∧ x' = x) ∨
      ∃ b, seen k a o = [(b, o)] ∧ clientHandler.machine.step x b = some (x', o))

section

variable {j k : ℕ} {t t' : RequestTask} {l l' : Local} {ask : Ask} {x x' : Exposed Client}

theorem getElem?_setTask_self (ht : s.tasks[j]? = some t) :
    (s.setTask j t').tasks[j]? = some t' :=
  List.getElem?_set_self (List.getElem?_eq_some_iff.mp ht).1

theorem getElem?_setTask_ne (h : j ≠ k) : (s.setTask j t').tasks[k]? = s.tasks[k]? :=
  List.getElem?_set_ne h

theorem getElem?_setLocal_self (hl : s.locals[k]? = some l) :
    (s.setLocal k l').locals[k]? = some l' :=
  List.getElem?_set_self (List.getElem?_eq_some_iff.mp hl).1

theorem getElem?_setLocal_ne (h : j ≠ k) : (s.setLocal j l').locals[k]? = s.locals[k]? :=
  List.getElem?_set_ne h

theorem getElem?_hangUp_self (hask : ask.resp = k) (hl : s.locals[k]? = some l) :
    (s.hangUp ask).locals[k]? = some { l with resp := l.resp.close.1 } := by
  subst hask
  rw [hangUp, hl]
  exact getElem?_setLocal_self hl

theorem getElem?_hangUp_ne (h : ask.resp ≠ k) : (s.hangUp ask).locals[k]? = s.locals[k]? := by
  unfold hangUp
  split
  · exact getElem?_setLocal_ne h
  · rfl

/-- Somebody else's step. -/
theorem Goes.frame (hst : Stage k l s.tasks[k]? x) (hseen : seen k a o = [])
    (hl : s'.locals[k]? = some l) (ht : s'.tasks[k]? = s.tasks[k]?) : Goes k l x s' a o :=
  ⟨l, x, hl, rfl, ht ▸ hst, .inl ⟨hseen, rfl⟩⟩

theorem goes_ask {front : FrontEnd} {dst : String} {port : UInt16}
    (hl : s.locals[k]? = some l) (hst : Stage k l s.tasks[k]? x)
    (hr : Rule s (.ask front dst port) o s') : Goes k l x s' (.ask front dst port) o := by
  cases hr with
  | ask =>
    refine .frame hst rfl ?_ rfl
    rw [← hl]
    exact List.getElem?_append_left (List.getElem?_eq_some_iff.mp hl).1

theorem goes_spawn (hl : s.locals[k]? = some l) (hst : Stage k l s.tasks[k]? x)
    (hr : Rule s .spawn o s') : Goes k l x s' .spawn o := by
  cases hr with
  | spawn hreq =>
    rcases Nat.lt_trichotomy k s.tasks.length with hlt | rfl | hgt
    · exact .frame hst rfl hl (List.getElem?_append_left hlt)
    · rw [List.getElem?_eq_none (Nat.le_refl _)] at hst
      cases hst with
      | queued hw =>
        refine ⟨l, _, hl, rfl, ?_, .inl ⟨rfl, rfl⟩⟩
        show Stage _ _ (s.tasks ++ _)[s.tasks.length]? _
        rw [List.getElem?_concat_length]
        exact .opening (.inl rfl) hw
    · refine .frame hst rfl hl ?_
      rw [List.getElem?_eq_none (Nat.le_of_lt hgt), List.getElem?_eq_none]
      rw [List.length_append, List.length_singleton]
      exact hgt

theorem goes_openConn (hs : s.asks = s.asked) {ok : Bool} (hl : s.locals[k]? = some l)
    (hst : Stage k l s.tasks[k]? x) (hr : Rule s (.openConn j ok) o s') :
    Goes k l x s' (.openConn j ok) o := by
  cases hr with
  | @opened _ ask c ht =>
    by_cases hj : j = k
    · subst hj
      rw [ht] at hst
      have hw := hst.waits_of_task (by simp)
      refine ⟨l, _, hl, rfl, ?_, .inl ⟨rfl, rfl⟩⟩
      rw [getElem?_setTask_self ht]
      cases hst with
      | opening => exact .running (c := ⟨[], false⟩) rfl hw
      | running hc => cases hc
    · exact .frame hst rfl hl (getElem?_setTask_ne hj)
  | @notOpened _ ask c ht =>
    have hresp : ask.resp = j := resp_of_task hs ht
    by_cases hj : j = k
    · subst hj
      rw [ht] at hst
      have hw := hst.waits_of_task (by simp)
      refine ⟨_, _, getElem?_hangUp_self hresp hl, rfl, ?_, .inl ⟨rfl, rfl⟩⟩
      rw [tasks_hangUp, getElem?_setTask_self ht]
      cases hst with
      | opening => exact .opening (.inr rfl) hw.close
      | running hc => cases hc
    · refine .frame hst rfl ?_ ?_
      · exact (getElem?_hangUp_ne (hresp ▸ hj)).trans hl
      · rw [tasks_hangUp]
        exact getElem?_setTask_ne hj

theorem goes_request (hs : s.asks = s.asked) {b : ClientAct} (hl : s.locals[k]? = some l)
    (hst : Stage k l s.tasks[k]? x) (hr : Rule s (.request j b) o s') :
    Goes k l x s' (.request j b) o := by
  cases hr with
  | @request _ _ ask pc c pc' e ht hstep hf =>
    by_cases hj : j = k
    · subst hj
      obtain ⟨l', hl', hask⟩ := exists_local hs ht
      obtain rfl := Option.some.inj (hl.symm.trans hl')
      rw [ht] at hst
      obtain ⟨hw, x', hcstep, hst'⟩ :=
        hst.request ⟨congrArg Ask.dst hask, congrArg Ask.port hask⟩ hstep
      refine ⟨l, x', hl, rfl, ?_, .inr ⟨.step b, if_pos rfl, hcstep⟩⟩
      rw [getElem?_setTask_self ht]
      exact hst' l rfl (hf ▸ hw)
    · exact .frame hst (if_neg hj) hl (getElem?_setTask_ne hj)
  | @failed _ _ ask pc c pc' e ht hstep hf =>
    have hresp : ask.resp = j := resp_of_task hs ht
    by_cases hj : j = k
    · subst hj
      obtain ⟨l', hl', hask⟩ := exists_local hs ht
      obtain rfl := Option.some.inj (hl.symm.trans hl')
      rw [ht] at hst
      obtain ⟨hw, x', hcstep, hst'⟩ :=
        hst.request ⟨congrArg Ask.dst hask, congrArg Ask.port hask⟩ hstep
      refine ⟨_, x', getElem?_hangUp_self hresp hl, rfl, ?_, .inr ⟨.step b, if_pos rfl, hcstep⟩⟩
      rw [tasks_hangUp, getElem?_setTask_self ht]
      exact hst' _ rfl (hf ▸ hw.close)
    · refine .frame hst (if_neg hj) ?_ ?_
      · exact (getElem?_hangUp_ne (hresp ▸ hj)).trans hl
      · rw [tasks_hangUp]
        exact getElem?_setTask_ne hj

theorem goes_respond (hs : s.asks = s.asked) (hl : s.locals[k]? = some l)
    (hst : Stage k l s.tasks[k]? x) (hr : Rule s (.respond j) o s') :
    Goes k l x s' (.respond j) o := by
  cases hr with
  | @responded _ ask id c l' ch woken ht hl' hsend =>
    have hresp : ask.resp = j := resp_of_task hs ht
    by_cases hj : j = k
    · subst hj
      rw [hresp] at hl'
      obtain rfl := Option.some.inj (hl.symm.trans hl')
      rw [ht] at hst
      obtain ⟨hpc, hbounded⟩ := hst.waits_of_task (by simp)
      have hlocal : (s.setLocal ask.resp { l with resp := ch }).locals[j]? =
          some { l with resp := ch } := by
        rw [hresp]
        exact getElem?_setLocal_self hl
      have htask : (s.setLocal ask.resp { l with resp := ch }).tasks[j]? =
          some ⟨ask, .resp id, c⟩ := ht
      refine ⟨_, _, getElem?_hangUp_self hresp hlocal, rfl, ?_, .inl ⟨rfl, rfl⟩⟩
      rw [tasks_hangUp, getElem?_setTask_self htask]
      cases hst with
      | opening hpc => simp [RequestPc.failed] at hpc
      | running hc _ =>
        obtain rfl := Option.some.inj hc
        refine .handed hpc ?_
        show ch.queue = _
        rw [(Chan.trySend_ok hsend).2.2.1, hbounded]
        rfl
    · refine .frame hst rfl ?_ ?_
      · rw [getElem?_hangUp_ne (hresp ▸ hj), locals_setTask, hresp, getElem?_setLocal_ne hj, hl]
      · rw [tasks_hangUp]
        exact getElem?_setTask_ne hj
  | @unheard _ ask id c l' ht hl' hclosed =>
    have hresp : ask.resp = j := resp_of_task hs ht
    by_cases hj : j = k
    · -- a front end that waits for a response listens
      subst hj
      rw [hresp] at hl'
      obtain rfl := Option.some.inj (hl.symm.trans hl')
      rw [ht] at hst
      obtain ⟨-, hbounded⟩ := hst.waits_of_task (by simp)
      simp [hbounded] at hclosed
    · exact .frame hst rfl hl (getElem?_setTask_ne hj)

theorem goes_receive (hl : s.locals[k]? = some l) (hst : Stage k l s.tasks[k]? x)
    (hr : Rule s (.receive j) o s') : Goes k l x s' (.receive j) o := by
  cases hr with
  | @received _ front dst port resp id i ch hl' hrecv =>
    by_cases hj : j = k
    · subst hj
      obtain rfl := Option.some.inj (hl.symm.trans hl')
      have hq : resp.queue = (id, i) :: ch.queue := (Chan.tryRecv_ok hrecv).1
      have hnil : resp.queue ≠ [] := by simp [hq]
      refine ⟨_, x, getElem?_setLocal_self hl, rfl, ?_, .inl ⟨rfl, rfl⟩⟩
      rw [tasks_setLocal]
      generalize s.tasks[j]? = t at hst ⊢
      have hno : ∀ failed, ¬ Local.Waits ⟨front, dst, port, resp, .wait⟩ failed := by
        intro failed hw
        cases failed with
        | true => exact hnil hw.2
        | false => exact hnil (by rw [show resp = .bounded 1 from hw.2]; rfl)
      cases hst with
      | queued hw => exact absurd hw (hno _)
      | opening _ hw => exact absurd hw (hno _)
      | running _ hw => exact absurd hw (hno _)
      | handed _ hq' =>
        have hq' : resp.queue = _ := hq'
        obtain ⟨heq, hrest⟩ := List.cons.inj (hq.symm.trans hq')
        obtain ⟨rfl, rfl⟩ := Prod.mk.inj heq
        exact .served (l := ⟨front, dst, port, ch, .served (front.offered id) i⟩) rfl hrest
      | served hpc => cases hpc
    · exact .frame hst rfl ((getElem?_setLocal_ne hj).trans hl) rfl
  | @hungUp _ front dst port resp hl' hq hclosed =>
    by_cases hj : j = k
    · subst hj
      obtain rfl := Option.some.inj (hl.symm.trans hl')
      refine ⟨_, x, getElem?_setLocal_self hl, rfl, ?_, .inl ⟨rfl, rfl⟩⟩
      rw [tasks_setLocal]
      generalize s.tasks[j]? = t at hst ⊢
      have hw : ∀ failed, Local.Waits ⟨front, dst, port, resp, .wait⟩ failed →
          Local.Waits ⟨front, dst, port, resp, .hungUp⟩ failed := by
        intro failed hw
        cases failed with
        | true => exact ⟨.inr rfl, hw.2⟩
        | false =>
          rw [show resp = .bounded 1 from hw.2] at hclosed
          cases hclosed
      cases hst with
      | queued h => exact .queued (hw _ h)
      | opening hpc h => exact .opening hpc (hw _ h)
      | running hc h => exact .running hc (hw _ h)
      | handed _ hq' =>
        have hq' : resp.queue = _ := hq'
        simp [hq] at hq'
      | served hpc => cases hpc
    · exact .frame hst rfl ((getElem?_setLocal_ne hj).trans hl) rfl

theorem goes_serve {b : ClientAct}
    (hall : ∀ k l, s.locals[k]? = some l → ∃ x, Stage k l s.tasks[k]? x)
    (hl : s.locals[k]? = some l) (hst : Stage k l s.tasks[k]? x)
    (hr : Rule s (.serve j b) o s') : Goes k l x s' (.serve j b) o := by
  cases hr with
  | @serve _ front dst port resp pc i ask tpc c _ client e hl' ht hstep =>
    obtain ⟨y, hy⟩ := hall j _ hl'
    obtain ⟨rfl, -⟩ := hy.of_served rfl
    by_cases hi : i = k
    · subst hi
      obtain rfl := Option.some.inj (hl.symm.trans hl')
      obtain ⟨-, hq, ask', id, c', ht', rfl⟩ := hst.of_served rfl
      obtain ⟨rfl, rfl, hc⟩ := RequestTask.mk.inj (Option.some.inj (ht.symm.trans ht'))
      obtain rfl := Option.some.inj hc
      obtain ⟨hgoto, -⟩ := Client.rule_of_step hstep
      refine ⟨_, ⟨client, e.input, c.broken⟩, getElem?_setLocal_self hl, rfl, ?_,
        .inr ⟨.step b, if_pos rfl, Option.map_eq_some_iff.mpr ⟨_, hstep, rfl⟩⟩⟩
      rw [tasks_setLocal, getElem?_setTask_self ht, hgoto]
      exact .served (l := ⟨front, dst, port, resp, .served client.pc i⟩)
        (c := { c with input := e.input }) rfl hq
    · exact .frame hst (if_neg hi) ((getElem?_setLocal_ne hi).trans hl) (getElem?_setTask_ne hi)

theorem goes_put {bs : List UInt8} (hl : s.locals[k]? = some l)
    (hst : Stage k l s.tasks[k]? x) (hr : Rule s (.put j bs) o s') :
    Goes k l x s' (.put j bs) o := by
  cases hr with
  | @put _ _ ask pc input ht =>
    by_cases hj : j = k
    · subst hj
      rw [ht] at hst
      obtain ⟨hx, hst'⟩ := hst.relconn
      refine ⟨l, ⟨x.handler, input ++ bs, false⟩, hl, rfl, ?_, .inr ⟨.put bs, if_pos rfl, ?_⟩⟩
      · rw [getElem?_setTask_self ht]
        exact hst' ⟨input ++ bs, false⟩
      · rw [hx]
        rfl
    · exact .frame hst (if_neg hj) hl (getElem?_setTask_ne hj)

theorem goes_brk {n : ℕ} (hl : s.locals[k]? = some l) (hst : Stage k l s.tasks[k]? x)
    (hr : Rule s (.brk j n) o s') : Goes k l x s' (.brk j n) o := by
  cases hr with
  | @brk _ _ ask pc c ht =>
    by_cases hj : j = k
    · subst hj
      rw [ht] at hst
      obtain ⟨hx, hst'⟩ := hst.relconn
      refine ⟨l, ⟨x.handler, c.input.take n, true⟩, hl, rfl, ?_,
        .inr ⟨.brk n, if_pos rfl, ?_⟩⟩
      · rw [getElem?_setTask_self ht]
        exact hst' ⟨c.input.take n, true⟩
      · rw [hx]
        rfl
    · exact .frame hst (if_neg hj) hl (getElem?_setTask_ne hj)

/-- **One step**, for every front end there is. -/
theorem goes_of_rule (hs : s.asks = s.asked)
    (hall : ∀ k l, s.locals[k]? = some l → ∃ x, Stage k l s.tasks[k]? x)
    (hl : s.locals[k]? = some l) (hst : Stage k l s.tasks[k]? x) (hr : Rule s a o s') :
    Goes k l x s' a o := by
  cases a with
  | ask => exact goes_ask hl hst hr
  | spawn => exact goes_spawn hl hst hr
  | openConn => exact goes_openConn hs hl hst hr
  | request => exact goes_request hs hl hst hr
  | respond => exact goes_respond hs hl hst hr
  | receive => exact goes_receive hl hst hr
  | serve => exact goes_serve hall hl hst hr
  | put => exact goes_put hl hst hr
  | brk => exact goes_brk hl hst hr

end

/-! ### Every connection

The simulation for one connection holds for all of them at once, because a step of the proxy moves
the tasks of one connection at most. What is observed of the others is nothing. -/

theorem length_tasks_le (hs : s.asks = s.asked) : s.tasks.length ≤ s.locals.length := by
  have hlen := congrArg List.length hs
  rw [asks, asked, List.length_append, List.length_map, List.length_mapIdx] at hlen
  omega

theorem length_hangUp (s : LocalProxy) (ask : Ask) :
    (s.hangUp ask).locals.length = s.locals.length := by
  unfold hangUp
  split
  · exact List.length_set
  · rfl

theorem length_locals_le (hr : Rule s a o s') : s.locals.length ≤ s'.locals.length := by
  cases hr with
  | ask =>
    rw [List.length_append]
    exact Nat.le_add_right _ _
  | notOpened | failed =>
    rw [length_hangUp]
    exact Nat.le_refl _
  | responded =>
    rw [length_hangUp, locals_setTask]
    exact List.length_set.ge
  | received | hungUp | serve => exact List.length_set.ge
  | _ => exact Nat.le_refl _

/-- A front end that there was not asks now, and has no task. -/
theorem fresh_of_rule (hs : s.asks = s.asked) {k : ℕ} {l : Local} (hk : s.locals.length ≤ k)
    (hl : s'.locals[k]? = some l) (hr : Rule s a o s') :
    l.Waits false ∧ s'.tasks[k]? = none := by
  have hlt := (List.getElem?_eq_some_iff.mp hl).1
  cases hr with
  | @ask front dst port =>
    rw [List.length_append, List.length_singleton] at hlt
    obtain rfl : k = s.locals.length := by omega
    rw [List.getElem?_concat_length] at hl
    obtain rfl := Option.some.inj hl
    exact ⟨⟨rfl, rfl⟩, List.getElem?_eq_none (length_tasks_le hs)⟩
  | notOpened ht | failed ht =>
    rw [length_hangUp] at hlt
    exact absurd hlt (Nat.not_lt.mpr hk)
  | responded ht =>
    rw [length_hangUp, locals_setTask] at hlt
    exact absurd (List.length_set ▸ hlt) (Nat.not_lt.mpr hk)
  | received | hungUp | serve => exact absurd (List.length_set ▸ hlt) (Nat.not_lt.mpr hk)
  | _ => exact absurd hlt (Nat.not_lt.mpr hk)

/-- No front end sees a step before it is there. -/
theorem seen_of_length_le (hs : s.asks = s.asked) {k : ℕ} (hk : s.locals.length ≤ k)
    (hr : Rule s a o s') : seen k a o = [] := by
  have htask : ∀ {j t}, s.tasks[j]? = some t → j ≠ k := by
    rintro j t ht rfl
    have hlt := (List.getElem?_eq_some_iff.mp ht).1
    have hle := length_tasks_le hs
    omega
  cases hr with
  | request ht | failed ht | put ht | brk ht => exact if_neg (htask ht)
  | @serve j _ _ _ _ _ _ _ _ _ _ _ _ hl =>
    refine if_neg ?_
    rintro rfl
    exact absurd (List.getElem?_eq_some_iff.mp hl).1 (Nat.not_lt.mpr hk)
  | _ => rfl

/-- The recorded steps of a run of the proxy. -/
abbrev Trace := List (Event LocalProxy ProxyAct (Option (Effect Obs)))

/-- What the client of the front end `k` sees of a run. -/
def view (k : ℕ) (tr : Trace) : List (ExposedAct ClientAct × Option (Effect Obs)) :=
  tr.flatMap fun e => seen k e.act e.out

theorem view_snoc (k : ℕ) (tr : Trace) (e : Event LocalProxy ProxyAct (Option (Effect Obs))) :
    view k (tr ++ [e]) = view k tr ++ seen k e.act e.out := by
  simp [view]

/-- What holds of the proxy after the steps `tr`. -/
structure Served (tr : Trace) (s : LocalProxy) : Prop where
  asks : s.asks = s.asked
  fresh : ∀ k, s.locals.length ≤ k → view k tr = []
  client : ∀ k l, s.locals[k]? = some l →
    ∃ tr' x, clientHandler.machine.Run (.start (.new l.front l.dst l.port)) tr' x ∧
      tr'.map (fun e => (e.act, e.out)) = view k tr ∧ Stage k l s.tasks[k]? x

theorem Served.step {tr : Trace} (hi : Served tr s) (hr : Rule s a o s') :
    Served (tr ++ [⟨s, a, o, s'⟩]) s' := by
  obtain ⟨hs, hfresh, hclient⟩ := hi
  have hs' := asks_of_rule hs hr
  have hall : ∀ k l, s.locals[k]? = some l → ∃ x, Stage k l s.tasks[k]? x := by
    intro k l hl
    obtain ⟨-, x, -, -, hst⟩ := hclient k l hl
    exact ⟨x, hst⟩
  refine ⟨hs', ?_, ?_⟩
  · intro k hk
    have hk := (length_locals_le hr).trans hk
    rw [view_snoc, hfresh k hk, seen_of_length_le hs hk hr]
    rfl
  · intro k l hl
    rw [view_snoc]
    rcases Nat.lt_or_ge k s.locals.length with hlt | hge
    · obtain ⟨tr', x, hrun, hview, hst⟩ := hclient k _ (List.getElem?_eq_getElem hlt)
      obtain ⟨l', x', hl', hsame, hst', hgo⟩ :=
        goes_of_rule hs hall (List.getElem?_eq_getElem hlt) hst hr
      obtain rfl := Option.some.inj (hl'.symm.trans hl)
      have hrun : clientHandler.machine.Run (.start (l'.client .start)) tr' x := by
        rw [hsame]
        exact hrun
      rcases hgo with ⟨hseen, rfl⟩ | ⟨b, hseen, hstep⟩
      · exact ⟨tr', x', hrun, by rw [hseen, List.append_nil, hview], hst'⟩
      · refine ⟨_, x', hrun.snoc hstep, ?_, hst'⟩
        rw [List.map_append, hview, hseen]
        rfl
    · obtain ⟨hw, htask⟩ := fresh_of_rule hs hge hl hr
      refine ⟨[], .start (l.client .start), .nil, ?_, ?_⟩
      · rw [hfresh k hge, seen_of_length_le hs hge hr]
        rfl
      · rw [htask]
        exact .queued hw

theorem served_of_run {tr : Trace} (h : machine.Run new tr s) : Served tr s := by
  refine h.induct Served ?_ ?_
  · refine ⟨rfl, fun _ _ => rfl, ?_⟩
    intro k l hl
    simp [new] at hl
  · intro tr s a s' o _ hi hs
    exact hi.step (rule_of_step hs)

/-- **Every connection is a client of its own.** In every run of the proxy, whatever the other
connections do, what the task of a front end, its request task and the peer at its stream do and
write is a run of one client that asks for what that front end was asked for, and the parts stand
where that client stands. In particular a front end only forwards over the stream on which its own
request was sent and its own offer received, and no other one has that stream. -/
theorem client_of_run {tr : Trace} (h : machine.Run new tr s) {k : ℕ} {l : Local}
    (hl : s.locals[k]? = some l) :
    (∃ tr' x, clientHandler.machine.Run (.start (.new l.front l.dst l.port)) tr' x ∧
      tr'.map (fun e => (e.act, e.out)) = view k tr ∧ Stage k l s.tasks[k]? x) ∧
    ∀ cpc j, l.pc = .served cpc j →
      (∃ t, s.tasks[j]? = some t ∧ t.ask = ⟨l.dst, l.port, k⟩) ∧
      ∀ k' l' cpc', s.locals[k']? = some l' → l'.pc = .served cpc' j → k' = k := by
  have hi := served_of_run h
  obtain ⟨tr', x, hrun, hview, hst⟩ := hi.client k l hl
  refine ⟨⟨tr', x, hrun, hview, hst⟩, ?_⟩
  intro cpc j hpc
  obtain ⟨rfl, -, ask, id, c, ht, -⟩ := hst.of_served hpc
  refine ⟨⟨_, ht, ?_⟩, ?_⟩
  · obtain ⟨l', hl', hask⟩ := exists_local hi.asks ht
    obtain rfl := Option.some.inj (hl.symm.trans hl')
    exact hask
  · intro k' l' cpc' hl' hpc'
    obtain ⟨-, y, -, -, hst'⟩ := hi.client k' l' hl'
    exact (hst'.of_served hpc').1.symm

/-- Two applications ask, over SOCKS and over HTTP. The one that asked last is served first. -/
theorem client_of_run_two :
    ∃ (tr : Trace) (s : LocalProxy) (l : Local), machine.Run new tr s ∧
      s.locals[1]? = some l ∧ l.front = .http ∧ l.pc.relconn = some 1 ∧
      ∃ tr' x, clientHandler.machine.Run (.start (.new .http l.dst l.port)) tr' x ∧
        tr'.map (fun e => (e.act, e.out)) = view 1 tr ∧ Stage 1 l s.tasks[1]? x := by
  obtain ⟨tr, s, hrun, -, hfront, hpc⟩ := Machine.exists_run_of_exec machine new
    [.ask (.socks .v5) "a" 1, .ask .http "b" 2, .spawn, .spawn, .openConn 1 true, .openConn 0 true,
      .request 0 (.request ⟨1, by decide⟩), .request 1 (.request ⟨1, by decide⟩),
      .request 1 (.send 100), .put 1 (remoteBytes (.tcpOffer (.ok 7))), .request 0 (.send 1),
      .request 1 .recv, .respond 1, .receive 1, .serve 1 (.reply true)]
    (P := fun _ s => s.locals[1]?.map Local.front = some .http ∧
      s.locals[1]?.bind (fun l => l.pc.relconn) = some 1) (by decide)
  obtain ⟨l, hl, hl'⟩ := Option.map_eq_some_iff.mp hfront
  rw [hl] at hpc
  refine ⟨tr, s, l, hrun, hl, hl', hpc, ?_⟩
  rw [← hl']
  exact (client_of_run hrun hl).1

end LocalProxy

end ObfsWs
