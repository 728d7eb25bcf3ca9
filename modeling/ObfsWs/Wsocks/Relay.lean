import ObfsWs.Wsocks.Forward

/-!
# The relay

The two ends of one proxied connection: on the client the task of `request_fut` followed by the
front end that asked for the connection, on the server the handler that `server_session_loop`
spawns. Both end in `tcp_forward_loop`. They talk over one mux stream.

## One client, two tasks

On the client a connection is the work of two tasks, one after the other: the request task sends
the request and receives the offer, and hands the offer and the stream to the front end, which
answers the application and forwards. At no moment do both of them work on the stream. So here
they are one program, and the handing over is not a step. `Requests` has the two tasks with the
channels between them, for any number of connections, and proves that each connection is one of
these programs.

## How a task ends

A task of the client ends with an error that nobody reads, or by a panic where the source has a
`todo!` or an `assert`. The server's handler unwraps most of what it does, so its errors are
panics of the task. `Exit` keeps them apart, and keeps the reasons: some of them can only come
from a peer that does not follow the protocol, and these are the ones that `relay_correct`
excludes.

## Main definitions

* `Client`, `Client.step` — the client's end
* `Server`, `Server.step` — the server's end

## Main results

* `Client.rule_of_step`, `Server.rule_of_step` — what a step can be

## What is assumed

The mux stream is as in `Link`: in order, nothing lost until it breaks. `TcpStream::connect` of
the server returns any result at any time, and the id that the server draws is part of that
result. Opening the mux stream is not a step here; it has no counterpart on the server before the
first byte.
-/

namespace ObfsWs

/-! ### The client

From the request to the loop. `answer` is what the request task and the front end make of the
frame that comes back: an offer to be told, or an error. An offer that is an error is told as
well, by the front ends that have an answer to it, and the task ends. -/

/-- Where the client stands. -/
inductive ClientPc
  /-- Before the request. -/
  | start
  /-- In `send` of the request, these bytes being still to be written. -/
  | send (rest : List UInt8)
  /-- In `Frame::recv`. -/
  | recv
  /-- The front end has an offer and tells the application. -/
  | reply (id : BitVec 128)
  /-- The SOCKS front end has an error and tells the application. -/
  | refuse (err : OfferError)
  | forward (fw : ForwardLoop)
  | done (exit : Exit)

/-- What the front end is about to tell the application of. -/
def ClientPc.offer : ClientPc → Option Offer
  | .reply id => some (.ok id)
  | .refuse err => some (.error err)
  | _ => none

/-- The client's end. -/
structure Client where
  front : FrontEnd
  /-- The request. -/
  dst : String
  port : UInt16
  pc : ClientPc

/-- The choices of the client's environment. -/
inductive ClientAct
  | request (paddingLen : PaddingLen)
  | send (n : ℕ)
  | sendFail
  | recv
  | recvFail
  /-- Telling the application succeeds or fails. -/
  | reply (ok : Bool)
  | forward (a : ForwardAct)

namespace Client

/-- A client before its request. -/
def new (front : FrontEnd) (dst : String) (port : UInt16) : Client := ⟨front, dst, port, .start⟩

/-- The client goes on at `pc`. -/
def goto (c : Client) (pc : ClientPc) : Client := { c with pc := pc }

/-- After `Frame::recv`, what the request task and then the front end do. -/
def answer (c : Client) (res : Protocol) : ClientPc :=
  match res with
  | .tcpOffer (.ok id) => .reply id
  | .tcpOffer (.error err) =>
    match c.front with
    | .socks _ => .refuse err
    | .http => .done (.panic .todoOffer)
  | _ => .done (.err (.bail
      "receive a unexpected frame type from wsocks server, only TcpOffer expected."))

/-- The front end answers an offer, and goes on at `pc` if it can. -/
def tell (c : Client) (offer : Offer) (pc : ClientPc) (ok : Bool) (input : List UInt8) :
    Option (Client × Effect Obs) :=
  (c.front.reply c.dst c.port offer).map fun reply =>
    (c.goto (if ok then pc else .done (.err .socket)), ⟨input, [], .told reply ok⟩)

/-- One step. -/
def step (c : Client) (broken : Bool) (input : List UInt8) :
    ClientAct → Option (Client × Effect Obs)
  | .request paddingLen =>
    match c.pc with
    | .start =>
      let frame := Frame.fromProtocol (.tcpConnect c.dst c.port) paddingLen
      match frame.message with
      | .ok msg => some (c.goto (.send msg), ⟨input, [], .built frame⟩)
      | .error e => some (c.goto (.done (.err (.send e))), ⟨input, [], .tau⟩)
    | _ => none
  | .send n =>
    match c.pc with
    | .send rest => some (c.goto (writeAll .send .recv rest n), ⟨input, rest.take n, .tau⟩)
    | _ => none
  | .sendFail =>
    match c.pc, broken with
    | .send _, true => some (c.goto (.done (.err .stream)), ⟨input, [], .tau⟩)
    | _, _ => none
  | .recv =>
    match c.pc with
    | .recv =>
      match Frame.recv input with
      | .ok (frame, input) => some (c.goto (c.answer frame.protocol), ⟨input, [], .recvd frame⟩)
      | .error .unexpectedEof =>
        if broken then some (c.goto (.done (.err (.recv .unexpectedEof))), ⟨input, [], .tau⟩)
        else none
      | .error e => some (c.goto (.done (.err (.recv e))), ⟨input, [], .tau⟩)
    | _ => none
  | .recvFail =>
    match c.pc, broken with
    | .recv, true => some (c.goto (.done (.err .stream)), ⟨input, [], .tau⟩)
    | _, _ => none
  | .reply ok =>
    match c.pc with
    | .reply id => c.tell (.ok id) (.forward (.start id false)) ok input
    | .refuse err => c.tell (.error err) (.done .ok) ok input
    | _ => none
  | .forward a =>
    match c.pc with
    | .forward fw =>
      (fw.step broken input a).map fun r =>
        match r.1 with
        | .ok fw => (c.goto (.forward fw), r.2)
        | .error exit => (c.goto (.done exit), r.2)
    | _ => none

end Client

/-! ### The server

From the first frame to the loop. A frame that is no request ends the handler with the text of the
source. -/

/-- The server's end, by where it stands. -/
inductive Server
  /-- In `Frame::recv`. -/
  | recv
  /-- In `TcpStream::connect`. -/
  | connect (dst : String) (port : UInt16)
  /-- In `send` of the offer, these bytes being still to be written. -/
  | offer (id : Offer) (rest : List UInt8)
  /-- The offer is sent. -/
  | offered (id : Offer)
  | forward (fw : ForwardLoop)
  | done (exit : Exit)

/-- The choices of the server's environment. -/
inductive ServerAct
  | recv
  | recvFail
  /-- The connection is made and an id is drawn, or it is not made. -/
  | connect (r : Except IoError (BitVec 128)) (paddingLen : PaddingLen)
  | send (n : ℕ)
  | sendFail
  | offered
  | forward (a : ForwardAct)

namespace Server

/-- After `Frame::recv`. -/
def handle (req : Protocol) : Server :=
  match req with
  | .tcpData _ _ => .done (.err (.bail "unexcepted receive a TCP data without handshake"))
  | .tcpOffer _ => .done (.err (.bail "unexpected receive a TCP offer from client"))
  | .tcpConnect dst port => .connect dst port

/-- The `unwrap` behind `tcp_forward_loop`. -/
def unwrapExit (exit : Exit) : Exit :=
  match exit with
  | .err e => .panic (.unwrap e)
  | exit => exit

/-- One step. -/
def step (s : Server) (broken : Bool) (input : List UInt8) :
    ServerAct → Option (Server × Effect Obs)
  | .recv =>
    match s with
    | .recv =>
      match Frame.recv input with
      | .ok (frame, input) => some (handle frame.protocol, ⟨input, [], .recvd frame⟩)
      | .error .unexpectedEof =>
        if broken then
          some (.done (.panic (.unwrap (.recv .unexpectedEof))), ⟨input, [], .tau⟩)
        else none
      | .error e => some (.done (.panic (.unwrap (.recv e))), ⟨input, [], .tau⟩)
    | _ => none
  | .recvFail =>
    match s, broken with
    | .recv, true => some (.done (.panic (.unwrap .stream)), ⟨input, [], .tau⟩)
    | _, _ => none
  | .connect r paddingLen =>
    match s with
    | .connect _ _ =>
      let frame := Frame.fromProtocol (.tcpOffer (offerOf r)) paddingLen
      match frame.message with
      | .ok msg => some (.offer (offerOf r) msg, ⟨input, [], .built frame⟩)
      | .error e => some (.done (.panic (.unwrap (.send e))), ⟨input, [], .tau⟩)
    | _ => none
  | .send n =>
    match s with
    | .offer id rest =>
      some (writeAll (.offer id) (.offered id) rest n, ⟨input, rest.take n, .tau⟩)
    | _ => none
  | .sendFail =>
    match s, broken with
    | .offer _ _, true => some (.done (.panic (.unwrap .stream)), ⟨input, [], .tau⟩)
    | _, _ => none
  | .offered =>
    match s with
    | .offered (.ok id) => some (.forward (.start id true), ⟨input, [], .tau⟩)
    | .offered (.error _) => some (.done .ok, ⟨input, [], .tau⟩)
    | _ => none
  | .forward a =>
    match s with
    | .forward fw =>
      (fw.step broken input a).map fun r =>
        match r.1 with
        | .ok fw => (.forward fw, r.2)
        | .error exit => (.done (unwrapExit exit), r.2)
    | _ => none

end Server

/-! ### What a step can be -/

/-- The frame is a request. -/
def IsConnect (f : Frame) : Prop := ∃ dst port, f.protocol = .tcpConnect dst port

/-- What a step of the client can be. -/
inductive Client.Rule (c : Client) (broken : Bool) (input : List UInt8) :
    ClientPc → Effect Obs → Prop
  | request {f : Frame} : c.pc = .start → IsConnect f → f.fits = true →
      Rule c broken input (.send (Frame.stream.enc f)) ⟨input, [], .built f⟩
  | send {rest : List UInt8} (n : ℕ) : c.pc = .send rest →
      Rule c broken input (writeAll .send .recv rest n) ⟨input, rest.take n, .tau⟩
  | recv {f : Frame} {rest : List UInt8} : c.pc = .recv → Frame.recv input = .ok (f, rest) →
      Rule c broken input (c.answer f.protocol) ⟨rest, [], .recvd f⟩
  | reply {id : BitVec 128} {reply : Reply} : c.pc = .reply id →
      c.front.reply c.dst c.port (.ok id) = some reply →
      Rule c broken input (.forward (.start id false)) ⟨input, [], .told reply true⟩
  /-- It was an error, or the application could not be told. -/
  | replyStop {offer : Offer} {reply : Reply} {ok : Bool} {exit : Exit} :
      c.pc.offer = some offer → c.front.reply c.dst c.port offer = some reply →
      exit.unexpected = false → Rule c broken input (.done exit) ⟨input, [], .told reply ok⟩
  | stop {exit : Exit} : (∀ x, c.pc ≠ .done x) →
      (exit.unexpected = true → ∃ de, Frame.recv input = .error (.decode de)) →
      Rule c broken input (.done exit) ⟨input, [], .tau⟩
  | forward {fw fw' : ForwardLoop} {e : Effect Obs} : c.pc = .forward fw →
      ForwardLoop.Rule fw broken input (.ok fw') e → Rule c broken input (.forward fw') e
  | forwardStop {fw : ForwardLoop} {exit : Exit} {e : Effect Obs} : c.pc = .forward fw →
      ForwardLoop.Rule fw broken input (.error exit) e → Rule c broken input (.done exit) e

/-- Receiving fails as it does in every task. -/
theorem unexpected_of_recv_error {input : List UInt8} {e : RecvError}
    (h : Frame.recv input = .error e) (hu : (TaskError.recv e).unexpected = true) :
    ∃ de, Frame.recv input = .error (.decode de) := by
  rcases e with _ | de
  · cases hu
  · exact ⟨de, h⟩

/-- Telling the application is one of two things. -/
theorem Client.rule_of_tell {c c' : Client} {broken : Bool} {input : List UInt8} {e : Effect Obs}
    {offer : Offer} {pc : ClientPc} {ok : Bool} (hc : c.pc.offer = some offer)
    (hpc : (∃ id, c.pc = .reply id ∧ pc = .forward (.start id false)) ∨ pc = .done .ok)
    (h : c.tell offer pc ok input = some (c', e)) :
    c' = c.goto c'.pc ∧ Client.Rule c broken input c'.pc e := by
  obtain ⟨reply, hreply, heq⟩ := Option.map_eq_some_iff.mp h
  obtain ⟨rfl, rfl⟩ := Prod.mk.inj heq
  refine ⟨rfl, ?_⟩
  cases ok with
  | false => exact .replyStop hc hreply rfl
  | true =>
    rcases hpc with ⟨id, hid, rfl⟩ | rfl
    · rw [hid] at hc
      obtain rfl := Option.some.inj hc
      exact .reply hid hreply
    · exact .replyStop hc hreply rfl

theorem Client.rule_of_step {c c' : Client} {broken : Bool} {input : List UInt8} {a : ClientAct}
    {e : Effect Obs} (h : c.step broken input a = some (c', e)) :
    c' = c.goto c'.pc ∧ Client.Rule c broken input c'.pc e := by
  have hpc : ∀ {pc : ClientPc}, c.pc = pc → (∀ x, pc ≠ .done x) → ∀ x, c.pc ≠ .done x :=
    fun h hx x => h ▸ hx x
  cases a with
  | request paddingLen =>
    simp only [step] at h
    split at h
    · rename_i hc
      have hfits := Frame.message_of_fits
        (f := .fromProtocol (.tcpConnect c.dst c.port) paddingLen)
      have hnot := Frame.message_of_not_fits
        (f := .fromProtocol (.tcpConnect c.dst c.port) paddingLen)
      cases hf : (Frame.fromProtocol (.tcpConnect c.dst c.port) paddingLen).fits with
      | true =>
        rw [hfits hf] at h
        obtain ⟨rfl, rfl⟩ := Machine.next_inj h
        exact ⟨rfl, .request hc ⟨_, _, rfl⟩ hf⟩
      | false =>
        rw [hnot hf] at h
        obtain ⟨rfl, rfl⟩ := Machine.next_inj h
        exact ⟨rfl, .stop (hpc hc (by simp)) fun he => by cases he⟩
    · cases h
  | send n =>
    simp only [step] at h
    split at h
    · rename_i rest hc
      obtain ⟨rfl, rfl⟩ := Machine.next_inj h
      exact ⟨rfl, .send n hc⟩
    · cases h
  | sendFail =>
    simp only [step] at h
    split at h
    · rename_i hc
      obtain ⟨rfl, rfl⟩ := Machine.next_inj h
      exact ⟨rfl, .stop (hpc hc (by simp)) fun he => by cases he⟩
    · cases h
  | recv =>
    simp only [step] at h
    split at h
    · rename_i hc
      split at h
      · rename_i frame rest hrecv
        obtain ⟨rfl, rfl⟩ := Machine.next_inj h
        exact ⟨rfl, .recv hc hrecv⟩
      · split at h
        · obtain ⟨rfl, rfl⟩ := Machine.next_inj h
          exact ⟨rfl, .stop (hpc hc (by simp)) fun he => by cases he⟩
        · cases h
      · rename_i re _ hrecv
        obtain ⟨rfl, rfl⟩ := Machine.next_inj h
        exact ⟨rfl, .stop (hpc hc (by simp)) (unexpected_of_recv_error hrecv)⟩
    · cases h
  | recvFail =>
    simp only [step] at h
    split at h
    · rename_i hc
      obtain ⟨rfl, rfl⟩ := Machine.next_inj h
      exact ⟨rfl, .stop (hpc hc (by simp)) fun he => by cases he⟩
    · cases h
  | reply ok =>
    simp only [step] at h
    split at h
    · rename_i id hc
      exact rule_of_tell (by rw [hc]; rfl) (.inl ⟨id, hc, rfl⟩) h
    · rename_i hc
      exact rule_of_tell (by rw [hc]; rfl) (.inr rfl) h
    · cases h
  | forward a =>
    simp only [step] at h
    split at h
    · rename_i fw hc
      obtain ⟨⟨next, e'⟩, hstep, heq⟩ := Option.map_eq_some_iff.mp h
      have hr := ForwardLoop.rule_of_step hstep
      rcases next with exit | fw'
      · obtain ⟨rfl, rfl⟩ := Prod.mk.inj heq
        exact ⟨rfl, .forwardStop hc hr⟩
      · obtain ⟨rfl, rfl⟩ := Prod.mk.inj heq
        exact ⟨rfl, .forward hc hr⟩
    · cases h

/-- What a step of the server can be. -/
inductive Server.Rule (s : Server) (broken : Bool) (input : List UInt8) :
    Server → Effect Obs → Prop
  | recv {f : Frame} {rest : List UInt8} : s = .recv → Frame.recv input = .ok (f, rest) →
      Rule s broken input (handle f.protocol) ⟨rest, [], .recvd f⟩
  | connect {dst : String} {port : UInt16} {id : Offer} {f : Frame} : s = .connect dst port →
      f.protocol = .tcpOffer id → f.fits = true →
      Rule s broken input (.offer id (Frame.stream.enc f)) ⟨input, [], .built f⟩
  | send {id : Offer} {rest : List UInt8} (n : ℕ) : s = .offer id rest →
      Rule s broken input (writeAll (.offer id) (.offered id) rest n) ⟨input, rest.take n, .tau⟩
  | offered {id : BitVec 128} : s = .offered (.ok id) →
      Rule s broken input (.forward (.start id true)) ⟨input, [], .tau⟩
  | stop {exit : Exit} : (∀ x, s ≠ .done x) →
      (exit.unexpected = true → ∃ de, Frame.recv input = .error (.decode de)) →
      Rule s broken input (.done exit) ⟨input, [], .tau⟩
  | forward {fw fw' : ForwardLoop} {e : Effect Obs} : s = .forward fw →
      ForwardLoop.Rule fw broken input (.ok fw') e → Rule s broken input (.forward fw') e
  | forwardStop {fw : ForwardLoop} {exit : Exit} {e : Effect Obs} : s = .forward fw →
      ForwardLoop.Rule fw broken input (.error exit) e →
      Rule s broken input (.done (unwrapExit exit)) e

theorem Server.rule_of_step {s s' : Server} {broken : Bool} {input : List UInt8} {a : ServerAct}
    {e : Effect Obs} (h : s.step broken input a = some (s', e)) :
    Server.Rule s broken input s' e := by
  cases a with
  | recv =>
    simp only [step] at h
    split at h
    · split at h
      · rename_i frame rest hrecv
        obtain ⟨rfl, rfl⟩ := Machine.next_inj h
        exact .recv rfl hrecv
      · split at h
        · obtain ⟨rfl, rfl⟩ := Machine.next_inj h
          exact .stop (by simp) fun he => by cases he
        · cases h
      · rename_i re _ hrecv
        obtain ⟨rfl, rfl⟩ := Machine.next_inj h
        exact .stop (by simp) (unexpected_of_recv_error hrecv)
    · cases h
  | recvFail =>
    simp only [step] at h
    split at h
    · obtain ⟨rfl, rfl⟩ := Machine.next_inj h
      exact .stop (by simp) fun he => by cases he
    · cases h
  | connect r paddingLen =>
    simp only [step] at h
    split at h
    · cases hf : (Frame.fromProtocol (.tcpOffer (offerOf r)) paddingLen).fits with
      | true =>
        rw [Frame.message_of_fits hf] at h
        obtain ⟨rfl, rfl⟩ := Machine.next_inj h
        exact .connect rfl rfl hf
      | false =>
        rw [Frame.message_of_not_fits hf] at h
        obtain ⟨rfl, rfl⟩ := Machine.next_inj h
        exact .stop (by simp) fun he => by cases he
    · cases h
  | send n =>
    simp only [step] at h
    split at h
    · obtain ⟨rfl, rfl⟩ := Machine.next_inj h
      exact .send n rfl
    · cases h
  | sendFail =>
    simp only [step] at h
    split at h
    · obtain ⟨rfl, rfl⟩ := Machine.next_inj h
      exact .stop (by simp) fun he => by cases he
    · cases h
  | offered =>
    simp only [step] at h
    split at h
    · obtain ⟨rfl, rfl⟩ := Machine.next_inj h
      exact .offered rfl
    · obtain ⟨rfl, rfl⟩ := Machine.next_inj h
      exact .stop (by simp) fun he => by cases he
    · cases h
  | forward a =>
    simp only [step] at h
    split at h
    · rename_i fw
      obtain ⟨⟨next, e'⟩, hstep, heq⟩ := Option.map_eq_some_iff.mp h
      have hr := ForwardLoop.rule_of_step hstep
      rcases next with exit | fw'
      · obtain ⟨rfl, rfl⟩ := Prod.mk.inj heq
        exact .forwardStop rfl hr
      · obtain ⟨rfl, rfl⟩ := Prod.mk.inj heq
        exact .forward rfl hr
    · cases h

end ObfsWs
