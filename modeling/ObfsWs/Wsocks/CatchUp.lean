import ObfsWs.Wsocks.Told

/-!
# The relay catches up

Nothing gets stuck in the relay. Once the server has offered the connection, and as long as the
stream works and neither end has stopped, both ends can go on to a state in which nothing is under
way and everything read from either TCP connection has been written to the other one, without
reading anything more.

## Why it could get stuck

An end that has something to send can always send it, because the stream takes any number of
bytes. But an end that receives does so only when it has written what it received before, and each
end is two futures in one task. What has to be shown is that from every combination of positions
some step lowers the rank: frames under way are received, payloads are written, half written
frames are finished, an offer that has arrived is answered. The bytes under way form whole frames
and the beginning of one that is being written, and the invariant of `RelayCorrect` is what says
so.

## Main definitions

* `ForwardLoop.Idle`, `Caught` — nothing is left to be sent, received or written
* `Link.rank` — what is left to do, as a number that every step of the way lowers

## Main results

* `ForwardLoop.exists_work`, `ForwardLoop.exists_recv` — a loop with something to do can do it
* `catch_up` — the relay catches up from every state it can be in

## What is left open

Nothing is said about a scheduler that leaves out an end, and nothing about a TCP connection that
does not take what is written to it. The steps of the way are steps of the two ends that need
neither a new chunk nor a failure.
-/

namespace ObfsWs

/-! ### What is left to do

Bytes are counted where they are: three times while they are still to be sent, twice on the
stream, once while they are still to be written. Every step of the way moves bytes to where they
count less, or removes a position that the handshake still has to go through. -/

/-- Every byte counts three times before it is put on the stream. -/
def UpFut.rank : UpFut → ℕ
  | .send rest => 3 * rest.length + 1
  | _ => 0

/-- Every byte counts once before it is written to the TCP connection. -/
def DownFut.rank : DownFut → ℕ
  | .check => 2
  | .recv => 1
  | .write rest => rest.length + 3

namespace ForwardLoop

/-- What is left to do, apart from the bytes under way. -/
def rank (fw : ForwardLoop) : ℕ := fw.up.rank + fw.down.rank

/-- Nothing is left to be sent or written. -/
def Idle (fw : ForwardLoop) : Prop := (∀ rest, fw.up ≠ .send rest) ∧ ∀ rest, fw.down ≠ .write rest

theorem Idle.pending_eq {fw : ForwardLoop} (h : fw.Idle) : fw.pending = [] := by
  rw [pending]
  cases hup : fw.up with
  | send rest => exact absurd hup (h.1 rest)
  | _ => rfl

theorem Idle.toWrite_eq {fw : ForwardLoop} (h : fw.Idle) : fw.toWrite = [] := by
  rw [toWrite]
  cases hdown : fw.down with
  | write rest => exact absurd hdown (h.2 rest)
  | _ => rfl

end ForwardLoop

/-- What is left to do, apart from the bytes under way. -/
def ClientPc.rank : ClientPc → ℕ
  | .send rest => 3 * rest.length + 5
  | .recv => 4
  | .reply _ => 3
  | .forward fw => fw.rank
  | _ => 0

/-- What is left to do, apart from the bytes under way. -/
def Server.rank : Server → ℕ
  | .offer _ rest => 3 * rest.length + 4
  | .offered _ => 3
  | .forward fw => fw.rank
  | _ => 0

/-- What is left to do. Every byte under way counts twice. -/
def Link.rank (s : Link Client Server) : ℕ :=
  s.left.pc.rank + s.right.rank + 2 * s.toRight.length + 2 * s.toLeft.length

/-- Both ends forward and nothing is left to do. -/
def Caught (s : Link Client Server) : Prop :=
  ∃ fw fw', s.left.pc = .forward fw ∧ s.right = .forward fw' ∧ fw.Idle ∧ fw'.Idle ∧
    s.toRight = [] ∧ s.toLeft = []

/-! ### A loop with something to do can do it

Two lemmas, for what a loop is in the middle of and for a frame that has arrived. Each produces a
step, and with it what the step does to the rank. -/

/-- `write_all` of all bytes at once. -/
@[simp] theorem writeAll_length {σ : Type} (again : List UInt8 → σ) (done : σ)
    (rest : List UInt8) : writeAll again done rest rest.length = done := by
  rw [writeAll, List.drop_length]

namespace ForwardLoop

/-- The step does not read from the TCP connection, and it lowers the rank. -/
structure Lowers (fw : ForwardLoop) (input : List UInt8) (fw' : ForwardLoop) (e : Effect Obs) :
    Prop where
  read : e.obs.bytesRead = []
  rank : fw'.rank + 2 * e.output.length + 2 * e.input.length < fw.rank + 2 * input.length

/-- A loop that is not idle can go on. -/
theorem exists_work {fw : ForwardLoop} (broken : Bool) (input : List UInt8) (h : ¬ fw.Idle) :
    ∃ a fw' e, fw.step broken input a = some (.ok fw', e) ∧ Lowers fw input fw' e := by
  obtain ⟨offerId, hasDeadline, up, down⟩ := fw
  by_cases hup : ∃ rest, up = .send rest
  · obtain ⟨rest, rfl⟩ := hup
    refine ⟨.send rest.length, _, _, rfl, rfl, ?_⟩
    simp only [rank, UpFut.rank, writeAll_length, List.take_length]
    omega
  · by_cases hdown : ∃ rest, down = .write rest
    · obtain ⟨rest, rfl⟩ := hdown
      refine ⟨.write rest.length, _, _, rfl, rfl, ?_⟩
      simp only [rank, DownFut.rank, writeAll_length, List.length_nil]
      omega
    · exact absurd ⟨fun rest he => hup ⟨rest, he⟩, fun rest he => hdown ⟨rest, he⟩⟩ h

/-- A data frame is at least two bytes longer than its payload. -/
theorem length_payload_add_two_le (f : Frame) (id : BitVec 128) (payload : List UInt8)
    (hf : f.protocol = .tcpData id payload) :
    payload.length + 2 ≤ (Frame.stream.enc f).length := by
  obtain ⟨protocol, padding⟩ := f
  obtain rfl : protocol = .tcpData id payload := hf
  show _ ≤ (frame16 (serialize _)).length
  rw [length_frame16, length_serialize_tcpData]
  omega

/-- An idle loop takes the data frame that is under way to it. -/
theorem exists_recv {fw : ForwardLoop} (broken : Bool) {input rest : List UInt8} {f : Frame}
    (h : fw.Idle) (hrecv : Frame.recv input = .ok (f, rest))
    (hlen : input.length = (Frame.stream.enc f).length + rest.length) (hf : IsData fw.offerId f) :
    ∃ a fw' e, fw.step broken input a = some (.ok fw', e) ∧ Lowers fw input fw' e := by
  obtain ⟨offerId, hasDeadline, up, down⟩ := fw
  obtain ⟨payload, hf⟩ := hf
  cases down with
  | check =>
    refine ⟨.downCheck false, _, _, rfl, rfl, ?_⟩
    simp only [rank, DownFut.rank, List.length_nil]
    omega
  | recv =>
    have hpay := length_payload_add_two_le f offerId payload hf
    have hdown : downRecv ⟨offerId, hasDeadline, up, .recv⟩ f =
        .ok ⟨offerId, hasDeadline, up, .write payload⟩ := by
      rw [downRecv, hf]
      exact if_pos rfl
    refine ⟨.recv, ⟨offerId, hasDeadline, up, .write payload⟩, ⟨rest, [], .recvd f⟩, ?_, rfl, ?_⟩
    · simp only [step, hrecv, hdown]
    · simp only [rank, DownFut.rank, List.length_nil]
      omega
  | write bs => exact absurd rfl (h.2 bs)

end ForwardLoop

/-! ### Both ends

An end that is not idle has a step of its own. If both are idle and something is under way, the
one to which it is under way can receive: what is under way begins with a whole frame, because
nobody is in the middle of writing one. -/

open Link (leftHist rightHist)

/-- A step on the way: the ends and the stream go on, nothing is read, and less is left to do. -/
structure Advance (s t : Link Client Server) (o : LinkOut Obs Obs) : Prop where
  broken : t.broken = false
  left : t.left.pc.isDone = false
  right : t.right.isDone = false
  leftRead : (Link.leftObs o).flatMap Obs.bytesRead = []
  rightRead : (Link.rightObs o).flatMap Obs.bytesRead = []
  rank : t.rank < s.rank

/-- Some step is on the way. -/
def CanAdvance (s : Link Client Server) : Prop :=
  ∃ a t o, relay.step s a = some (t, o) ∧ Advance s t o

section CanAdvance

variable {s : Link Client Server}

/-- A step of the client on the way. -/
theorem canAdvance_left (hb : s.broken = false) (hright : s.right.isDone = false) {a : ClientAct}
    {c : Client} {e : Effect Obs} (he : s.left.step s.broken s.toLeft a = some (c, e))
    (hc : c.pc.isDone = false) (hread : e.obs.bytesRead = [])
    (hrank : c.pc.rank + 2 * e.output.length + 2 * e.input.length <
      s.left.pc.rank + 2 * s.toLeft.length) : CanAdvance s := by
  refine ⟨.left a, ⟨c, s.right, s.toRight ++ e.output, e.input, s.broken⟩, .left e.obs, ?_,
    hb, hc, hright, ?_, rfl, ?_⟩
  · show (s.left.step s.broken s.toLeft a).map _ = _
    rw [he]
    simp only [Option.map_some, hb, if_neg Bool.false_ne_true]
  · simp only [Link.leftObs, List.flatMap_cons, List.flatMap_nil, List.append_nil, hread]
  · simp only [Link.rank, List.length_append]
    omega

/-- A step of the server on the way. -/
theorem canAdvance_right (hb : s.broken = false) (hleft : s.left.pc.isDone = false)
    {a : ServerAct} {r : Server} {e : Effect Obs}
    (he : s.right.step s.broken s.toRight a = some (r, e)) (hr : r.isDone = false)
    (hread : e.obs.bytesRead = [])
    (hrank : r.rank + 2 * e.output.length + 2 * e.input.length <
      s.right.rank + 2 * s.toRight.length) : CanAdvance s := by
  refine ⟨.right a, ⟨s.left, r, e.input, s.toLeft ++ e.output, s.broken⟩, .right e.obs, ?_,
    hb, hleft, hr, rfl, ?_, ?_⟩
  · show (s.right.step s.broken s.toRight a).map _ = _
    rw [he]
    simp only [Option.map_some, hb, if_neg Bool.false_ne_true]
  · simp only [Link.rightObs, List.flatMap_cons, List.flatMap_nil, List.append_nil, hread]
  · simp only [Link.rank, List.length_append]
    omega

/-- A step of the client's loop. -/
theorem canAdvance_leftLoop (hb : s.broken = false) (hright : s.right.isDone = false)
    {fw : ForwardLoop} (hfw : s.left.pc = .forward fw)
    (h : ∃ a fw' e, fw.step s.broken s.toLeft a = some (.ok fw', e) ∧
      ForwardLoop.Lowers fw s.toLeft fw' e) : CanAdvance s := by
  obtain ⟨a, fw', e, he, hread, hrank⟩ := h
  refine canAdvance_left (a := .forward a) (c := s.left.goto (.forward fw')) hb hright ?_ rfl
    hread ?_
  · simp only [Client.step, hfw, he, Option.map_some]
  · rw [hfw]
    exact hrank

/-- A step of the server's loop. -/
theorem canAdvance_rightLoop (hb : s.broken = false) (hleft : s.left.pc.isDone = false)
    {fw : ForwardLoop} (hfw : s.right = .forward fw)
    (h : ∃ a fw' e, fw.step s.broken s.toRight a = some (.ok fw', e) ∧
      ForwardLoop.Lowers fw s.toRight fw' e) : CanAdvance s := by
  obtain ⟨a, fw', e, he, hread, hrank⟩ := h
  refine canAdvance_right (a := .forward a) (r := .forward fw') hb hleft ?_ rfl hread ?_
  · simp only [Server.step, hfw, he, Option.map_some]
  · rw [hfw]
    exact hrank

end CanAdvance

/-- All that was put on a working stream: what is under way begins with the next frame. -/
theorem Flow.exists_recv {built recvd : List Frame} {flight : List UInt8} {live : Prop}
    (h : Flow Frame.stream built recvd flight [] live) (hlive : live) :
    (flight = [] ∧ built = recvd) ∨
      ∃ f rest rest', built = recvd ++ f :: rest ∧ Frame.recv flight = .ok (f, rest') ∧
        flight.length = (Frame.stream.enc f).length + rest'.length := by
  obtain ⟨rest, hbuilt, -, hall⟩ := h.rest
  have hflight : flight = Frame.stream.wire rest := by
    rw [hall hlive, List.append_nil]
  rcases rest with _ | ⟨f, rest⟩
  · exact .inl ⟨hflight, by rw [hbuilt, List.append_nil]⟩
  · have hok : f.fits = true := h.ok f (hbuilt ▸ List.mem_append_right _ List.mem_cons_self)
    refine .inr ⟨f, rest, Frame.stream.wire rest, hbuilt, ?_, ?_⟩
    · rw [hflight]
      exact Frame.stream.recv_enc f _ hok
    · rw [hflight, Delimited.wire_cons, List.length_append]

/-- The connection was offered, and the ends and the stream go on. -/
structure Going (tr : RelayTrace) (s : Link Client Server) : Prop where
  offer : ∃ id, Offers id (rightHist Obs.framesBuilt tr)
  broken : s.broken = false
  left : s.left.pc.isDone = false
  right : s.right.isDone = false

section Going

variable {tr : RelayTrace} {s : Link Client Server}

/-- The server has sent, or is about to send, what it offered. -/
theorem Going.server_cases (hi : RelayInv tr s) (hg : Going tr s) :
    rightHist Obs.framesRecvd tr ≠ [] ∧
      ((∃ offer rest, s.right = .offer offer rest) ∨ (∃ id, s.right = .offered (.ok id)) ∨
        ∃ fw, s.right = .forward fw) := by
  obtain ⟨id, hid⟩ := hg.offer
  have hstage := hi.server.stage
  have hright := hg.right
  cases hs : s.right with
  | recv =>
    rw [hs] at hstage
    exact absurd hstage.1 hid.ne_nil
  | connect dst port =>
    rw [hs] at hstage
    exact absurd hstage.1 hid.ne_nil
  | offer offer rest =>
    rw [hs] at hstage
    exact ⟨hstage.2, .inl ⟨offer, rest, rfl⟩⟩
  | offered offer =>
    rw [hs] at hstage
    obtain ⟨⟨o, hbuilt, ho⟩, hne⟩ := hstage
    rcases offer with e | id'
    · exact (hid.ne_error hbuilt ho).elim
    · exact ⟨hne, .inr (.inl ⟨id', rfl⟩)⟩
  | forward fw =>
    rw [hs] at hstage
    exact ⟨hstage.2, .inr (.inr ⟨fw, rfl⟩)⟩
  | done exit =>
    rw [hs] at hright
    cases hright

/-- The client has asked, and it is not refused. -/
theorem Going.client_cases {front : FrontEnd} {dst : String} {port : UInt16} (hi : RelayInv tr s)
    (ho : Opening front dst port tr s) (hg : Going tr s) :
    (∃ rest, s.left.pc = .send rest) ∨ s.left.pc = .recv ∨ (∃ id, s.left.pc = .reply id) ∨
      ∃ fw, s.left.pc = .forward fw := by
  have hstage := hi.client.stage
  have htold := ho.told
  have hleft := hg.left
  cases hs : s.left.pc with
  | start =>
    -- the server received something
    rw [hs] at hstage
    obtain ⟨hne, -⟩ := hg.server_cases hi
    have hrecvd : rightHist Obs.framesRecvd tr <+: leftHist Obs.framesBuilt tr :=
      hi.flows.toRight.recvd_isPrefix
    rw [hstage.1] at hrecvd
    exact absurd (List.prefix_nil.mp hrecvd) hne
  | send rest => exact .inl ⟨rest, rfl⟩
  | recv => exact .inr (.inl rfl)
  | reply id => exact .inr (.inr (.inl ⟨id, rfl⟩))
  | refuse err =>
    rw [hs] at htold
    obtain ⟨f, hrecvd, hf⟩ := htold _ rfl
    obtain ⟨id, hid⟩ := hg.offer
    obtain ⟨more, hmore⟩ := hi.flows.toLeft.recvd_isPrefix
    have hbuilt : rightHist Obs.framesBuilt tr = f :: more := by
      rw [show rightHist Obs.framesBuilt tr = leftHist Obs.framesRecvd tr ++ more from hmore.symm,
        hrecvd]
      rfl
    exact (hid.ne_error hbuilt hf).elim
  | forward fw => exact .inr (.inr (.inr ⟨fw, rfl⟩))
  | done exit =>
    rw [hs] at hleft
    cases hleft

/-- What is under way to a client that forwards is data of its connection. -/
theorem RelayInv.data_toLeft (hi : RelayInv tr s) {fw : ForwardLoop} {f : Frame}
    {rest : List Frame} (hfw : s.left.pc = .forward fw)
    (hbuilt : rightHist Obs.framesBuilt tr = leftHist Obs.framesRecvd tr ++ f :: rest) :
    ForwardLoop.IsData fw.offerId f := by
  have hstage := hi.client.stage
  rw [hfw] at hstage
  have hscript := hi.server.script
  rw [hbuilt] at hscript
  obtain ⟨id, hid, hdata⟩ := hscript.of_ne_nil hstage.2.ne_nil
  obtain rfl : id = fw.offerId := hid.unique (hstage.2.append _)
  exact hdata

/-- What is under way to a server that forwards is data of its connection. -/
theorem RelayInv.data_toRight (hi : RelayInv tr s) {fw : ForwardLoop} {f : Frame}
    {rest : List Frame} (hfw : s.right = .forward fw)
    (hbuilt : leftHist Obs.framesBuilt tr = rightHist Obs.framesRecvd tr ++ f :: rest) :
    ForwardLoop.IsData fw.offerId f := by
  have hstage := hi.server.stage
  rw [hfw] at hstage
  have hscript := hi.client.script
  rw [hbuilt] at hscript
  obtain ⟨id, hid, hdata⟩ := hscript.of_ne_nil hstage.2
  obtain ⟨more, hmore⟩ := hi.flows.toLeft.recvd_isPrefix
  have hid' : Offers id (leftHist Obs.framesRecvd tr ++ more) := hid.append more
  rw [show leftHist Obs.framesRecvd tr ++ more = rightHist Obs.framesBuilt tr from hmore] at hid'
  obtain rfl : id = fw.offerId := hid'.unique hstage.1
  exact hdata

/-- A client that has not started to forward, or has something to send or write, can go on. -/
theorem Going.canAdvance_client {front : FrontEnd} {dst : String} {port : UInt16}
    (hi : RelayInv tr s) (ho : Opening front dst port tr s) (hg : Going tr s) :
    CanAdvance s ∨ s.left.pc = .recv ∨ ∃ fw, s.left.pc = .forward fw ∧ fw.Idle := by
  rcases hg.client_cases hi ho with ⟨rest, hpc⟩ | hpc | ⟨id, hpc⟩ | ⟨fw, hpc⟩
  · refine .inl (canAdvance_left (a := .send rest.length) (c := s.left.goto .recv)
      (e := ⟨s.toLeft, rest, .tau⟩) hg.broken hg.right ?_ rfl rfl ?_)
    · simp only [Client.step, hpc, writeAll_length, List.take_length]
    · rw [hpc]
      simp only [Client.goto, ClientPc.rank]
      omega
  · exact .inr (.inl hpc)
  · obtain ⟨reply, hreply, -⟩ := s.left.front.reply_ok s.left.dst s.left.port id
    refine .inl (canAdvance_left (a := .reply true)
      (c := s.left.goto (.forward (.start id false))) (e := ⟨s.toLeft, [], .told reply true⟩)
      hg.broken hg.right ?_ rfl rfl ?_)
    · simp only [Client.step, hpc, Client.tell, hreply, Option.map_some, if_true]
    · rw [hpc]
      simp only [Client.goto, ClientPc.rank, ForwardLoop.start, ForwardLoop.rank, UpFut.rank,
        DownFut.rank, List.length_nil]
      omega
  · by_cases hidle : fw.Idle
    · exact .inr (.inr ⟨fw, hpc, hidle⟩)
    · exact .inl (canAdvance_leftLoop hg.broken hg.right hpc (fw.exists_work _ _ hidle))

/-- A server that has not started to forward, or has something to send or write, can go on. -/
theorem Going.canAdvance_server (hi : RelayInv tr s) (hg : Going tr s) :
    CanAdvance s ∨ ∃ fw, s.right = .forward fw ∧ fw.Idle := by
  rcases (hg.server_cases hi).2 with ⟨offer, rest, hs⟩ | ⟨id, hs⟩ | ⟨fw, hs⟩
  · refine .inl (canAdvance_right (a := .send rest.length) (r := .offered offer)
      (e := ⟨s.toRight, rest, .tau⟩) hg.broken hg.left ?_ rfl rfl ?_)
    · simp only [Server.step, hs, writeAll_length, List.take_length]
    · rw [hs]
      simp only [Server.rank]
      omega
  · refine .inl (canAdvance_right (a := .offered) (r := .forward (.start id true))
      (e := ⟨s.toRight, [], .tau⟩) hg.broken hg.left ?_ rfl rfl ?_)
    · simp only [Server.step, hs]
    · rw [hs]
      simp only [Server.rank, ForwardLoop.start, ForwardLoop.rank, UpFut.rank, DownFut.rank,
        List.length_nil]
      omega
  · by_cases hidle : fw.Idle
    · exact .inr ⟨fw, hs, hidle⟩
    · exact .inl (canAdvance_rightLoop hg.broken hg.left hs (fw.exists_work _ _ hidle))

/-- While the server has nothing to send, a client that waits for the offer has it at hand. -/
theorem Going.canAdvance_recv (hi : RelayInv tr s) (hg : Going tr s) {fw : ForwardLoop}
    (hpc : s.left.pc = .recv) (hs : s.right = .forward fw) (hidle : fw.Idle) : CanAdvance s := by
  have hstage := hi.client.stage
  rw [hpc] at hstage
  obtain ⟨id, hid⟩ := hg.offer
  have hflow := hi.flows.toLeft
  have hpending : serverEnd.pending s.right = [] := by
    rw [hs]
    exact hidle.pending_eq
  rw [hpending] at hflow
  rcases hflow.exists_recv ⟨hg.broken, hg.right⟩ with
    ⟨-, hbuilt⟩ | ⟨f, rest, rest', hbuilt, hrecv, hlen⟩
  · exact absurd (hbuilt.trans hstage.2) hid.ne_nil
  · have hbuilt' : rightHist Obs.framesBuilt tr = f :: rest := by
      rw [show rightHist Obs.framesBuilt tr = leftHist Obs.framesRecvd tr ++ f :: rest from hbuilt,
        hstage.2]
      rfl
    obtain ⟨o, rest'', hbuilt'', ho⟩ := hid
    obtain ⟨rfl, -⟩ := List.cons.inj (hbuilt''.symm.trans hbuilt')
    refine canAdvance_left (a := .recv) (c := s.left.goto (.reply id))
      (e := ⟨rest', [], .recvd o⟩) hg.broken hg.right ?_ rfl rfl ?_
    · simp only [Client.step, hpc, hrecv, Client.answer, ho]
    · rw [hpc]
      simp only [Client.goto, ClientPc.rank, List.length_nil]
      omega

/-- Two idle loops: each takes what is under way to it. -/
theorem Going.canAdvance_forward (hi : RelayInv tr s) (hg : Going tr s) {fw fw' : ForwardLoop}
    (hpc : s.left.pc = .forward fw) (hidle : fw.Idle) (hs : s.right = .forward fw')
    (hidle' : fw'.Idle) : CanAdvance s ∨ (s.toRight = [] ∧ s.toLeft = []) := by
  have htoLeft := hi.flows.toLeft
  have htoRight := hi.flows.toRight
  have hpending : clientEnd.pending s.left = [] := by
    show s.left.pc.pending = []
    rw [hpc]
    exact hidle.pending_eq
  have hpending' : serverEnd.pending s.right = [] := by
    rw [hs]
    exact hidle'.pending_eq
  rw [hpending] at htoRight
  rw [hpending'] at htoLeft
  rcases htoLeft.exists_recv ⟨hg.broken, hg.right⟩ with
    ⟨hleft, -⟩ | ⟨f, rest, rest', hbuilt, hrecv, hlen⟩
  · rcases htoRight.exists_recv ⟨hg.broken, hg.left⟩ with
      ⟨hright, -⟩ | ⟨f, rest, rest', hbuilt, hrecv, hlen⟩
    · exact .inr ⟨hright, hleft⟩
    · exact .inl (canAdvance_rightLoop hg.broken hg.left hs
        (fw'.exists_recv _ hidle' hrecv hlen (hi.data_toRight hs hbuilt)))
  · exact .inl (canAdvance_leftLoop hg.broken hg.right hpc
      (fw.exists_recv _ hidle hrecv hlen (hi.data_toLeft hpc hbuilt)))

/-- **The relay can go on** until it has caught up. -/
theorem Going.canAdvance {front : FrontEnd} {dst : String} {port : UInt16} (hi : RelayInv tr s)
    (ho : Opening front dst port tr s) (hg : Going tr s) : CanAdvance s ∨ Caught s := by
  rcases hg.canAdvance_server hi with h | ⟨fw', hs, hidle'⟩
  · exact .inl h
  · rcases hg.canAdvance_client hi ho with h | hpc | ⟨fw, hpc, hidle⟩
    · exact .inl h
    · exact .inl (hg.canAdvance_recv hi hpc hs hidle')
    · rcases hg.canAdvance_forward hi hpc hidle hs hidle' with h | ⟨hright, hleft⟩
      · exact .inl h
      · exact .inr ⟨fw, fw', hpc, hs, hidle, hidle', hright, hleft⟩

theorem Going.append {tr : RelayTrace} {s t : Link Client Server}
    {a : LinkAct ClientAct ServerAct} {o : LinkOut Obs Obs} (hg : Going tr s)
    (h : Advance s t o) : Going (tr ++ [⟨s, a, o, t⟩]) t where
  offer := by
    obtain ⟨id, hid⟩ := hg.offer
    rw [Link.rightHist_append]
    exact ⟨id, hid.append _⟩
  broken := h.broken
  left := h.left
  right := h.right

end Going

/-! ### Catching up -/

/-- When nothing is under way and nothing is left to be sent, everything was received. -/
theorem Flow.built_eq {built recvd : List Frame} {live : Prop}
    (h : Flow Frame.stream built recvd [] [] live) (hlive : live) : built = recvd := by
  rcases h.exists_recv hlive with ⟨-, hbuilt⟩ | ⟨f, rest, rest', -, hrecv, -⟩
  · exact hbuilt
  · cases hrecv

/-- When the relay has caught up, what was read on either side was written on the other one. -/
theorem RelayInv.written_eq {tr : RelayTrace} {s : Link Client Server} (hi : RelayInv tr s)
    (hbroken : s.broken = false) (h : Caught s) :
    rightHist Obs.bytesWritten tr = leftHist Obs.bytesRead tr ∧
      leftHist Obs.bytesWritten tr = rightHist Obs.bytesRead tr := by
  obtain ⟨fw, fw', hpc, hs, hidle, hidle', hright, hleft⟩ := h
  have htoLeft := hi.flows.toLeft
  have htoRight := hi.flows.toRight
  have hclient := hi.clientPassed
  have hserver := hi.serverPassed
  have hpending : clientEnd.pending s.left = [] := by
    show s.left.pc.pending = []
    rw [hpc]
    exact hidle.pending_eq
  have hpending' : serverEnd.pending s.right = [] := by
    rw [hs]
    exact hidle'.pending_eq
  rw [hpending, hright] at htoRight
  rw [hpending', hleft] at htoLeft
  have hdone : s.left.pc.isDone = false := by
    rw [hpc]
    rfl
  have hdone' : s.right.isDone = false := by
    rw [hs]
    rfl
  have hbuilt : leftHist Obs.framesBuilt tr = rightHist Obs.framesRecvd tr :=
    htoRight.built_eq ⟨hbroken, hdone⟩
  have hbuilt' : rightHist Obs.framesBuilt tr = leftHist Obs.framesRecvd tr :=
    htoLeft.built_eq ⟨hbroken, hdone'⟩
  have hwritten := hserver.writtenEq hdone'
  have hwritten' := hclient.writtenEq hdone
  rw [hs] at hwritten
  rw [hpc] at hwritten'
  rw [show (Server.forward fw').toWrite = [] from hidle'.toWrite_eq, List.append_nil] at hwritten
  rw [show (ClientPc.forward fw).toWrite = [] from hidle.toWrite_eq, List.append_nil] at hwritten'
  constructor
  · rw [hwritten, hclient.readEq, hbuilt]
  · rw [hwritten', hserver.readEq, hbuilt']

/-- **The relay catches up.** From every state that it can be in once the server has offered the
connection, while the stream works and neither end has stopped, it can go on, without reading
anything more, to a state in which both ends forward, nothing is under way, and everything read
from either TCP connection has been written to the other one. -/
theorem catch_up {front : FrontEnd} {dst : String} {port : UInt16} {tr : RelayTrace}
    {s : Link Client Server} (h : relay.Run (.start (.new front dst port) .recv) tr s)
    (hg : Going tr s) :
    ∃ (tr' : RelayTrace) (t : Link Client Server), relay.Run s tr' t ∧ Caught t ∧
      leftHist Obs.bytesRead tr' = [] ∧ rightHist Obs.bytesRead tr' = [] ∧
      rightHist Obs.bytesWritten (tr ++ tr') = leftHist Obs.bytesRead tr ∧
      leftHist Obs.bytesWritten (tr ++ tr') = rightHist Obs.bytesRead tr := by
  obtain ⟨tr', t, hrun, hsteps, hgoing, hcaught⟩ := Machine.Run.exists_goal
    (I := Going) (Q := fun e => Advance e.pre e.post e.out) (G := Caught) Link.rank
    (fun tr s hrun hg hnot => by
      rcases hg.canAdvance (relayInv_of_run hrun) (opening_of_run hrun) with h | h
      · obtain ⟨a, t, o, hstep, hadv⟩ := h
        exact ⟨a, t, o, hstep, hadv, hg.append hadv, hadv.rank⟩
      · exact absurd h hnot)
    h hg
  have hread : leftHist Obs.bytesRead tr' = [] :=
    List.flatMap_eq_nil_iff.mpr fun e he => (hsteps e he).leftRead
  have hread' : rightHist Obs.bytesRead tr' = [] :=
    List.flatMap_eq_nil_iff.mpr fun e he => (hsteps e he).rightRead
  obtain ⟨hright, hleft⟩ := (relayInv_of_run (h.append hrun)).written_eq hgoing.broken hcaught
  refine ⟨tr', t, hrun, hcaught, hread, hread', ?_, ?_⟩
  · rw [hright, Link.leftHist_append, hread, List.append_nil]
  · rw [hleft, Link.rightHist_append, hread', List.append_nil]

/-- The server is in the middle of sending its second frame, and the client does not even have the
offer. -/
theorem catch_up_lagging :
    ∃ (tr tr' : RelayTrace) (t : Link Client Server),
      relay.Run (.start (.new (.socks .v5) "" 80) .recv) (tr ++ tr') t ∧
      rightHist Obs.bytesRead tr = [1, 2] ∧ leftHist Obs.bytesWritten tr = [] ∧
      leftHist Obs.bytesWritten (tr ++ tr') = [1, 2] := by
  obtain ⟨tr, s, hrun, -, hread, hwritten, hbroken, hleft, hright⟩ :=
    Machine.exists_run_of_exec relay (.start (.new (.socks .v5) "" 80) .recv)
      [.left (.request ⟨1, by decide⟩), .left (.send 100), .right .recv,
        .right (.connect (.ok 7) ⟨1, by decide⟩), .right (.send 100), .right .offered,
        .right (.forward (.upCheck false)),
        .right (.forward (.read (.ok ⟨[1, 2], by decide⟩) ⟨1, by decide⟩)),
        .right (.forward (.send 10))]
      (P := fun tr s => rightHist Obs.bytesRead tr = [1, 2] ∧ leftHist Obs.bytesWritten tr = [] ∧
        s.broken = false ∧ s.left.pc.isDone = false ∧ s.right.isDone = false) (by decide)
  have hi := relayInv_of_run hrun
  have hoffer : ∃ id, Offers id (rightHist Obs.framesBuilt tr) := by
    refine hi.server.script.offers_of_payload (fun _ => payload_of_isOffer) ?_
    rw [← hi.serverPassed.readEq, hread]
    simp
  obtain ⟨tr', t, hrun', -, -, -, -, hcaught⟩ :=
    catch_up hrun ⟨hoffer, hbroken, hleft, hright⟩
  exact ⟨tr, tr', t, hrun.append hrun', hread, hwritten, hcaught.trans hread⟩

end ObfsWs
