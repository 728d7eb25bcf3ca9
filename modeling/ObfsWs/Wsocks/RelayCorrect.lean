import ObfsWs.Wsocks.Relay

/-!
# The relay is correct

Both ends keep their books, so they are endpoints of a link, and each receives the first of the
frames that the other one built. What they build follows the handshake: a request and then data of
the connection that was offered, an offer and then data of that connection. So each receives what
it expects, and passes it on.

## The invariant

It has three layers. `Link.flow_of_run` says that each end receives an initial part of the frames
that the other one built; it knows nothing of the protocol. `Talk` says for each end what it has
built and received when it stands where it stands: before the offer nothing but the handshake,
afterwards data frames of the offered id and nothing else. Put together, a received frame is one
that the other end built in a known position. `Passed` then counts bytes: what a loop has read is
the payload of the data frames it has built, and what it has written, together with what it still
has to write, is the payload of those it has received.

No layer repeats the case analysis of another one. When the protocol changes, `Talk` changes; when
the format changes, only `Frame.stream` does.

## Main definitions

* `clientEnd`, `serverEnd`, `relay` — both ends on a stream that may break
* `Client.Talk`, `Server.Talk` — what an end has built and received when it stands where it stands

## Main results

* `relay_correct` — nobody is sent what it does not expect, no data frame is rejected, and what is
  written to one TCP connection is what was read from the other one

## What is left open

That anything arrives. An end may stop at any moment, the stream may break, and the connection may
read nothing. `CatchUp` says what can be reached as long as nothing of this happens. The bytes of
an answer to the application are not bytes of the connection and are the subject of `Told`.
-/

namespace ObfsWs

/-! ### The ends keep their books

What has to be said of an end to make it an `Endpoint`: what it has still to write, when it has
stopped, and what it built and received in a step. The proofs go through the rules of `Relay` and
`Forward` and use nothing of the other end. -/

namespace ClientPc

/-- What is still to be put on the stream. -/
def pending : ClientPc → List UInt8
  | .send rest => rest
  | .forward fw => fw.pending
  | _ => []

/-- What is still to be written to the TCP connection. -/
def toWrite : ClientPc → List UInt8
  | .forward fw => fw.toWrite
  | _ => []

def isDone : ClientPc → Bool
  | .done _ => true
  | _ => false

end ClientPc

theorem payload_of_isConnect {f : Frame} (h : IsConnect f) : f.payload = [] := by
  obtain ⟨dst, port, hf⟩ := h
  rw [Frame.payload, hf]

theorem payload_of_tcpOffer {f : Frame} {id : Offer} (h : f.protocol = .tcpOffer id) :
    f.payload = [] := by
  rw [Frame.payload, h]

/-- The client goes on only after an offer. -/
theorem Client.answer_cases (c : Client) (res : Protocol) :
    (∃ id, res = .tcpOffer (.ok id) ∧ c.answer res = .reply id) ∨
    (∃ e, res = .tcpOffer (.error e) ∧ c.answer res = .refuse e) ∨
    (∃ e, res = .tcpOffer (.error e) ∧ c.answer res = .done (.panic .todoOffer)) ∨
    ((∀ id, res ≠ .tcpOffer id) ∧ ∃ x, c.answer res = .done x) := by
  rcases res with ⟨dst, port⟩ | (e | id) | ⟨id, payload⟩
  · exact .inr (.inr (.inr ⟨nofun, _, rfl⟩))
  · cases hf : c.front with
    | socks version =>
      refine .inr (.inl ⟨e, rfl, ?_⟩)
      rw [answer, hf]
    | http =>
      refine .inr (.inr (.inl ⟨e, rfl, ?_⟩))
      rw [answer, hf]
  · exact .inl ⟨id, rfl, rfl⟩
  · exact .inr (.inr (.inr ⟨nofun, _, rfl⟩))

theorem Client.Rule.books {c : Client} {broken : Bool} {input : List UInt8} {pc : ClientPc}
    {e : Effect Obs} (h : Client.Rule c broken input pc e) :
    Books input c.pc.pending c.pc.toWrite e pc.pending pc.toWrite pc.isDone := by
  cases h with
  | request hc hf hfits =>
    rw [hc]
    exact .built hfits (payload_of_isConnect hf)
  | @send rest n hc =>
    have hw : rest = rest.take n ++ (writeAll ClientPc.send .recv rest n).pending :=
      take_writeAll (f := ClientPc.pending) (fun _ => rfl) rfl rest n
    have hto : (writeAll ClientPc.send .recv rest n).toWrite = [] ∧
        (writeAll ClientPc.send .recv rest n).isDone = false :=
      writeAll_induct (P := fun pc => pc.toWrite = [] ∧ pc.isDone = false)
        ClientPc.send .recv rest n (fun _ => ⟨rfl, rfl⟩) ⟨rfl, rfl⟩
    rw [hc, hto.1, hto.2]
    exact .tau hw rfl
  | @recv f rest hc hrecv =>
    rw [hc]
    rcases c.answer_cases f.protocol with ⟨id, hf, ha⟩ | ⟨oe, hf, ha⟩ | ⟨oe, hf, ha⟩ | ⟨-, x, ha⟩
    · rw [ha]
      have hb : Books input [] [] ⟨rest, [], .recvd f⟩ [] f.payload false := .recvd hrecv
      rwa [payload_of_tcpOffer hf] at hb
    · rw [ha]
      have hb : Books input [] [] ⟨rest, [], .recvd f⟩ [] f.payload false := .recvd hrecv
      rwa [payload_of_tcpOffer hf] at hb
    · rw [ha]
      exact .reject hrecv
    · rw [ha]
      exact .reject hrecv
  | reply hc _ =>
    rw [hc]
    exact .answered fun _ => ⟨rfl, rfl⟩
  | replyStop _ _ _ => exact .answered fun hd => by cases hd
  | stop _ _ => exact .stop
  | forward hc hr =>
    rw [hc]
    exact hr.books
  | forwardStop hc hr =>
    rw [hc]
    exact hr.books_stop [] []

namespace Server

/-- What is still to be put on the stream. -/
def pending : Server → List UInt8
  | .offer _ rest => rest
  | .forward fw => fw.pending
  | _ => []

/-- What is still to be written to the TCP connection. -/
def toWrite : Server → List UInt8
  | .forward fw => fw.toWrite
  | _ => []

def isDone : Server → Bool
  | .done _ => true
  | _ => false

theorem Rule.books {s s' : Server} {broken : Bool} {input : List UInt8} {e : Effect Obs}
    (h : Rule s broken input s' e) :
    Books input s.pending s.toWrite e s'.pending s'.toWrite s'.isDone := by
  cases h with
  | @recv f rest hs hrecv =>
    subst hs
    rcases hf : f.protocol with ⟨dst, port⟩ | id | ⟨id, payload⟩
    · have hb : Books input [] [] ⟨rest, [], .recvd f⟩ [] f.payload false := .recvd hrecv
      rwa [payload_of_isConnect ⟨dst, port, hf⟩] at hb
    · exact .reject hrecv
    · exact .reject hrecv
  | connect hs hf hfits =>
    subst hs
    exact .built hfits (payload_of_tcpOffer hf)
  | @send id rest n hs =>
    have hw : rest = rest.take n ++ (writeAll (Server.offer id) (.offered id) rest n).pending :=
      take_writeAll (f := pending) (fun _ => rfl) rfl rest n
    have hto : (writeAll (Server.offer id) (.offered id) rest n).toWrite = [] ∧
        (writeAll (Server.offer id) (.offered id) rest n).isDone = false :=
      writeAll_induct (P := fun s => s.toWrite = [] ∧ s.isDone = false)
        (Server.offer id) (.offered id) rest n (fun _ => ⟨rfl, rfl⟩) ⟨rfl, rfl⟩
    subst hs
    rw [hto.1, hto.2]
    exact .tau hw rfl
  | offered hs =>
    subst hs
    exact .tau rfl rfl
  | stop _ _ => exact .stop
  | forward hs hr =>
    subst hs
    exact hr.books
  | forwardStop hs hr =>
    subst hs
    exact hr.books_stop [] []

end Server

/-- The client's end of the stream. -/
def clientEnd : Endpoint Frame.stream Client ClientAct Obs where
  step := Client.step
  pending c := c.pc.pending
  done c := c.pc.isDone
  built := Obs.framesBuilt
  recvd := Obs.framesRecvd
  step_of_done c broken input a h := by
    obtain ⟨front, dst, port, pc⟩ := c
    cases pc with
    | done exit => cases a <;> rfl
    | _ => cases h
  ok_of_built _ _ _ _ _ _ h := (Client.rule_of_step h).2.books.ok
  writes _ _ _ _ _ _ h := (Client.rule_of_step h).2.books.writes
  stops _ _ _ _ _ _ h hd :=
    let hs := (Client.rule_of_step h).2.books.stops hd
    ⟨hs.1, hs.2.1⟩
  reads _ _ _ _ _ _ h := (Client.rule_of_step h).2.books.reads

/-- The server's end of the stream. -/
def serverEnd : Endpoint Frame.stream Server ServerAct Obs where
  step := Server.step
  pending := Server.pending
  done := Server.isDone
  built := Obs.framesBuilt
  recvd := Obs.framesRecvd
  step_of_done s broken input a h := by
    cases s with
    | done exit => cases a <;> rfl
    | _ => cases h
  ok_of_built _ _ _ _ _ _ h := (Server.rule_of_step h).books.ok
  writes _ _ _ _ _ _ h := (Server.rule_of_step h).books.writes
  stops _ _ _ _ _ _ h hd :=
    let hs := (Server.rule_of_step h).books.stops hd
    ⟨hs.1, hs.2.1⟩
  reads _ _ _ _ _ _ h := (Server.rule_of_step h).books.reads

/-- Both ends on a stream that may break. -/
def relay : Machine (Link Client Server) (LinkAct ClientAct ServerAct) (LinkOut Obs Obs) :=
  Link.machine clientEnd serverEnd

/-- A recorded run of the relay. -/
abbrev RelayTrace :=
  List (Event (Link Client Server) (LinkAct ClientAct ServerAct) (LinkOut Obs Obs))

/-! ### The handshake

An end builds its handshake first and data afterwards, and all of its data is of the connection
that was offered. `Script` is a list of frames of this shape; it is closed under what a step adds.
What an end may expect is a script as well, and so is every initial part of one. -/

/-- The first of the frames offers the connection `id`. -/
def Offers (id : BitVec 128) (fs : List Frame) : Prop :=
  ∃ o rest, fs = o :: rest ∧ o.protocol = .tcpOffer (.ok id)

theorem Offers.append {id : BitVec 128} {fs : List Frame} (h : Offers id fs)
    (new : List Frame) : Offers id (fs ++ new) := by
  obtain ⟨o, rest, rfl, ho⟩ := h
  exact ⟨o, rest ++ new, rfl, ho⟩

theorem Offers.ne_nil {id : BitVec 128} {fs : List Frame} (h : Offers id fs) : fs ≠ [] := by
  obtain ⟨o, rest, rfl, -⟩ := h
  simp

theorem Offers.unique {id id' : BitVec 128} {fs : List Frame} (h : Offers id fs)
    (h' : Offers id' fs) : id = id' := by
  obtain ⟨o, rest, rfl, ho⟩ := h
  obtain ⟨o', rest', heq, ho'⟩ := h'
  obtain ⟨rfl, -⟩ := List.cons.inj heq
  rw [ho] at ho'
  exact Except.ok.inj (Protocol.tcpOffer.inj ho')

/-- `Script P offers built`: the first frame satisfies `P`, and the others carry data of the
connection that `offers` offers. -/
def Script (P : Frame → Prop) (offers built : List Frame) : Prop :=
  built = [] ∨ ∃ f ds, built = f :: ds ∧ P f ∧
    ∀ d ∈ ds, ∃ id, Offers id offers ∧ ForwardLoop.IsData id d

namespace Script

variable {P : Frame → Prop} {offers built : List Frame} {f : Frame} {id : BitVec 128}

theorem first (hf : P f) : Script P offers [f] :=
  .inr ⟨f, [], rfl, hf, fun _ hd => absurd hd List.not_mem_nil⟩

theorem append (h : Script P offers built) (new : List Frame) : Script P (offers ++ new) built := by
  rcases h with rfl | ⟨f, ds, rfl, hf, hds⟩
  · exact .inl rfl
  · refine .inr ⟨f, ds, rfl, hf, fun d hd => ?_⟩
    obtain ⟨id, hid, hdata⟩ := hds d hd
    exact ⟨id, hid.append new, hdata⟩

theorem data (h : Script P offers built) (hne : built ≠ []) (hid : Offers id offers)
    (hf : ForwardLoop.IsData id f) : Script P offers (built ++ [f]) := by
  rcases h with rfl | ⟨g, ds, rfl, hg, hds⟩
  · exact absurd rfl hne
  · refine .inr ⟨g, ds ++ [f], rfl, hg, fun d hd => ?_⟩
    rcases List.mem_append.mp hd with hd | hd
    · exact hds d hd
    · rw [List.mem_singleton.mp hd]
      exact ⟨id, hid, hf⟩

/-- The first frame that is received. -/
theorem of_nil {rest : List Frame} (h : Script P offers ([] ++ f :: rest)) : P f := by
  rcases h with h | ⟨g, ds, h, hg, -⟩
  · cases h
  · obtain ⟨rfl, -⟩ := List.cons.inj h
    exact hg

/-- Any other frame that is received. -/
theorem of_ne_nil {recvd rest : List Frame} (h : Script P offers (recvd ++ f :: rest))
    (hne : recvd ≠ []) : ∃ id, Offers id offers ∧ ForwardLoop.IsData id f := by
  obtain ⟨g, gs, rfl⟩ := List.exists_cons_of_ne_nil hne
  rcases h with h | ⟨g', ds, h, -, hds⟩
  · cases h
  · obtain ⟨rfl, rfl⟩ := List.cons.inj h
    exact hds f (List.mem_append_right _ List.mem_cons_self)

end Script

/-- What a step of the loop adds to what its end builds. -/
theorem ForwardLoop.Rule.script {fw fw' : ForwardLoop} {broken : Bool} {input : List UInt8}
    {e : Effect Obs} {P : Frame → Prop} {offers built : List Frame}
    (h : ForwardLoop.Rule fw broken input (.ok fw') e) (hs : Script P offers built)
    (hne : built ≠ []) (hid : Offers fw.offerId offers) :
    Script P offers (built ++ e.obs.framesBuilt) ∧ fw'.offerId = fw.offerId := by
  have hnone : Script P offers (built ++ []) := by
    rw [List.append_nil]
    exact hs
  cases h with
  | tau hid' _ _ => exact ⟨hnone, hid'⟩
  | read hf _ hid' _ _ _ => exact ⟨hs.data hne hid ⟨_, hf⟩, hid'⟩
  | send hid' _ _ => exact ⟨hnone, hid'⟩
  | recv _ _ hid' _ _ _ => exact ⟨hnone, hid'⟩
  | write hid' _ _ => exact ⟨hnone, hid'⟩

theorem ForwardLoop.Rule.script_stop {fw : ForwardLoop} {exit : Exit} {broken : Bool}
    {input : List UInt8} {e : Effect Obs}
    (h : ForwardLoop.Rule fw broken input (.error exit) e) : e.obs.framesBuilt = [] := by
  cases h with
  | fail _ => rfl
  | reject _ _ => rfl

/-- What a client has built and received by the time it stands where it stands. -/
def ClientPc.Stage (built recvd : List Frame) : ClientPc → Prop
  | .start => built = [] ∧ recvd = []
  | .send _ => built ≠ [] ∧ recvd = []
  | .recv => built ≠ [] ∧ recvd = []
  | .reply id => built ≠ [] ∧ Offers id recvd
  | .refuse _ => True
  | .forward fw => built ≠ [] ∧ Offers fw.offerId recvd
  | .done _ => True

/-- The client's part of the talk. -/
structure Client.Talk (built recvd : List Frame) (pc : ClientPc) : Prop where
  script : Script IsConnect recvd built
  stage : pc.Stage built recvd

theorem Client.Talk.step {c : Client} {broken : Bool} {input : List UInt8} {pc : ClientPc}
    {e : Effect Obs} {built recvd : List Frame} (h : Client.Talk built recvd c.pc)
    (hr : Client.Rule c broken input pc e) :
    Client.Talk (built ++ e.obs.framesBuilt) (recvd ++ e.obs.framesRecvd) pc := by
  obtain ⟨hscript, hstage⟩ := h
  have hnil (fs : List Frame) : fs ++ [] = fs := List.append_nil fs
  cases hr with
  | @request f hc hf hfits =>
    rw [hc] at hstage
    obtain ⟨rfl, rfl⟩ := hstage
    exact ⟨.first hf, by simp [Obs.framesBuilt], rfl⟩
  | @send rest n hc =>
    rw [hc] at hstage
    show Talk (built ++ []) (recvd ++ []) _
    rw [hnil, hnil]
    have hstage' : (writeAll ClientPc.send .recv rest n).Stage built recvd :=
      writeAll_induct ClientPc.send .recv rest n (fun _ => hstage) hstage
    exact ⟨hscript, hstage'⟩
  | @recv f rest hc hrecv =>
    rw [hc] at hstage
    obtain ⟨hne, rfl⟩ := hstage
    show Talk (built ++ []) [f] _
    rw [hnil]
    refine ⟨hscript.append [f], ?_⟩
    rcases c.answer_cases f.protocol with ⟨id, hf, ha⟩ | ⟨oe, -, ha⟩ | ⟨oe, -, ha⟩ | ⟨-, x, ha⟩
    · rw [ha]
      exact ⟨hne, f, [], rfl, hf⟩
    · rw [ha]
      trivial
    · rw [ha]
      trivial
    · rw [ha]
      trivial
  | reply hc _ =>
    rw [hc] at hstage
    show Talk (built ++ []) (recvd ++ []) _
    rw [hnil, hnil]
    exact ⟨hscript, hstage⟩
  | replyStop _ _ _ | stop _ _ =>
    show Talk (built ++ []) (recvd ++ []) _
    rw [hnil, hnil]
    exact ⟨hscript, trivial⟩
  | @forward fw fw' _ hc hfw =>
    rw [hc] at hstage
    obtain ⟨hne, hid⟩ := hstage
    obtain ⟨hs, hid'⟩ := hfw.script hscript hne hid
    refine ⟨hs.append _, List.append_ne_nil_of_left_ne_nil hne _, ?_⟩
    rw [hid']
    exact hid.append _
  | forwardStop hc hfw =>
    rw [hfw.script_stop, hnil]
    exact ⟨hscript.append _, trivial⟩

/-- The frame is an offer. -/
def IsOffer (f : Frame) : Prop := ∃ id, f.protocol = .tcpOffer id

/-- What a server has built and received by the time it stands where it stands. -/
def Server.Stage (built recvd : List Frame) : Server → Prop
  | .recv => built = [] ∧ recvd = []
  | .connect _ _ => built = [] ∧ recvd ≠ []
  | .offer id _ => (∃ o, built = [o] ∧ o.protocol = .tcpOffer id) ∧ recvd ≠ []
  | .offered id => (∃ o, built = [o] ∧ o.protocol = .tcpOffer id) ∧ recvd ≠ []
  | .forward fw => Offers fw.offerId built ∧ recvd ≠ []
  | .done _ => True

/-- The server's part of the talk: it offers what it offers itself. -/
structure Server.Talk (built recvd : List Frame) (s : Server) : Prop where
  script : Script IsOffer built built
  stage : s.Stage built recvd

theorem Server.Talk.step {s s' : Server} {broken : Bool} {input : List UInt8}
    {e : Effect Obs} {built recvd : List Frame} (h : Server.Talk built recvd s)
    (hr : Server.Rule s broken input s' e) :
    Server.Talk (built ++ e.obs.framesBuilt) (recvd ++ e.obs.framesRecvd) s' := by
  obtain ⟨hscript, hstage⟩ := h
  have hnil (fs : List Frame) : fs ++ [] = fs := List.append_nil fs
  cases hr with
  | @recv f rest hs hrecv =>
    subst hs
    obtain ⟨rfl, rfl⟩ := hstage
    refine ⟨hscript, ?_⟩
    rcases f.protocol with ⟨dst, port⟩ | id | ⟨id, payload⟩
    · exact ⟨rfl, by simp [Obs.framesRecvd]⟩
    · trivial
    · trivial
  | @connect dst port id f hs hf hfits =>
    subst hs
    obtain ⟨rfl, hne⟩ := hstage
    show Talk [f] (recvd ++ []) _
    rw [hnil]
    exact ⟨.first ⟨id, hf⟩, ⟨f, rfl, hf⟩, hne⟩
  | @send id rest n hs =>
    subst hs
    show Talk (built ++ []) (recvd ++ []) _
    rw [hnil, hnil]
    have hstage' : (writeAll (Server.offer id) (.offered id) rest n).Stage built recvd :=
      writeAll_induct (Server.offer id) (.offered id) rest n (fun _ => hstage) hstage
    exact ⟨hscript, hstage'⟩
  | offered hs =>
    subst hs
    obtain ⟨⟨o, rfl, ho⟩, hne⟩ := hstage
    show Talk ([o] ++ []) (recvd ++ []) _
    rw [hnil, hnil]
    exact ⟨hscript, ⟨o, [], rfl, ho⟩, hne⟩
  | stop _ _ =>
    show Talk (built ++ []) (recvd ++ []) _
    rw [hnil, hnil]
    exact ⟨hscript, trivial⟩
  | @forward fw fw' _ hs hfw =>
    subst hs
    obtain ⟨hid, hne⟩ := hstage
    obtain ⟨hs, hid'⟩ := hfw.script hscript hid.ne_nil hid
    refine ⟨?_, ?_, List.append_ne_nil_of_left_ne_nil hne _⟩
    · exact hs.append _
    · rw [hid']
      exact hid.append _
  | forwardStop hs hfw =>
    rw [hfw.script_stop, hnil]
    exact ⟨hscript, trivial⟩

/-! ### Bytes -/

/-- What an end read and wrote on its TCP connection, against the frames it built and received. -/
structure Passed (read written : List UInt8) (built recvd : List Frame) (toWrite : List UInt8)
    (done : Bool) : Prop where
  readEq : read = built.flatMap Frame.payload
  writtenEq : done = false → written ++ toWrite = recvd.flatMap Frame.payload
  isPrefix : written <+: recvd.flatMap Frame.payload

theorem Passed.step {input pending pending' read written toWrite toWrite' : List UInt8}
    {built recvd : List Frame} {done done' : Bool} {e : Effect Obs}
    (h : Passed read written built recvd toWrite done)
    (hb : Books input pending toWrite e pending' toWrite' done')
    (hdone : done' = false → done = false) :
    Passed (read ++ e.obs.bytesRead) (written ++ e.obs.bytesWritten)
      (built ++ e.obs.framesBuilt) (recvd ++ e.obs.framesRecvd) toWrite' done' := by
  have hwritten : done' = false → written ++ e.obs.bytesWritten ++ toWrite' =
      (recvd ++ e.obs.framesRecvd).flatMap Frame.payload := by
    intro hd
    rw [List.append_assoc, ← hb.bytesWritten hd, ← List.append_assoc, h.writtenEq (hdone hd),
      List.flatMap_append]
  refine ⟨?_, hwritten, ?_⟩
  · rw [h.readEq, hb.bytesRead, List.flatMap_append]
  · cases hd : done' with
    | false => exact ⟨toWrite', hwritten hd⟩
    | true =>
      rw [(hb.stops hd).2.2, List.append_nil, List.flatMap_append]
      exact h.isPrefix.trans (List.prefix_append _ _)

/-- What was received is an initial part of what was built, and so are the payloads. -/
theorem flatMap_isPrefix {recvd built : List Frame} (h : recvd <+: built) :
    recvd.flatMap Frame.payload <+: built.flatMap Frame.payload := by
  obtain ⟨rest, rfl⟩ := h
  rw [List.flatMap_append]
  exact List.prefix_append _ _

/-! ### Both ends

The invariant of the relay: both directions flow, both ends are where their frames say, and on
both sides the bytes add up. Everything that follows about runs is read off this structure. -/

open Link (leftHist rightHist)

/-- The invariant of the relay. -/
structure RelayInv (tr : RelayTrace) (s : Link Client Server) : Prop where
  flows : Link.Flows clientEnd serverEnd tr s
  client : Client.Talk (leftHist Obs.framesBuilt tr) (leftHist Obs.framesRecvd tr) s.left.pc
  server : Server.Talk (rightHist Obs.framesBuilt tr) (rightHist Obs.framesRecvd tr) s.right
  clientExit : ∀ exit, s.left.pc = .done exit → exit.unexpected = false
  serverExit : ∀ exit, s.right = .done exit → exit.unexpected = false
  clientPassed : Passed (leftHist Obs.bytesRead tr) (leftHist Obs.bytesWritten tr)
    (leftHist Obs.framesBuilt tr) (leftHist Obs.framesRecvd tr) s.left.pc.toWrite
    s.left.pc.isDone
  serverPassed : Passed (rightHist Obs.bytesRead tr) (rightHist Obs.bytesWritten tr)
    (rightHist Obs.framesBuilt tr) (rightHist Obs.framesRecvd tr) s.right.toWrite s.right.isDone

/-- What is under way decodes. -/
theorem decodes_of_flow {built recvd : List Frame} {flight pending : List UInt8} {live : Prop}
    (h : Flow Frame.stream built recvd flight pending live) {exit : Exit}
    (hexit : exit.unexpected = true → ∃ de, Frame.recv flight = .error (.decode de)) :
    exit.unexpected = false := by
  cases hu : exit.unexpected with
  | false => rfl
  | true =>
    obtain ⟨de, hde⟩ := hexit hu
    rcases h.recv_or_eof with ⟨r, hr⟩ | heof
    · have hr' : Frame.recv flight = .ok r := hr
      rw [hde] at hr'
      cases hr'
    · have heof' : Frame.recv flight = .error .unexpectedEof := heof
      rw [hde] at heof'
      cases heof'

/-- A loop that receives data of its own connection, if anything, is not surprised. -/
theorem ForwardLoop.Rule.expected {fw : ForwardLoop} {exit : Exit} {broken : Bool}
    {flight pending : List UInt8} {e : Effect Obs} {built recvd : List Frame} {live : Prop}
    (h : ForwardLoop.Rule fw broken flight (.error exit) e)
    (hflow : Flow Frame.stream built recvd flight pending live)
    (hdata : ∀ f rest, built = recvd ++ f :: rest → IsData fw.offerId f) :
    exit.unexpected = false := by
  cases h with
  | fail hu => exact decodes_of_flow hflow hu
  | reject hrecv hnot =>
    obtain ⟨rest, hbuilt, -⟩ := hflow.next hrecv
    exact absurd (hdata _ _ hbuilt) hnot

namespace RelayInv

variable {tr : RelayTrace} {s : Link Client Server}

/-- The client is not surprised. -/
theorem client_expected (hi : RelayInv tr s) {pc : ClientPc} {e : Effect Obs}
    (hr : Client.Rule s.left s.broken s.toLeft pc e) :
    ∀ exit, pc = .done exit → exit.unexpected = false := by
  rintro exit hpc
  have hstage := hi.client.stage
  cases hr with
  | request => cases hpc
  | @send rest n hc =>
    have hne : writeAll ClientPc.send .recv rest n ≠ .done exit :=
      writeAll_induct (P := fun pc => pc ≠ .done exit) ClientPc.send .recv rest n
        (fun _ => nofun) nofun
    exact absurd hpc hne
  | @recv f rest hc hrecv =>
    -- the first frame that the server built is an offer
    rw [hc] at hstage
    obtain ⟨rest', hbuilt, -⟩ := hi.flows.toLeft.next hrecv
    have hbuilt' : rightHist Obs.framesBuilt tr = [] ++ f :: rest' := by
      rw [← hstage.2]
      exact hbuilt
    have hscript := hi.server.script
    rw [hbuilt'] at hscript
    obtain ⟨id, hf⟩ := hscript.of_nil
    rcases s.left.answer_cases f.protocol with ⟨_, -, ha⟩ | ⟨_, -, ha⟩ | ⟨_, -, ha⟩ | ⟨hno, -⟩
    · rw [ha] at hpc
      cases hpc
    · rw [ha] at hpc
      cases hpc
    · rw [ha] at hpc
      obtain rfl := ClientPc.done.inj hpc
      rfl
    · exact absurd hf (hno id)
  | reply => cases hpc
  | replyStop _ _ hexit =>
    obtain rfl := ClientPc.done.inj hpc
    exact hexit
  | stop _ hu =>
    obtain rfl := ClientPc.done.inj hpc
    exact decodes_of_flow hi.flows.toLeft hu
  | forward => cases hpc
  | @forwardStop fw exit' _ hc hfw =>
    obtain rfl := ClientPc.done.inj hpc
    rw [hc] at hstage
    refine hfw.expected hi.flows.toLeft fun f rest hbuilt => ?_
    -- the server sends data of the connection that it offered, and the client has that offer
    have hscript := hi.server.script
    have hbuilt' : rightHist Obs.framesBuilt tr = leftHist Obs.framesRecvd tr ++ f :: rest :=
      hbuilt
    rw [hbuilt'] at hscript
    obtain ⟨id, hid, hdata⟩ := hscript.of_ne_nil hstage.2.ne_nil
    have hsame : id = fw.offerId := hid.unique (hstage.2.append _)
    rwa [← hsame]

/-- The server is not surprised. -/
theorem server_expected (hi : RelayInv tr s) {s' : Server} {e : Effect Obs}
    (hr : Server.Rule s.right s.broken s.toRight s' e) :
    ∀ exit, s' = .done exit → exit.unexpected = false := by
  rintro exit hs'
  have hstage := hi.server.stage
  have hscript := hi.client.script
  cases hr with
  | @recv f rest hs hrecv =>
    -- the first frame that the client built is a request
    rw [hs] at hstage
    obtain ⟨rest', hbuilt, -⟩ := hi.flows.toRight.next hrecv
    have hbuilt' : leftHist Obs.framesBuilt tr = [] ++ f :: rest' := by
      rw [← hstage.2]
      exact hbuilt
    rw [hbuilt'] at hscript
    obtain ⟨dst, port, hf⟩ := hscript.of_nil
    rw [hf] at hs'
    cases hs'
  | connect => cases hs'
  | @send id rest n hs =>
    have hne : writeAll (Server.offer id) (.offered id) rest n ≠ .done exit :=
      writeAll_induct (P := fun s => s ≠ .done exit) (Server.offer id) (.offered id) rest n
        (fun _ => nofun) nofun
    exact absurd hs' hne
  | offered => cases hs'
  | stop _ hu =>
    obtain rfl := Server.done.inj hs'
    exact decodes_of_flow hi.flows.toRight hu
  | forward => cases hs'
  | @forwardStop fw exit' _ hs hfw =>
    obtain rfl := Server.done.inj hs'
    have hunwrap : (Server.unwrapExit exit').unexpected = exit'.unexpected := by
      cases exit' <;> rfl
    rw [hunwrap]
    rw [hs] at hstage
    refine hfw.expected hi.flows.toRight fun f rest hbuilt => ?_
    -- the client sends data of the connection it was offered, which is the one offered here
    have hbuilt' : leftHist Obs.framesBuilt tr = rightHist Obs.framesRecvd tr ++ f :: rest :=
      hbuilt
    rw [hbuilt'] at hscript
    obtain ⟨id, hid, hdata⟩ := hscript.of_ne_nil hstage.2
    obtain ⟨more, hmore⟩ := hi.flows.toLeft.recvd_isPrefix
    have hid' : Offers id (rightHist Obs.framesBuilt tr) := by
      have := hid.append more
      rwa [show leftHist Obs.framesRecvd tr ++ more = rightHist Obs.framesBuilt tr from hmore]
        at this
    rwa [← hid'.unique hstage.1]

end RelayInv

namespace RelayInv

variable {tr : RelayTrace} {s t : Link Client Server}

theorem start (front : FrontEnd) (dst : String) (port : UInt16) :
    RelayInv [] (.start (.new front dst port) .recv) where
  flows := Link.flow_of_run rfl rfl .nil
  client := ⟨.inl rfl, rfl, rfl⟩
  server := ⟨.inl rfl, rfl, rfl⟩
  clientExit exit h := by cases h
  serverExit exit h := by cases h
  clientPassed := ⟨rfl, fun _ => rfl, List.prefix_rfl⟩
  serverPassed := ⟨rfl, fun _ => rfl, List.prefix_rfl⟩

/-- One step. -/
theorem step (hi : RelayInv tr s) {a : LinkAct ClientAct ServerAct} {o : LinkOut Obs Obs}
    (hr : Link.Rule clientEnd serverEnd s a o t) : RelayInv (tr ++ [⟨s, a, o, t⟩]) t := by
  have hflows := hi.flows.step hr
  cases hr with
  | @left ca c e he =>
    obtain ⟨-, hrule⟩ := Client.rule_of_step he
    have hlive : c.pc.isDone = false → s.left.pc.isDone = false :=
      fun _ => clientEnd.not_done_of_step he
    refine ⟨hflows, ?_, ?_, hi.client_expected hrule, hi.serverExit, ?_, ?_⟩
    · simpa only [Link.leftHist_left] using hi.client.step hrule
    · simpa only [Link.rightHist_left] using hi.server
    · simpa only [Link.leftHist_left] using hi.clientPassed.step hrule.books hlive
    · simpa only [Link.rightHist_left] using hi.serverPassed
  | @right sa r e he =>
    have hrule := Server.rule_of_step he
    have hlive : r.isDone = false → s.right.isDone = false :=
      fun _ => serverEnd.not_done_of_step he
    refine ⟨hflows, ?_, ?_, hi.clientExit, hi.server_expected hrule, ?_, ?_⟩
    · simpa only [Link.leftHist_right] using hi.client
    · simpa only [Link.rightHist_right] using hi.server.step hrule
    · simpa only [Link.leftHist_right] using hi.clientPassed
    · simpa only [Link.rightHist_right] using hi.serverPassed.step hrule.books hlive
  | brk n m =>
    refine ⟨hflows, ?_, ?_, hi.clientExit, hi.serverExit, ?_, ?_⟩
    · simpa only [Link.leftHist_brk] using hi.client
    · simpa only [Link.rightHist_brk] using hi.server
    · simpa only [Link.leftHist_brk] using hi.clientPassed
    · simpa only [Link.rightHist_brk] using hi.serverPassed

end RelayInv

theorem relayInv_of_run {front : FrontEnd} {dst : String} {port : UInt16} {tr : RelayTrace}
    {s : Link Client Server} (h : relay.Run (.start (.new front dst port) .recv) tr s) :
    RelayInv tr s :=
  h.induct RelayInv (.start front dst port) fun _ _ _ _ _ _ hi hs =>
    hi.step (Link.rule_of_step hs)

/-- No data frame was rejected. -/
theorem not_rejected_of_run {front : FrontEnd} {dst : String} {port : UInt16} {tr : RelayTrace}
    {s : Link Client Server} (h : relay.Run (.start (.new front dst port) .recv) tr s) :
    ∀ e ∈ tr, ∀ chunk, e.out ≠ .left (.rejected chunk) ∧ e.out ≠ .right (.rejected chunk) := by
  refine h.induct (fun tr _ => ∀ e ∈ tr, ∀ chunk,
    e.out ≠ .left (.rejected chunk) ∧ e.out ≠ .right (.rejected chunk)) ?_ ?_
  · intro e he
    exact absurd he List.not_mem_nil
  · intro tr s a t o _ ih hs e he chunk
    rcases List.mem_append.mp he with he | he
    · exact ih e he chunk
    · obtain rfl := List.mem_singleton.mp he
      cases Link.rule_of_step hs with
      | left hc =>
        have hacc := (Client.rule_of_step hc).2.books.accepted chunk
        exact ⟨fun h => hacc (LinkOut.left.inj h), by simp⟩
      | right hr =>
        have hacc := (Server.rule_of_step hr).books.accepted chunk
        exact ⟨by simp, fun h => hacc (LinkOut.right.inj h)⟩
      | brk => exact ⟨by simp, by simp⟩

/-- What an end may receive: first a frame that satisfies `P`, then data frames of one
connection. -/
def Expected (P : Frame → Prop) (recvd : List Frame) : Prop :=
  recvd = [] ∨ ∃ f ds, recvd = f :: ds ∧ P f ∧ ∃ id, ∀ d ∈ ds, ForwardLoop.IsData id d

theorem Script.expected {P : Frame → Prop} {offers built recvd : List Frame}
    (h : Script P offers built) (hp : recvd <+: built) : Expected P recvd := by
  obtain ⟨rest, rfl⟩ := hp
  rcases recvd with _ | ⟨f, ds⟩
  · exact .inl rfl
  rcases h with h | ⟨g, gs, h, hg, hds⟩
  · cases h
  · obtain ⟨rfl, rfl⟩ := List.cons.inj h
    refine .inr ⟨f, ds, rfl, hg, ?_⟩
    rcases ds with _ | ⟨d, ds⟩
    · exact ⟨0, fun _ hd => absurd hd List.not_mem_nil⟩
    · obtain ⟨id, hid, -⟩ := hds d List.mem_cons_self
      refine ⟨id, fun d' hd' => ?_⟩
      obtain ⟨id', hid', hdata⟩ := hds d' (List.mem_append_left _ hd')
      rwa [hid.unique hid']

/-- **The relay is correct.** In every run, whenever the stream breaks or a deadline is reached:
neither end stops because of a frame that it does not expect, and what they receive is an offer or
a request and then data of one connection; no data frame is rejected; and in both directions the
bytes written to one TCP connection are the first of those read from the other one. -/
theorem relay_correct {front : FrontEnd} {dst : String} {port : UInt16} {tr : RelayTrace}
    {s : Link Client Server} (h : relay.Run (.start (.new front dst port) .recv) tr s) :
    ((∀ exit, s.left.pc = .done exit → exit.unexpected = false) ∧
      (∀ exit, s.right = .done exit → exit.unexpected = false) ∧
      Expected IsOffer (leftHist Obs.framesRecvd tr) ∧
      Expected IsConnect (rightHist Obs.framesRecvd tr)) ∧
    (∀ e ∈ tr, ∀ chunk, e.out ≠ .left (.rejected chunk) ∧ e.out ≠ .right (.rejected chunk)) ∧
    rightHist Obs.bytesWritten tr <+: leftHist Obs.bytesRead tr ∧
      leftHist Obs.bytesWritten tr <+: rightHist Obs.bytesRead tr := by
  have hi := relayInv_of_run h
  have htoRight := hi.flows.toRight.recvd_isPrefix
  have htoLeft := hi.flows.toLeft.recvd_isPrefix
  refine ⟨⟨hi.clientExit, hi.serverExit, hi.server.script.expected htoLeft,
    hi.client.script.expected htoRight⟩, not_rejected_of_run h, ?_, ?_⟩
  · rw [hi.clientPassed.readEq]
    exact hi.serverPassed.isPrefix.trans (flatMap_isPrefix htoRight)
  · rw [hi.serverPassed.readEq]
    exact hi.clientPassed.isPrefix.trans (flatMap_isPrefix htoLeft)

/-- Two bytes reach the remote host before the stream breaks in the next frame. -/
theorem relay_correct_short :
    ∃ (tr : RelayTrace) (s : Link Client Server),
      relay.Run (.start (.new (.socks .v5) "" 80) .recv) tr s ∧
      rightHist Obs.bytesWritten tr = [1, 2] ∧
      rightHist Obs.bytesWritten tr <+: leftHist Obs.bytesRead tr := by
  obtain ⟨tr, s, hrun, -, hw⟩ := Machine.exists_run_of_exec relay
    (.start (.new (.socks .v5) "" 80) .recv)
    [.left (.request ⟨1, by decide⟩), .left (.send 100), .right .recv,
      .right (.connect (.ok 7) ⟨1, by decide⟩), .right (.send 5), .right (.send 100),
      .right .offered, .left .recv, .left (.reply true),
      .left (.forward (.upCheck false)),
      .left (.forward (.read (.ok ⟨[1, 2], by decide⟩) ⟨1, by decide⟩)),
      .left (.forward (.send 100)), .left (.forward (.upCheck false)),
      .left (.forward (.read (.ok ⟨[3], by decide⟩) ⟨1, by decide⟩)),
      .left (.forward (.send 10)),
      .right (.forward (.downCheck false)), .right (.forward .recv),
      .brk 3 0, .right (.forward (.write 1)), .right (.forward (.write 1)),
      .right (.forward (.downCheck false)), .right (.forward .recv)]
    (P := fun tr _ => rightHist Obs.bytesWritten tr = [1, 2]) (by decide)
  exact ⟨tr, s, hrun, hw, (relay_correct hrun).2.2.1⟩

end ObfsWs
