import ObfsWs.Wsocks.RelayCorrect

/-!
# What the application is told

When the offer is in, the front end answers the application that asked for the connection, and
only then are bytes passed on. The answer is made of the offer that the client has received; the
server made that offer of the result of `TcpStream::connect`; and between the two lies the stream.
So the answer reports the result, through two conversions of the error and over the stream.

## The statement

It begins with the answer as it is observed, in whatever run, and goes back from there: the offer
that the client had received, the frame in which it came, the step in which the server built that
frame, and the result that the server then had. Each of these is in the run. `FrontEnd.Reports`
compares the first with the last of them. What comes after the answer is in it as well: it is the
only one, and after an answer that is not a grant no byte is passed on by anybody.

## Main definitions

* `Client.Told` — what the client has received when it is about to answer
* `Opening` — what holds until the client answers

## Main results

* `told_of_run` — the application is told once, before any byte is passed on, and is told the result
  of the server's attempt

## Scope

An answer is observed where it is written, whether the write succeeds or fails: what is left of a
failed write is not modelled. No answer is given when the client gets no offer, as when the stream
breaks, nor by the HTTP front end to an error; `neverPanics_iff` and `relay_correct` say when that
is. Nothing is said about an answer that is never given.
-/

namespace ObfsWs

/-! ### Until the client answers -/

/-- The client has neither answered nor stopped. -/
def ClientPc.opening : ClientPc → Bool
  | .forward _ => false
  | .done _ => false
  | _ => true

/-- A client that is about to answer an offer has received that offer, and nothing else. -/
def Client.Told (recvd : List Frame) (pc : ClientPc) : Prop :=
  ∀ offer, pc.offer = some offer → ∃ f, recvd = [f] ∧ f.protocol = .tcpOffer offer

theorem ClientPc.opening_of_offer {pc : ClientPc} {offer : Offer} (h : pc.offer = some offer) :
    pc.opening = true := by
  cases pc with
  | reply | refuse => rfl
  | _ => cases h

/-- A loop has nothing to tell. -/
theorem ForwardLoop.Rule.replies_eq_nil {fw : ForwardLoop} {next : ForwardLoop.Next} {broken : Bool}
    {input : List UInt8} {e : Effect Obs} (h : ForwardLoop.Rule fw broken input next e) :
    e.obs.replies = [] := by
  cases h <;> rfl

namespace Client

variable {c c' : Client} {broken : Bool} {input : List UInt8} {a : ClientAct} {e : Effect Obs}

/-- A step into an opening state starts in one, and passes nothing on. -/
theorem Rule.opening {pc : ClientPc} (h : Rule c broken input pc e) (ho : pc.opening = true) :
    c.pc.opening = true ∧ e.obs.bytesRead = [] ∧ e.obs.bytesWritten = [] := by
  cases h with
  | request hc _ _ =>
    rw [hc]
    exact ⟨rfl, rfl, rfl⟩
  | send n hc =>
    rw [hc]
    exact ⟨rfl, rfl, rfl⟩
  | recv hc _ =>
    rw [hc]
    exact ⟨rfl, rfl, rfl⟩
  | reply _ _ => cases ho
  | replyStop _ _ _ => cases ho
  | stop _ _ => cases ho
  | forward _ _ => cases ho
  | forwardStop _ _ => cases ho

/-- **What is told is the answer to the offer at hand**, and telling it ends the opening. -/
theorem Rule.replies {pc : ClientPc} (h : Rule c broken input pc e) :
    e.obs.replies = [] ∨ ∃ offer reply ok, e.obs = .told reply ok ∧ c.pc.offer = some offer ∧
      c.front.reply c.dst c.port offer = some reply ∧ pc.opening = false := by
  cases h with
  | request | send | recv | stop => exact .inl rfl
  | reply hc hreply => exact .inr ⟨_, _, _, rfl, by rw [hc]; rfl, hreply, rfl⟩
  | replyStop hoffer hreply => exact .inr ⟨_, _, _, rfl, hoffer, hreply, rfl⟩
  | forward _ hr => exact .inl hr.replies_eq_nil
  | forwardStop _ hr => exact .inl hr.replies_eq_nil

/-- An offer that is received is the one to be answered. -/
theorem told_answer (c : Client) (f : Frame) : Told [f] (c.answer f.protocol) := by
  intro offer hoffer
  refine ⟨f, rfl, ?_⟩
  rcases c.answer_cases f.protocol with ⟨id, hf, ha⟩ | ⟨err, hf, ha⟩ | ⟨err, hf, ha⟩ | ⟨-, x, ha⟩
  · rw [ha] at hoffer
    rw [hf, ← Option.some.inj hoffer]
  · rw [ha] at hoffer
    rw [hf, ← Option.some.inj hoffer]
  · rw [ha] at hoffer
    cases hoffer
  · rw [ha] at hoffer
    cases hoffer

theorem Told.step {pc : ClientPc} {built recvd : List Frame} (hstage : c.pc.Stage built recvd)
    (h : Rule c broken input pc e) : Told (recvd ++ e.obs.framesRecvd) pc := by
  cases h with
  | @send rest n _ =>
    exact writeAll_induct (P := Told (recvd ++ [])) ClientPc.send .recv rest n
      (fun _ _ ho => by cases ho) (fun _ ho => by cases ho)
  | @recv f rest hc _ =>
    rw [hc] at hstage
    rw [hstage.2]
    exact c.told_answer f
  | request | reply | replyStop | stop | forward | forwardStop => exact fun _ ho => by cases ho

end Client

open Link (leftHist rightHist)

/-- What holds of the client's answer at every moment. -/
structure Opening (front : FrontEnd) (dst : String) (port : UInt16) (tr : RelayTrace)
    (s : Link Client Server) : Prop where
  left : s.left = ⟨front, dst, port, s.left.pc⟩
  told : Client.Told (leftHist Obs.framesRecvd tr) s.left.pc
  quiet : s.left.pc.opening = true → leftHist Obs.replies tr = [] ∧
    leftHist Obs.bytesRead tr = [] ∧ leftHist Obs.bytesWritten tr = []
  once : (leftHist Obs.replies tr).length ≤ 1

variable {front : FrontEnd} {dst : String} {port : UInt16} {tr : RelayTrace}
  {s t : Link Client Server}

/-- A step of the client. -/
theorem Opening.step_left {a : ClientAct} {c : Client} {e : Effect Obs} (hi : RelayInv tr s)
    (h : Opening front dst port tr s) (he : s.left.step s.broken s.toLeft a = some (c, e))
    (ht : t.left = c) : Opening front dst port (tr ++ [⟨s, .left a, .left e.obs, t⟩]) t := by
  obtain ⟨hgoto, hrule⟩ := Client.rule_of_step he
  subst ht
  refine ⟨?_, ?_, fun ho => ?_, ?_⟩
  · rw [hgoto, h.left]
    rfl
  · rw [Link.leftHist_left]
    exact .step hi.client.stage hrule
  · -- what is told ends the opening, so nothing was
    obtain ⟨hopen, hread, hwritten⟩ := hrule.opening ho
    obtain ⟨hnone, hr, hw⟩ := h.quiet hopen
    rcases hrule.replies with hnil | ⟨-, -, -, -, -, -, hclosed⟩
    · rw [Link.leftHist_left, Link.leftHist_left, Link.leftHist_left, hnil, hread, hwritten, hnone,
        hr, hw]
      exact ⟨rfl, rfl, rfl⟩
    · rw [hclosed] at ho
      cases ho
  · rw [Link.leftHist_left]
    rcases hrule.replies with hnil | ⟨offer, reply, ok, hobs, hoffer, -⟩
    · rw [hnil, List.append_nil]
      exact h.once
    · rw [(h.quiet (ClientPc.opening_of_offer hoffer)).1, hobs]
      exact Nat.le_refl 1

theorem Opening.start (front : FrontEnd) (dst : String) (port : UInt16) :
    Opening front dst port [] (.start (.new front dst port) .recv) where
  left := rfl
  told _ ho := by cases ho
  quiet _ := ⟨rfl, rfl, rfl⟩
  once := Nat.zero_le 1

theorem opening_of_run (h : relay.Run (.start (.new front dst port) .recv) tr s) :
    Opening front dst port tr s := by
  refine h.induct (Opening front dst port) (.start front dst port) ?_
  intro tr s a t o hrun ih hs
  -- a step of the server or of the stream changes nothing that the client sees
  have hsame (a : LinkAct ClientAct ServerAct) (hleft : t.left = s.left)
      (hhist : ∀ f : Obs → List UInt8, leftHist f (tr ++ [⟨s, a, o, t⟩]) = leftHist f tr)
      (hframes : leftHist Obs.framesRecvd (tr ++ [⟨s, a, o, t⟩]) = leftHist Obs.framesRecvd tr)
      (hreplies : leftHist Obs.replies (tr ++ [⟨s, a, o, t⟩]) = leftHist Obs.replies tr) :
      Opening front dst port (tr ++ [⟨s, a, o, t⟩]) t := by
    constructor
    · rw [hleft]
      exact ih.left
    · rw [hleft, hframes]
      exact ih.told
    · rw [hleft, hreplies, hhist, hhist]
      exact ih.quiet
    · rw [hreplies]
      exact ih.once
  cases Link.rule_of_step hs with
  | left he => exact ih.step_left (relayInv_of_run hrun) he rfl
  | right =>
    exact hsame _ rfl (fun _ => Link.leftHist_right ..) (Link.leftHist_right ..)
      (Link.leftHist_right ..)
  | brk =>
    exact hsame _ rfl (fun _ => Link.leftHist_brk ..) (Link.leftHist_brk ..) (Link.leftHist_brk ..)

/-! ### What the server offers -/

/-- An offer is built of the result of the attempt to connect. -/
theorem Server.connect_of_offer {s s' : Server} {broken : Bool} {input : List UInt8}
    {a : ServerAct} {e : Effect Obs} (h : s.step broken input a = some (s', e)) {f : Frame}
    (hf : f ∈ e.obs.framesBuilt) (hoffer : IsOffer f) :
    ∃ r paddingLen, a = .connect r paddingLen ∧ e.obs = .built f ∧
      f.protocol = .tcpOffer (offerOf r) := by
  cases Server.rule_of_step h with
  | connect hs hg _ =>
    obtain rfl := hs
    obtain rfl := List.mem_singleton.mp hf
    cases a with
    | connect r paddingLen =>
      refine ⟨r, paddingLen, rfl, rfl, ?_⟩
      simp only [step] at h
      split at h
      · obtain ⟨h₁, h₂⟩ := Machine.next_inj h
        obtain rfl := Obs.built.inj (congrArg Effect.obs h₂)
        rfl
      · cases congrArg Prod.fst (Option.some.inj h)
    | _ => cases h
  | forward _ hr =>
    obtain ⟨id, hid⟩ := hoffer
    cases hr with
    | read hg _ _ _ _ _ =>
      obtain rfl := List.mem_singleton.mp hf
      rw [hid] at hg
      cases hg
    | _ => exact absurd hf List.not_mem_nil
  | forwardStop _ hr =>
    rw [hr.script_stop] at hf
    exact absurd hf List.not_mem_nil
  | _ => exact absurd hf List.not_mem_nil

/-- In these steps the server tried to connect, with this result, and built this frame of it. -/
def Tried (tr : RelayTrace) (r : Except IoError (BitVec 128)) (f : Frame) : Prop :=
  ∃ e ∈ tr, ∃ paddingLen, e.act = .right (.connect r paddingLen) ∧ e.out = .right (.built f)

theorem tried_of_run (h : relay.Run (.start (.new front dst port) .recv) tr s) {f : Frame}
    (hf : f ∈ rightHist Obs.framesBuilt tr) (hoffer : IsOffer f) :
    ∃ r, Tried tr r f ∧ f.protocol = .tcpOffer (offerOf r) := by
  refine h.induct (fun tr _ => f ∈ rightHist Obs.framesBuilt tr →
    ∃ r, Tried tr r f ∧ f.protocol = .tcpOffer (offerOf r)) ?_ ?_ hf
  · exact fun hf => absurd hf List.not_mem_nil
  · intro tr s a t o _ ih hs hf
    have hold (hf : f ∈ rightHist Obs.framesBuilt tr) :
        ∃ r, Tried (tr ++ [⟨s, a, o, t⟩]) r f ∧ f.protocol = .tcpOffer (offerOf r) := by
      obtain ⟨r, ⟨e, he, hconnect⟩, hr⟩ := ih hf
      exact ⟨r, ⟨e, List.mem_append_left _ he, hconnect⟩, hr⟩
    cases Link.rule_of_step hs with
    | left => exact hold (by rwa [Link.rightHist_left] at hf)
    | brk => exact hold (by rwa [Link.rightHist_brk] at hf)
    | right he =>
      rw [Link.rightHist_right] at hf
      rcases List.mem_append.mp hf with hf | hf
      · exact hold hf
      · obtain ⟨r, paddingLen, rfl, hobs, hr⟩ := Server.connect_of_offer he hf hoffer
        refine ⟨r, ⟨_, List.mem_append_right _ (List.mem_singleton_self _), paddingLen, rfl, ?_⟩,
          hr⟩
        rw [hobs]

/-! ### No byte without an offer -/

/-- An end builds data frames only of a connection that was offered. -/
theorem Script.offers_of_payload {P : Frame → Prop} {offers built : List Frame}
    (h : Script P offers built) (hP : ∀ f, P f → f.payload = [])
    (hne : built.flatMap Frame.payload ≠ []) : ∃ id, Offers id offers := by
  rcases h with rfl | ⟨f, ds, rfl, hf, hds⟩
  · exact absurd rfl hne
  · rcases ds with _ | ⟨d, ds⟩
    · rw [List.flatMap_cons, hP f hf] at hne
      exact absurd rfl hne
    · obtain ⟨id, hid, -⟩ := hds d List.mem_cons_self
      exact ⟨id, hid⟩

theorem payload_of_isOffer {f : Frame} (h : IsOffer f) : f.payload = [] := by
  obtain ⟨id, hf⟩ := h
  exact payload_of_tcpOffer hf

/-- An error that the client received is what the server offered. -/
theorem Offers.ne_error {id : BitVec 128} {f : Frame} {e : OfferError} {built rest : List Frame}
    (h : Offers id built) (hbuilt : built = f :: rest) (hf : f.protocol = .tcpOffer (.error e)) :
    False := by
  obtain ⟨o, rest', rfl, ho⟩ := h
  obtain ⟨rfl, -⟩ := List.cons.inj hbuilt
  rw [hf] at ho
  cases ho

/-- After an error no byte is read or written on either side. -/
theorem RelayInv.no_bytes {tr : RelayTrace} {s : Link Client Server} (hi : RelayInv tr s)
    {f : Frame} {rest : List Frame} {e : OfferError}
    (hrecvd : leftHist Obs.framesRecvd tr = f :: rest) (hf : f.protocol = .tcpOffer (.error e)) :
    leftHist Obs.bytesRead tr = [] ∧ leftHist Obs.bytesWritten tr = [] ∧
      rightHist Obs.bytesRead tr = [] ∧ rightHist Obs.bytesWritten tr = [] := by
  obtain ⟨more, hmore⟩ := hi.flows.toLeft.recvd_isPrefix
  have hbuilt : rightHist Obs.framesBuilt tr = f :: (rest ++ more) := by
    rw [show rightHist Obs.framesBuilt tr = leftHist Obs.framesRecvd tr ++ more from hmore.symm,
      hrecvd]
    rfl
  have hclient : (leftHist Obs.framesBuilt tr).flatMap Frame.payload = [] := by
    by_contra hne
    obtain ⟨id, hid⟩ := hi.client.script.offers_of_payload (fun _ => payload_of_isConnect) hne
    exact hid.ne_error hrecvd hf
  have hserver : (rightHist Obs.framesBuilt tr).flatMap Frame.payload = [] := by
    by_contra hne
    obtain ⟨id, hid⟩ := hi.server.script.offers_of_payload (fun _ => payload_of_isOffer) hne
    exact hid.ne_error hbuilt hf
  have htoRight := flatMap_isPrefix hi.flows.toRight.recvd_isPrefix
  have htoLeft := flatMap_isPrefix hi.flows.toLeft.recvd_isPrefix
  refine ⟨?_, ?_, ?_, ?_⟩
  · rw [hi.clientPassed.readEq, hclient]
  · refine List.prefix_nil.mp (hi.clientPassed.isPrefix.trans ?_)
    rw [← hserver]
    exact htoLeft
  · rw [hi.serverPassed.readEq, hserver]
  · refine List.prefix_nil.mp (hi.serverPassed.isPrefix.trans ?_)
    rw [← hclient]
    exact htoRight

/-! ### The answer -/

/-- Who tells the application something has an offer at hand, and answers it. -/
theorem exists_offer_of_told {a : LinkAct ClientAct ServerAct} {reply : Reply} {ok : Bool}
    (h : relay.step s a = some (t, .left (.told reply ok))) :
    ∃ offer, s.left.pc.offer = some offer ∧
      s.left.front.reply s.left.dst s.left.port offer = some reply := by
  generalize ho : (LinkOut.left (Obs.told reply ok) : LinkOut Obs Obs) = o at h
  cases Link.rule_of_step h with
  | left he =>
    have hobs := LinkOut.left.inj ho
    rcases (Client.rule_of_step he).2.replies with
      hnil | ⟨offer, reply', ok', hobs', hoffer, hreply, -⟩
    · rw [← hobs] at hnil
      cases hnil
    · obtain ⟨rfl, rfl⟩ := Obs.told.inj (hobs.trans hobs')
      exact ⟨offer, hoffer, hreply⟩
  | right => cases ho
  | brk => cases ho

/-- The first answer is the only one. -/
theorem Opening.replies_eq {tr₁ tr₂ : RelayTrace} {s₁ t₁ : Link Client Server}
    {a : LinkAct ClientAct ServerAct} {reply : Reply} {ok : Bool}
    (h : Opening front dst port (tr₁ ++ ⟨s₁, a, .left (.told reply ok), t₁⟩ :: tr₂) s)
    (hnone : leftHist Obs.replies tr₁ = []) :
    leftHist Obs.replies (tr₁ ++ ⟨s₁, a, .left (.told reply ok), t₁⟩ :: tr₂) = [(reply, ok)] := by
  have hcons : leftHist Obs.replies (tr₁ ++ ⟨s₁, a, .left (.told reply ok), t₁⟩ :: tr₂) =
      (reply, ok) :: leftHist Obs.replies tr₂ := by
    rw [Link.leftHist_append, hnone]
    rfl
  have hlen := h.once
  rw [hcons, List.length_cons] at hlen
  rw [hcons, List.eq_nil_of_length_eq_zero (Nat.le_zero.mp (Nat.le_of_succ_le_succ hlen))]

/-- **The application is told the result of the server's attempt.** In every run, when the front end
tells the application something: the client has received one frame, an offer; what is told is the
front end's answer to that offer; the server has built that very frame of the result of its attempt
to connect, and the answer reports that result. It is the only answer, and no byte was passed on
before it; and if it is a failure, none ever is, on either side. -/
theorem told_of_run {tr₁ tr₂ : RelayTrace}
    {e : Event (Link Client Server) (LinkAct ClientAct ServerAct) (LinkOut Obs Obs)}
    {reply : Reply} {ok : Bool}
    (h : relay.Run (.start (.new front dst port) .recv) (tr₁ ++ e :: tr₂) s)
    (hout : e.out = .left (.told reply ok)) :
    ∃ f offer r, leftHist Obs.framesRecvd tr₁ = [f] ∧ f.protocol = .tcpOffer offer ∧
      front.reply dst port offer = some reply ∧
      Tried tr₁ r f ∧ offer = offerOf r ∧ front.Reports r reply ∧
      leftHist Obs.replies (tr₁ ++ e :: tr₂) = [(reply, ok)] ∧
      leftHist Obs.bytesRead tr₁ = [] ∧ leftHist Obs.bytesWritten tr₁ = [] ∧
      (reply.granted = false →
        leftHist Obs.bytesRead (tr₁ ++ e :: tr₂) = [] ∧
        leftHist Obs.bytesWritten (tr₁ ++ e :: tr₂) = [] ∧
        rightHist Obs.bytesRead (tr₁ ++ e :: tr₂) = [] ∧
        rightHist Obs.bytesWritten (tr₁ ++ e :: tr₂) = []) := by
  obtain ⟨t, a, o, t'⟩ := e
  obtain rfl : o = .left (.told reply ok) := hout
  have hbefore := h.before
  have hopening := opening_of_run hbefore
  -- the step is one of the client that has an offer at hand
  obtain ⟨offer, hoffer, hreply⟩ := exists_offer_of_told h.after.1
  obtain ⟨hnone, hread, hwritten⟩ := hopening.quiet (ClientPc.opening_of_offer hoffer)
  obtain ⟨f, hrecvd, hf⟩ := hopening.told offer hoffer
  rw [hopening.left] at hreply
  -- the frame is one that the server built of the result of its attempt
  have hbuilt : f ∈ rightHist Obs.framesBuilt tr₁ := by
    refine (relayInv_of_run hbefore).flows.toLeft.recvd_isPrefix.subset ?_
    show f ∈ leftHist Obs.framesRecvd tr₁
    rw [hrecvd]
    exact List.mem_singleton_self f
  obtain ⟨r, htried, hr⟩ := tried_of_run hbefore hbuilt ⟨offer, hf⟩
  obtain rfl : offer = offerOf r := Protocol.tcpOffer.inj (hf.symm.trans hr)
  have hreports := FrontEnd.reports_of_reply hreply
  have honce := (opening_of_run h).replies_eq hnone
  refine ⟨f, _, r, hrecvd, hf, hreply, htried, rfl, hreports, honce, hread, hwritten, ?_⟩
  intro hrefused
  rcases r with err | id
  · have hcons : leftHist Obs.framesRecvd (tr₁ ++ ⟨t, a, .left (.told reply ok), t'⟩ :: tr₂) =
        f :: leftHist Obs.framesRecvd (⟨t, a, .left (.told reply ok), t'⟩ :: tr₂) := by
      rw [Link.leftHist_append, hrecvd]
      rfl
    exact (relayInv_of_run h).no_bytes hcons hf
  · rw [hreports.granted.mpr ⟨id, rfl⟩] at hrefused
    cases hrefused

/-- The remote host does not answer the server in time, and the SOCKS client is told that it cannot
be reached. -/
theorem told_of_run_timedOut :
    ∃ (tr : RelayTrace) (s t : Link Client Server) (a : LinkAct ClientAct ServerAct) (f : Frame)
      (r : Except IoError (BitVec 128)),
      relay.Run (.start (.new (.socks .v5) "" 80) .recv) (tr ++ [⟨s, a, .left (.told
        (.socksV5 .hostUnreachable (.ipv4 ⟨[0, 0, 0, 0], rfl⟩) 0) true), t⟩]) t ∧
      leftHist Obs.framesRecvd tr = [f] ∧ f.protocol = .tcpOffer (offerOf r) ∧ Tried tr r f ∧
      FrontEnd.Reports (.socks .v5) r
        (.socksV5 .hostUnreachable (.ipv4 ⟨[0, 0, 0, 0], rfl⟩) 0) := by
  obtain ⟨tr, s, hrun, -, hcan⟩ :=
    Machine.exists_run_of_exec relay (.start (.new (.socks .v5) "" 80) .recv)
      [.left (.request ⟨1, by decide⟩), .left (.send 100), .right .recv,
        .right (.connect (.error ⟨.timedOut, ""⟩) ⟨1, by decide⟩), .right (.send 5),
        .right (.send 100), .left .recv]
      (P := fun _ s => ∃ t, relay.step s (.left (.reply true)) = some (t, .left (.told
        (.socksV5 .hostUnreachable (.ipv4 ⟨[0, 0, 0, 0], rfl⟩) 0) true))) ⟨_, rfl, _, rfl⟩
  obtain ⟨t, hstep⟩ := hcan
  have hrun' := hrun.snoc hstep
  obtain ⟨f, offer, r, hrecvd, hf, -, htried, rfl, hreports, -⟩ :=
    @told_of_run (.socks .v5) "" 80 t tr [] _ _ _ hrun' rfl
  exact ⟨tr, s, t, _, f, r, hrun', hrecvd, hf, htried, hreports⟩

end ObfsWs
