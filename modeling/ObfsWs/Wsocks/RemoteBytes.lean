import ObfsWs.Lib.Exposed
import ObfsWs.Wsocks.Relay

/-!
# What remote bytes can do

`tcp_forward_loop`, the client's end and the server's handler, each on a stream on which the peer
puts any bytes. Each of them may panic, and each step that does is known from where the task
stands, the bytes under way and what the environment chooses.

In the loop it is a frame that is not data of its connection. The client passes on the loop's
errors; besides, the HTTP front end has nothing to answer to an offer that is an error. The server
unwraps what it receives, what it sends and what the loop returns, and the loop returns errors
only.

## Who is to blame

Some panics are a matter of the bytes: a frame of another connection, a frame that is no data
where data is expected, an HTTP front end that is told of a failure. Others are a matter of the
environment: the server unwraps the results of sending and receiving, so a stream that breaks
panics the handler. The conditions say which is which. `Trips` looks at the state before the step,
at the bytes that stand at the front of the stream and at the arguments of the action, and never
at what the step leads to.

What a panic does to the other tasks of the program is up to the executor and is not part of this
file: a handler that has panicked takes no more steps.

## Main definitions

* `ForwardLoop.Ends`, `ForwardLoop.Surprised` — the steps that end the loop, and those that panic
* `Client.Trips`, `Server.Trips` — the steps of the two ends that panic
* `loopHandler`, `clientHandler`, `serverHandler` — the three tasks and any peer

## Main results

* `neverPanics_iff` — when each of them panics nowhere
-/

namespace ObfsWs

/-- The task has panicked. -/
def Exit.panicked : Exit → Bool
  | .panic _ => true
  | _ => false

/-! ### The loop

The loop ends by an error or by a panic, and which of the two is decided by the frame at the front
of the stream. `Ends` lists the steps that end it and `Surprised` those among them that panic;
together they are exact, `Outcome` being the list of what a step can lead to. -/

namespace ForwardLoop

/-- The steps that end the loop. -/
def Ends (fw : ForwardLoop) (input : List UInt8) : ForwardAct → Prop
  | .upCheck reached => reached = true
  | .read r _ => r = .error ()
  | .send _ => False
  | .sendFail => True
  | .downCheck reached => reached = true
  | .recv => ¬ ∃ f : Frame, f.Leads input ∧ IsData fw.offerId f
  | .recvFail => True
  | .write _ => False
  | .writeFail => True

/-- The steps that panic: a frame is received that is not data of the connection. -/
def Surprised (fw : ForwardLoop) (input : List UInt8) : ForwardAct → Prop
  | .recv => ∃ f : Frame, f.Leads input ∧ ¬ IsData fw.offerId f
  | _ => False

/-- What comes of a step: the loop goes on, returns an error or panics. -/
inductive Outcome (fw : ForwardLoop) (input : List UInt8) (a : ForwardAct) : Next → Prop
  | goesOn {fw' : ForwardLoop} : ¬ fw.Ends input a → ¬ fw.Surprised input a →
      Outcome fw input a (.ok fw')
  | returns {e : TaskError} : fw.Ends input a → ¬ fw.Surprised input a →
      Outcome fw input a (.error (.err e))
  | panics {p : TaskPanic} : fw.Ends input a → fw.Surprised input a →
      Outcome fw input a (.error (.panic p))

variable {fw : ForwardLoop} {broken : Bool} {input : List UInt8} {next : Next} {e : Effect Obs}
  {a : ForwardAct}

/-- `down_fut` after a frame. -/
theorem outcome_downRecv {f : Frame} {rest : List UInt8}
    (hrecv : Frame.recv input = .ok (f, rest)) : Outcome fw input .recv (fw.downRecv f) := by
  have hlead := Frame.leads_of_recv hrecv
  by_cases hdata : IsData fw.offerId f
  · obtain ⟨payload, hf⟩ := hdata
    rw [downRecv, hf]
    simp only [if_true]
    refine .goesOn (fun hno => hno ⟨f, hlead, payload, hf⟩) ?_
    rintro ⟨g, hg, hnot⟩
    rw [hg.unique hrecv] at hnot
    exact hnot ⟨payload, hf⟩
  · have hends : fw.Ends input .recv := by
      rintro ⟨g, hg, hgdata⟩
      rw [hg.unique hrecv] at hgdata
      exact hdata hgdata
    have hpanic : ∃ p, fw.downRecv f = .error (.panic p) := by
      rw [downRecv]
      rcases hf : f.protocol with ⟨dst, port⟩ | o | ⟨id, payload⟩
      · exact ⟨_, rfl⟩
      · exact ⟨_, rfl⟩
      · have hid : id ≠ fw.offerId := by
          rintro rfl
          exact hdata ⟨payload, hf⟩
        exact ⟨_, if_neg hid⟩
    obtain ⟨p, hp⟩ := hpanic
    rw [hp]
    exact .panics hends ⟨f, hlead, hdata⟩

/-- Receiving fails. -/
theorem outcome_recv_error {re : RecvError} (hrecv : Frame.recv input = .error re) :
    Outcome fw input .recv (.error (.err (.recv re))) := by
  have hno := Frame.not_leads_of_error hrecv
  refine .returns ?_ ?_
  · rintro ⟨f, hf, -⟩
    exact hno ⟨f, hf⟩
  · rintro ⟨f, hf, -⟩
    exact hno ⟨f, hf⟩

theorem outcome_of_step (h : fw.step broken input a = some (next, e)) :
    Outcome fw input a next := by
  cases a with
  | upCheck reached =>
    simp only [step] at h
    split at h
    · obtain ⟨rfl, -⟩ := Machine.next_inj h
      exact .returns rfl id
    · obtain ⟨rfl, -⟩ := Machine.next_inj h
      exact .goesOn Bool.false_ne_true id
    · cases h
  | read r paddingLen =>
    simp only [step] at h
    split at h
    · rw [upRead_eq] at h
      obtain ⟨rfl, -⟩ := Machine.next_inj h
      exact .goesOn (by rintro ⟨⟩) id
    · obtain ⟨rfl, -⟩ := Machine.next_inj h
      exact .returns rfl id
    · cases h
  | send n =>
    simp only [step] at h
    split at h
    · obtain ⟨rfl, -⟩ := Machine.next_inj h
      exact .goesOn id id
    · cases h
  | sendFail =>
    simp only [step] at h
    split at h
    · obtain ⟨rfl, -⟩ := Machine.next_inj h
      exact .returns trivial id
    · cases h
  | downCheck reached =>
    simp only [step] at h
    split at h
    · obtain ⟨rfl, -⟩ := Machine.next_inj h
      exact .returns rfl id
    · obtain ⟨rfl, -⟩ := Machine.next_inj h
      exact .goesOn Bool.false_ne_true id
    · cases h
  | recv =>
    simp only [step] at h
    split at h
    · split at h
      · rename_i hrecv
        obtain ⟨rfl, -⟩ := Machine.next_inj h
        exact outcome_downRecv hrecv
      · rename_i hrecv
        split at h
        · obtain ⟨rfl, -⟩ := Machine.next_inj h
          exact outcome_recv_error hrecv
        · cases h
      · rename_i hrecv
        obtain ⟨rfl, -⟩ := Machine.next_inj h
        exact outcome_recv_error hrecv
    · cases h
  | recvFail =>
    simp only [step] at h
    split at h
    · obtain ⟨rfl, -⟩ := Machine.next_inj h
      exact .returns trivial id
    · cases h
  | write n =>
    simp only [step] at h
    split at h
    · obtain ⟨rfl, -⟩ := Machine.next_inj h
      exact .goesOn id id
    · cases h
  | writeFail =>
    simp only [step] at h
    split at h
    · obtain ⟨rfl, -⟩ := Machine.next_inj h
      exact .returns trivial id
    · cases h

/-- The loop has panicked. -/
def nextPanicked : Next → Bool
  | .ok _ => false
  | .error exit => exit.panicked

theorem panicked_iff (h : fw.step broken input a = some (next, e)) :
    nextPanicked next = true ↔ fw.Surprised input a := by
  cases outcome_of_step h with
  | goesOn _ hs => exact iff_of_false Bool.false_ne_true hs
  | returns _ hs => exact iff_of_false Bool.false_ne_true hs
  | panics _ hs => exact iff_of_true rfl hs

end ForwardLoop

/-- `tcp_forward_loop` and any peer. -/
def loopHandler : Handler ForwardLoop.Next ForwardAct Obs where
  step next broken input a :=
    match next with
    | .ok fw => fw.step broken input a
    | .error _ => none
  panicked := ForwardLoop.nextPanicked
  trips next input a :=
    match next with
    | .ok fw => fw.Surprised input a
    | .error _ => False
  panicked_iff next broken input a next' e h := by
    rcases next with exit | fw
    · cases h
    · exact ForwardLoop.panicked_iff h

/-! ### The client

Before it forwards, the client can be surprised once: by an offer that is an error, if the front
end is the one that has no answer to it. Frames that are no offers are errors of its task. -/

/-- The client has panicked. -/
def ClientPc.panicked : ClientPc → Bool
  | .done exit => exit.panicked
  | _ => false

namespace Client

/-- The steps that panic: the HTTP front end is sent an offer that is an error, or the loop
panics. -/
def Trips (c : Client) (input : List UInt8) : ClientAct → Prop
  | .recv => c.front = .http ∧ ∃ (f : Frame) (oe : OfferError),
      f.Leads input ∧ f.protocol = .tcpOffer (.error oe)
  | .forward a =>
    match c.pc with
    | .forward fw => fw.Surprised input a
    | _ => False
  | _ => False

variable {c c' : Client} {broken : Bool} {input : List UInt8} {a : ClientAct} {e : Effect Obs}

/-- After `Frame::recv`. -/
theorem panicked_answer_iff (c : Client) (res : Protocol) :
    (c.answer res).panicked = true ↔ c.front = .http ∧ ∃ oe, res = .tcpOffer (.error oe) := by
  obtain ⟨front, dst, port, pc⟩ := c
  rcases res with ⟨dst', port'⟩ | (oe | id) | ⟨id, payload⟩
  · simp [answer, ClientPc.panicked, Exit.panicked]
  · cases front with
    | socks version => simp [answer, ClientPc.panicked]
    | http => simp [answer, ClientPc.panicked, Exit.panicked]
  · simp [answer, ClientPc.panicked]
  · simp [answer, ClientPc.panicked, Exit.panicked]

/-- Nothing is received. -/
theorem not_trips_of_error {re : RecvError} (h : Frame.recv input = .error re) :
    ¬ c.Trips input .recv := by
  rintro ⟨-, f, -, hf, -⟩
  exact Frame.not_leads_of_error h ⟨f, hf⟩

/-- Telling the application does not panic. -/
theorem not_panicked_of_tell {offer : Offer} {pc : ClientPc} {ok : Bool}
    (hpc : ¬ pc.panicked = true) (h : c.tell offer pc ok input = some (c', e)) :
    ¬ c'.pc.panicked = true := by
  obtain ⟨reply, -, heq⟩ := Option.map_eq_some_iff.mp h
  obtain ⟨rfl, -⟩ := Prod.mk.inj heq
  cases ok with
  | true => exact hpc
  | false => exact Bool.false_ne_true

theorem panicked_iff (h : c.step broken input a = some (c', e)) :
    c'.pc.panicked = true ↔ c.Trips input a := by
  cases a with
  | request paddingLen =>
    refine iff_of_false ?_ id
    simp only [step] at h
    split at h
    · split at h
      · obtain ⟨rfl, -⟩ := Machine.next_inj h
        exact Bool.false_ne_true
      · obtain ⟨rfl, -⟩ := Machine.next_inj h
        exact Bool.false_ne_true
    · cases h
  | send n =>
    refine iff_of_false ?_ id
    simp only [step] at h
    split at h
    · rename_i rest _
      obtain ⟨rfl, -⟩ := Machine.next_inj h
      exact writeAll_induct (P := fun pc => ¬ pc.panicked = true) ClientPc.send .recv rest n
        (fun _ => Bool.false_ne_true) Bool.false_ne_true
    · cases h
  | sendFail =>
    refine iff_of_false ?_ id
    simp only [step] at h
    split at h
    · obtain ⟨rfl, -⟩ := Machine.next_inj h
      exact Bool.false_ne_true
    · cases h
  | recv =>
    simp only [step] at h
    split at h
    · split at h
      · rename_i f rest hrecv
        obtain ⟨rfl, -⟩ := Machine.next_inj h
        rw [goto, panicked_answer_iff]
        refine and_congr_right fun _ => ⟨?_, ?_⟩
        · rintro ⟨oe, hf⟩
          exact ⟨f, oe, Frame.leads_of_recv hrecv, hf⟩
        · rintro ⟨g, oe, hg, hoe⟩
          rw [hg.unique hrecv] at hoe
          exact ⟨oe, hoe⟩
      · rename_i hrecv
        split at h
        · obtain ⟨rfl, -⟩ := Machine.next_inj h
          exact iff_of_false Bool.false_ne_true (not_trips_of_error hrecv)
        · cases h
      · rename_i hrecv
        obtain ⟨rfl, -⟩ := Machine.next_inj h
        exact iff_of_false Bool.false_ne_true (not_trips_of_error hrecv)
    · cases h
  | recvFail =>
    refine iff_of_false ?_ id
    simp only [step] at h
    split at h
    · obtain ⟨rfl, -⟩ := Machine.next_inj h
      exact Bool.false_ne_true
    · cases h
  | reply ok =>
    refine iff_of_false ?_ id
    simp only [step] at h
    split at h
    · refine not_panicked_of_tell ?_ h
      exact Bool.false_ne_true
    · refine not_panicked_of_tell ?_ h
      exact Bool.false_ne_true
    · cases h
  | forward a =>
    simp only [step] at h
    split at h
    · rename_i fw hc
      obtain ⟨⟨next, e'⟩, hstep, heq⟩ := Option.map_eq_some_iff.mp h
      have hloop := ForwardLoop.panicked_iff hstep
      rw [Trips, hc]
      rcases next with exit | fw'
      · obtain ⟨rfl, -⟩ := Prod.mk.inj heq
        exact hloop
      · obtain ⟨rfl, -⟩ := Prod.mk.inj heq
        exact hloop
    · cases h

end Client

/-- The client's end and any peer. -/
def clientHandler : Handler Client ClientAct Obs where
  step := Client.step
  panicked c := c.pc.panicked
  trips := Client.Trips
  panicked_iff _ _ _ _ _ _ := Client.panicked_iff

/-! ### The server

The handler unwraps. Whatever goes wrong in the handshake is a panic, and whatever the loop
returns as an error is one too. A request that is none is an error without a panic. -/

namespace Server

/-- The server's handler has panicked. -/
def panicked : Server → Bool
  | .done exit => exit.panicked
  | _ => false

/-- The steps that panic: receiving fails, the offer is too long or is not sent, or the loop
ends. -/
def Trips (s : Server) (input : List UInt8) : ServerAct → Prop
  | .recv => ¬ ∃ f : Frame, f.Leads input
  | .recvFail => True
  | .connect r paddingLen =>
    65535 < (serialize (.fromProtocol (.tcpOffer (offerOf r)) paddingLen)).length
  | .send _ => False
  | .sendFail => True
  | .offered => False
  | .forward a =>
    match s with
    | .forward fw => fw.Ends input a
    | _ => False

variable {s s' : Server} {broken : Bool} {input : List UInt8} {a : ServerAct} {e : Effect Obs}

/-- After `Frame::recv`. -/
theorem not_panicked_handle (req : Protocol) : ¬ (handle req).panicked = true := by
  cases req with
  | tcpConnect dst port => exact Bool.false_ne_true
  | tcpOffer id => exact Bool.false_ne_true
  | tcpData id payload => exact Bool.false_ne_true

theorem panicked_iff (h : s.step broken input a = some (s', e)) :
    s'.panicked = true ↔ s.Trips input a := by
  cases a with
  | recv =>
    simp only [step] at h
    split at h
    · split at h
      · rename_i f rest hrecv
        obtain ⟨rfl, -⟩ := Machine.next_inj h
        exact iff_of_false (not_panicked_handle _)
          fun hno => hno ⟨f, Frame.leads_of_recv hrecv⟩
      · rename_i hrecv
        split at h
        · obtain ⟨rfl, -⟩ := Machine.next_inj h
          exact iff_of_true rfl (Frame.not_leads_of_error hrecv)
        · cases h
      · rename_i hrecv
        obtain ⟨rfl, -⟩ := Machine.next_inj h
        exact iff_of_true rfl (Frame.not_leads_of_error hrecv)
    · cases h
  | recvFail =>
    simp only [step] at h
    split at h
    · obtain ⟨rfl, -⟩ := Machine.next_inj h
      exact iff_of_true rfl trivial
    · cases h
  | connect r paddingLen =>
    simp only [step] at h
    split at h
    · cases hf : (Frame.fromProtocol (.tcpOffer (offerOf r)) paddingLen).fits with
      | true =>
        rw [Frame.message_of_fits hf] at h
        obtain ⟨rfl, -⟩ := Machine.next_inj h
        exact iff_of_false Bool.false_ne_true (Nat.not_lt.mpr (Frame.fits_iff.mp hf))
      | false =>
        rw [Frame.message_of_not_fits hf] at h
        obtain ⟨rfl, -⟩ := Machine.next_inj h
        exact iff_of_true rfl (Frame.fits_eq_false_iff.mp hf)
    · cases h
  | send n =>
    refine iff_of_false ?_ id
    simp only [step] at h
    split at h
    · rename_i id rest
      obtain ⟨rfl, -⟩ := Machine.next_inj h
      exact writeAll_induct (P := fun s => ¬ s.panicked = true) (offer id) (.offered id) rest n
        (fun _ => Bool.false_ne_true) Bool.false_ne_true
    · cases h
  | sendFail =>
    simp only [step] at h
    split at h
    · obtain ⟨rfl, -⟩ := Machine.next_inj h
      exact iff_of_true rfl trivial
    · cases h
  | offered =>
    refine iff_of_false ?_ id
    simp only [step] at h
    split at h
    · obtain ⟨rfl, -⟩ := Machine.next_inj h
      exact Bool.false_ne_true
    · obtain ⟨rfl, -⟩ := Machine.next_inj h
      exact Bool.false_ne_true
    · cases h
  | forward a =>
    simp only [step] at h
    split at h
    · rename_i fw
      obtain ⟨⟨next, e'⟩, hstep, heq⟩ := Option.map_eq_some_iff.mp h
      -- the loop never returns `Ok`, so whatever ends it is unwrapped to a panic
      cases ForwardLoop.outcome_of_step hstep with
      | goesOn hends _ =>
        obtain ⟨rfl, -⟩ := Prod.mk.inj heq
        exact iff_of_false Bool.false_ne_true hends
      | returns hends _ =>
        obtain ⟨rfl, -⟩ := Prod.mk.inj heq
        exact iff_of_true rfl hends
      | panics hends _ =>
        obtain ⟨rfl, -⟩ := Prod.mk.inj heq
        exact iff_of_true rfl hends
    · cases h

end Server

/-- The server's handler and any peer. -/
def serverHandler : Handler Server ServerAct Obs where
  step := Server.step
  panicked := Server.panicked
  trips := Server.Trips
  panicked_iff _ _ _ _ _ _ := Server.panicked_iff

/-! ### When remote bytes panic a task -/

/-- **When remote bytes panic no task.** Whatever the peers put on the streams and whenever these
break, the server's handler, the client's end and the loop panic at no moment of their runs
exactly when none of their steps trips. -/
theorem neverPanics_iff {front : FrontEnd} {dst : String} {port : UInt16} {offerId : BitVec 128}
    {hasDeadline : Bool} {trs : serverHandler.Trace} {s : Exposed Server}
    {trc : clientHandler.Trace} {c : Exposed Client} {trl : loopHandler.Trace}
    {l : Exposed ForwardLoop.Next}
    (hs : serverHandler.machine.Run (.start .recv) trs s)
    (hc : clientHandler.machine.Run (.start (.new front dst port)) trc c)
    (hl : loopHandler.machine.Run (.start (.ok (.start offerId hasDeadline))) trl l) :
    (serverHandler.NeverPanics .recv trs ↔ ∀ e ∈ trs, ¬ serverHandler.TripsAt e) ∧
    (clientHandler.NeverPanics (.new front dst port) trc ↔
      ∀ e ∈ trc, ¬ clientHandler.TripsAt e) ∧
    (loopHandler.NeverPanics (.ok (.start offerId hasDeadline)) trl ↔
      ∀ e ∈ trl, ¬ loopHandler.TripsAt e) := by
  refine ⟨?_, ?_, ?_⟩
  · exact Handler.neverPanics_iff_of_run rfl hs
  · exact Handler.neverPanics_iff_of_run rfl hc
  · exact Handler.neverPanics_iff_of_run rfl hl

/-- The bytes of a frame with padding of one byte. -/
def remoteBytes (protocol : Protocol) : List UInt8 := Frame.stream.enc (.fromProtocol protocol 1)

/-- A connection over which one byte arrives at each end, and a loop that the stream breaks. -/
theorem neverPanics_iff_quiet :
    (∃ (tr : serverHandler.Trace) (x : Exposed Server),
      serverHandler.machine.Run (.start .recv) tr x ∧ x.input = [] ∧
        ∀ e ∈ tr, ¬ serverHandler.TripsAt e) ∧
    (∃ (tr : clientHandler.Trace) (x : Exposed Client),
      clientHandler.machine.Run (.start (.new .http "" 80)) tr x ∧ x.input = [] ∧
        ∀ e ∈ tr, ¬ clientHandler.TripsAt e) ∧
    ∃ (tr : loopHandler.Trace) (x : Exposed ForwardLoop.Next),
      loopHandler.machine.Run (.start (.ok (.start 7 false))) tr x ∧ x.broken = true ∧
        ∀ e ∈ tr, ¬ loopHandler.TripsAt e := by
  obtain ⟨trs, s, hs, -, hsin, hsq⟩ := Machine.exists_run_of_exec serverHandler.machine
    (.start .recv)
    [.put (remoteBytes (.tcpConnect "" 80)), .step .recv,
      .step (.connect (.ok 7) ⟨1, by decide⟩), .step (.send 100), .step .offered,
      .step (.forward (.downCheck false)), .put (remoteBytes (.tcpData 7 [1])),
      .step (.forward .recv), .step (.forward (.write 1))]
    (P := fun tr x => x.input = [] ∧ ∀ e ∈ tr, serverHandler.panicked e.post.handler = false)
    (by decide)
  obtain ⟨trc, c, hc, -, hcin, hcq⟩ := Machine.exists_run_of_exec clientHandler.machine
    (.start (.new .http "" 80))
    [.step (.request ⟨1, by decide⟩), .step (.send 100), .put (remoteBytes (.tcpOffer (.ok 7))),
      .step .recv, .step (.reply true), .step (.forward (.downCheck false)),
      .put (remoteBytes (.tcpData 7 [2])), .step (.forward .recv),
      .step (.forward (.write 1))]
    (P := fun tr x => x.input = [] ∧ ∀ e ∈ tr, clientHandler.panicked e.post.handler = false)
    (by decide)
  obtain ⟨trl, l, hl, -, hlbr, hlq⟩ := Machine.exists_run_of_exec loopHandler.machine
    (.start (.ok (.start 7 false)))
    [.step (.downCheck false), .put (remoteBytes (.tcpData 7 [3])), .brk 10, .step .recv]
    (P := fun tr x => x.broken = true ∧ ∀ e ∈ tr, loopHandler.panicked e.post.handler = false)
    (by decide)
  obtain ⟨hsiff, hciff, hliff⟩ := neverPanics_iff hs hc hl
  refine ⟨⟨trs, s, hs, hsin, ?_⟩, ⟨trc, c, hc, hcin, ?_⟩, ⟨trl, l, hl, hlbr, ?_⟩⟩
  · exact hsiff.mp ((Handler.neverPanics_iff_states rfl hs).mpr hsq)
  · exact hciff.mp ((Handler.neverPanics_iff_states rfl hc).mpr hcq)
  · exact hliff.mp ((Handler.neverPanics_iff_states rfl hl).mpr hlq)

/-- A frame of length zero, which does not decode. -/
def undecodable : List (ExposedAct ServerAct) := [.put [0, 0], .step .recv]

/-- The server could not connect. -/
def refused : List (ExposedAct ClientAct) :=
  [.step (.request ⟨1, by decide⟩), .step (.send 100),
    .put (remoteBytes (.tcpOffer (.error (.unableConnect .serverFailure)))), .step .recv]

/-- Data of connection 8 is sent to connection 7. -/
def misdirected : List (ExposedAct ForwardAct) :=
  [.step (.downCheck false), .put (remoteBytes (.tcpData 8 [])), .step .recv]

/-- Two bytes panic the server's handler at its `unwrap`, an offer that is an error the HTTP front
end at its `todo!`, and data of another connection the loop at its assertion. -/
theorem neverPanics_fails :
    (∃ (tr : serverHandler.Trace) (x : Exposed Server),
      serverHandler.machine.Run (.start .recv) tr x ∧ tr.map Event.act = undecodable ∧
        ¬ serverHandler.NeverPanics .recv tr) ∧
    (∃ (tr : clientHandler.Trace) (x : Exposed Client),
      clientHandler.machine.Run (.start (.new .http "" 80)) tr x ∧ tr.map Event.act = refused ∧
        ¬ clientHandler.NeverPanics (.new .http "" 80) tr) ∧
    ∃ (tr : loopHandler.Trace) (x : Exposed ForwardLoop.Next),
      loopHandler.machine.Run (.start (.ok (.start 7 false))) tr x ∧
        tr.map Event.act = misdirected ∧ ¬ loopHandler.NeverPanics (.ok (.start 7 false)) tr := by
  obtain ⟨trs, s, hs, hsacts, hsp⟩ := Machine.exists_run_of_exec serverHandler.machine
    (.start .recv) undecodable
    (P := fun tr _ => ¬ ∀ e ∈ tr, serverHandler.panicked e.post.handler = false) (by decide)
  obtain ⟨trc, c, hc, hcacts, hcp⟩ := Machine.exists_run_of_exec clientHandler.machine
    (.start (.new .http "" 80)) refused
    (P := fun tr _ => ¬ ∀ e ∈ tr, clientHandler.panicked e.post.handler = false) (by decide)
  obtain ⟨trl, l, hl, hlacts, hlp⟩ := Machine.exists_run_of_exec loopHandler.machine
    (.start (.ok (.start 7 false))) misdirected
    (P := fun tr _ => ¬ ∀ e ∈ tr, loopHandler.panicked e.post.handler = false) (by decide)
  refine ⟨⟨trs, s, hs, hsacts, ?_⟩, ⟨trc, c, hc, hcacts, ?_⟩, ⟨trl, l, hl, hlacts, ?_⟩⟩
  · rwa [Handler.neverPanics_iff_states rfl hs]
  · rwa [Handler.neverPanics_iff_states rfl hc]
  · rwa [Handler.neverPanics_iff_states rfl hl]

end ObfsWs
