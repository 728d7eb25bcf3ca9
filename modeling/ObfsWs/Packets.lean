import ObfsWs.Duplex
import ObfsWs.Pipe.FlushClose
import ObfsWs.Pipe.ReadBuffer

/-!
# Two pipes as a packet link

The multiplexer above a pipe does not use it as a stream of bytes: it writes one packet and reads
one packet at a time, into a buffer that is large enough for any packet. Used like this the pair
keeps the boundaries of the messages, however many handles are cloned and dropped: no leftover ever
arises, so there is nothing that a clone could copy and nothing that a read could drain in vain.

The accounts are kept for messages that reads *take* out of the channel, which says nothing about
the size of a buffer: `packets_of_run` holds of every run. That a message which is taken is also
*returned*, as a whole, is what the room in the buffers is for (`whole_of_run`).

## Main definitions

* `Duplex.messages` — the messages between the writes and the reads
* `Duplex.takenMessages`, `Duplex.readMessages` — what the reads took, and what they returned
* `Duplex.drivers` — the steps of the loops, the websocket and one reader

## Main results

* `Duplex.packets_of_run` — what was taken is where the written messages begin
* `Duplex.packets_whole` — with room in every buffer so is what was read, message by message, and
  while nothing has broken the rest is on its way
* `Duplex.packets_arrive` — from every state in which nothing has broken all that no read has taken
  can be read

## What is left open

`packets_arrive` is about one continuation: nothing is said about a scheduler that leaves a loop or
the reader out for ever. The reading handle has to begin without a leftover, because a leftover and
the next message come in one piece; the leftovers of other handles do not matter.

## Implementation notes

The progress proof ranks a state by the messages that still have to move and by where the loops
stand, and shows for each of the six positions of the two loops and for the link which step comes
next. A position in which no step is enabled would be a deadlock; that there is none is what the
case analysis is about.
-/

namespace ObfsWs

variable {β : Type}

/-- The message that a read returned: `buf[..n]` of `Ready(Ok(n))`. -/
def Out.reads : Out β → List (List β)
  | .read (.ready (.ok n)) buf => [buf.take n]
  | _ => []

/-- What `send_loop` has still to do by itself, in the units of `Duplex.rank`. -/
def SendPc.work : SendPc β → ℕ
  | .head => 1
  | .send _ => 10
  | .flush => 2
  | _ => 0

/-- What `recv_loop` has still to do by itself, in the units of `Duplex.rank`. -/
def RecvPc.work : RecvPc β → ℕ
  | .head => 1
  | .send _ => 5
  | _ => 0

/-- The buffer of a read takes a message of `n` bytes. -/
def Act.roomy (n : ℕ) : Act β → Bool
  | .pollRead _ _ buf => n ≤ buf.length
  | _ => true

/-- The buffer of a read takes a message of `n` bytes. -/
def DuplexAct.roomy (n : ℕ) : DuplexAct β → Bool
  | .right x => x.roomy n
  | _ => true

namespace Pipe

variable {p p' : Pipe β} {a : Act β} {o : Out β}

/-- No handle has a leftover. -/
def Whole (p : Pipe β) : Prop := ∀ recvBuf ∈ bufs p, recvBuf = []

theorem whole_new (peerUrl peerMetadata : String) :
    Whole (new peerUrl peerMetadata : Pipe β) := by
  intro recvBuf hmem
  exact List.mem_singleton.mp hmem

theorem Whole.recvBuf {h : ℕ} {hd : Handle β} (hw : Whole p) (hh : p.handle? h = some hd) :
    hd.recvBuf = [] :=
  hw _ (List.mem_of_getElem? (bufs_of_handle hh))

theorem Whole.set {h : ℕ} (hw : Whole p) (hl : bufs p' = (bufs p).set h []) : Whole p' := by
  intro recvBuf hmem
  rw [hl] at hmem
  rcases List.mem_or_eq_of_mem_set hmem with hmem | rfl
  · exact hw _ hmem
  · rfl

theorem reads_eq_nil (h : ∀ h ctx buf, a ≠ .pollRead h ctx buf) (hr : Rule p a o p') :
    o.reads = [] := by
  cases hr with
  | read => exact absurd rfl (h _ _ _)
  | _ => rfl

/-- A read without a leftover into a buffer that takes every message returns one message whole, or
nothing. -/
theorem readOutcome_whole {ch : Chan (List β) Waker} {buf : List β}
    (hfit : ∀ msg ∈ ch.queue, msg.length ≤ buf.length) :
    let r := readOutcome [] ch buf
    r.recvBuf = [] ∧ ch.queue = Out.reads (.read r.res r.buf) ++ r.chan.queue := by
  cases hr : ch.tryRecv with
  | error e =>
    have hq := (Chan.tryRecv_error_iff.mp hr).1
    rw [readOutcome_vain (Nat.zero_le _) hq]
    exact ⟨rfl, rfl⟩
  | ok m =>
    obtain ⟨msg, ch'⟩ := m
    have hq := (Chan.tryRecv_ok hr).1
    have hle : msg.length ≤ buf.length := hfit msg (hq ▸ List.mem_cons_self)
    rw [readOutcome_next (Nat.zero_le _) hr]
    constructor
    · exact List.drop_eq_nil_of_le hle
    · rw [hq]
      simp [Out.reads, List.take_of_length_le hle]

/-- **Message by message**: with no leftover and reads that take every message, a step moves whole
messages only. -/
theorem queue_of_rule (hw : Whole p) {n : ℕ} (hfit : ∀ msg ∈ p.innerRecv.queue, msg.length ≤ n)
    (ha : a.roomy n = true) (hr : Rule p a o p') :
    Whole p' ∧ p.innerRecv.queue ++ o.puts = o.reads ++ p'.innerRecv.queue := by
  cases readRule_of_rule hr with
  | quiet hread _ hput _ hbufs hq =>
    refine ⟨by rwa [Whole, hbufs], ?_⟩
    rw [reads_eq_nil hread hr, hput, hq, List.append_nil, List.nil_append]
  | put hbufs hq =>
    refine ⟨by rwa [Whole, hbufs], ?_⟩
    rw [hq]
    rfl
  | @read h ctx buf hd r _ hh hres hbufs hq =>
    have hle : n ≤ buf.length := of_decide_eq_true ha
    have hread := readOutcome_whole fun msg hmsg => (hfit msg hmsg).trans hle
    rw [← hw.recvBuf hh, ← hres] at hread
    obtain ⟨hnil, hqueue⟩ := hread
    refine ⟨hw.set (h := h) ?_, ?_⟩
    · rw [hbufs, hnil, hw.recvBuf hh]
    · rw [hq, ← hqueue]
      exact List.append_nil _
  | @clone h hd _ hh hbufs hq =>
    refine ⟨?_, ?_⟩
    · intro recvBuf hmem
      rw [hbufs] at hmem
      rcases List.mem_append.mp hmem with hmem | hmem
      · exact hw _ hmem
      · rw [List.mem_singleton.mp hmem, hw.recvBuf hh]
    · rw [hq]
      exact List.append_nil _
  | drop hbufs hq =>
    refine ⟨hw.set hbufs, ?_⟩
    rw [hq]
    exact List.append_nil _

/-! ### The steps that move messages

Four steps of `send_loop`, four of `recv_loop` and a reader, and one of the websocket. Each is
enabled under a condition on the positions of the loops and on the channels, and each moves one
message on by one place or brings a loop nearer to moving one. -/

/-- The steps of `send_loop` that move messages. -/
def sendActs : List (Act β) := [.sendHead, .sendRecv, .sinkTake, .sinkFlush]

/-- The steps of `recv_loop` that move messages, and the reads of the handle `h`. -/
def recvActs (h : ℕ) (ctx : Waker) (buf : List β) : List (Act β) :=
  [.recvHead, .recvNext, .recvSend, .pollRead h ctx buf]

/-- What `send_loop` leaves alone when it moves messages. -/
theorem frame_of_sendActs (ha : a ∈ sendActs) (hr : Rule p a o p') :
    p'.closed = p.closed ∧ p'.handles = p.handles ∧ p'.writable = p.writable ∧
      o.accepts = [] := by
  simp only [sendActs, List.mem_cons, List.not_mem_nil, or_false] at ha
  obtain rfl | rfl | rfl | rfl := ha <;> cases hr
  case sendPark hch =>
    subst hch
    exact ⟨rfl, rfl, rfl, rfl⟩
  all_goals exact ⟨rfl, rfl, rfl, rfl⟩

/-- The receiving side of an open connection, with an idle handle that has no leftover. -/
structure Receiving (h : ℕ) (p : Pipe β) : Prop where
  inv : p.Inv
  cap : 0 < p.innerRecv.cap
  closed : p.closed = false
  idle : p.handle? h = some ⟨[], none⟩
  /-- The end of the stream has not arrived. -/
  goesOn : none ∉ p.incoming

theorem goesOn_of_rule (hgo : none ∉ p.incoming) (ha : a.ends = false) (hr : Rule p a o p') :
    none ∉ p'.incoming := by
  cases hr with
  | recvBinary _ _ hin | recvSkip _ _ hin | recvEnd _ _ hin =>
    exact fun hmem => hgo (hin ▸ List.mem_cons_of_mem _ hmem)
  | @arrive item =>
    show none ∉ p.incoming ++ [item]
    rw [List.mem_append, List.mem_singleton]
    rintro (hmem | rfl)
    · exact hgo hmem
    · cases ha
  | drop _ hp' _ | dropLast _ hp' _ =>
    subst hp'
    exact hgo
  | _ => exact hgo

theorem Receiving.alive {h : ℕ} (hp : Receiving h p) : p.alive = true := alive_of_handle hp.idle

theorem Inv.racing (hi : Inv p) (hc : p.closed = false) (ha : p.alive = true) :
    p.racing = true := by
  obtain ⟨hs, hr, -⟩ := hi.open hc ha
  refine racing_iff.mpr ⟨Bool.eq_false_iff.mpr fun hf => ?_, hs, hr⟩
  simp [(hi.finished hf).1, SendPc.stopped] at hs

theorem Receiving.step {h : ℕ} {ctx : Waker} {buf : List β} (hp : Receiving h p)
    (hfit : ∀ msg ∈ p.innerRecv.queue, msg.length ≤ buf.length)
    (ha : a ∈ recvActs h ctx buf) (hr : Rule p a o p') : Receiving h p' := by
  have hinv := hp.inv.step hr
  obtain ⟨hi, hcap, hc, hh, hgo⟩ := hp
  simp only [recvActs, List.mem_cons, List.not_mem_nil, or_false] at ha
  have hgo' : none ∉ p'.incoming := by
    refine goesOn_of_rule hgo ?_ hr
    obtain rfl | rfl | rfl | rfl := ha <;> rfl
  obtain rfl | rfl | rfl | rfl := ha
  · cases hr with
    | recvHead => exact ⟨hinv, hcap, hc, hh, hgo'⟩
  · cases hr with
    | recvBinary | recvSkip => exact ⟨hinv, hcap, hc, hh, hgo'⟩
    | recvEnd _ _ hin => exact absurd (hin ▸ List.mem_cons_self) hgo
  · cases hr with
    | recvPut _ _ hsend =>
      exact ⟨hinv, by rwa [(Chan.trySend_ok hsend).2.2.2.2.2.1], hc, hh, hgo'⟩
    | recvHungUp => exact ⟨hinv, hcap, hc, hh, hgo'⟩
  · cases hr with
    | @read _ _ _ recvBuf r hh' hres =>
      obtain rfl : recvBuf = [] := congrArg Handle.recvBuf (Option.some.inj (hh'.symm.trans hh))
      refine ⟨hinv, ?_, hc, ?_, hgo'⟩
      · rw [hres]
        show 0 < (readOutcome [] p.innerRecv buf).chan.cap
        rwa [(readOutcome_chan [] p.innerRecv buf).2.2.1]
      · have hlt := lt_of_handle hh
        have hnil : r.recvBuf = [] := hres ▸ (readOutcome_whole hfit).1
        simp [handle?, setHandle, hlt, hnil]

/-- The steps of `recv_loop` and the reads of the one handle move whole messages. -/
theorem queue_of_recvActs {h : ℕ} {ctx : Waker} {buf : List β} (hp : Receiving h p)
    (hfit : ∀ msg ∈ p.innerRecv.queue, msg.length ≤ buf.length)
    (ha : a ∈ recvActs h ctx buf) (hr : Rule p a o p') :
    p.innerRecv.queue ++ o.puts = o.reads ++ p'.innerRecv.queue := by
  simp only [recvActs, List.mem_cons, List.not_mem_nil, or_false] at ha
  obtain rfl | rfl | rfl | rfl := ha <;> cases hr
  case recvPut hsend =>
    rw [(Chan.trySend_ok hsend).2.2.1]
    rfl
  case read recvBuf r hh hres =>
    obtain rfl : recvBuf = [] := congrArg Handle.recvBuf (Option.some.inj (hh.symm.trans hp.idle))
    have hqueue := (readOutcome_whole hfit).2
    rw [← hres] at hqueue
    rw [hqueue]
    exact List.append_nil _
  all_goals exact List.append_nil _

end Pipe

namespace Duplex

open LossyStream (Account)

variable {d d' : Duplex β} {x : DuplexAct β} {o : Out β}

/-- The recorded steps of a run of the pair. -/
abbrev Trace (β : Type) := List (Event (Duplex β) (DuplexAct β) (Out β))

/-- The messages that can still be read. -/
def messages (d : Duplex β) : List (List β) := d.b.innerRecv.queue ++ d.onWay

/-- The messages of the writes that did not find the channel full. -/
def admittedMessages (tr : Trace β) : List (List β) :=
  tr.flatMap fun e =>
    match e.act with
    | .left x => e.pre.a.admits x e.out
    | _ => []

/-- The messages that the reads of the receiving pipe took out of its channel. -/
def takenMessages (tr : Trace β) : List (List β) :=
  tr.flatMap fun e =>
    match e.act with
    | .right x => Event.dequeues ⟨e.pre.b, x, e.out, e.post.b⟩
    | _ => []

/-- The messages that the reads of the receiving pipe returned. -/
def readMessages (tr : Trace β) : List (List β) :=
  tr.flatMap fun e =>
    match e.act with
    | .right _ => e.out.reads
    | _ => []

@[simp] theorem admittedMessages_snoc (tr : Trace β)
    (e : Event (Duplex β) (DuplexAct β) (Out β)) :
    admittedMessages (tr ++ [e]) = admittedMessages tr ++
      match e.act with
      | .left x => e.pre.a.admits x e.out
      | _ => [] := by
  simp [admittedMessages]

@[simp] theorem takenMessages_snoc (tr : Trace β)
    (e : Event (Duplex β) (DuplexAct β) (Out β)) :
    takenMessages (tr ++ [e]) = takenMessages tr ++
      match e.act with
      | .right x => Event.dequeues ⟨e.pre.b, x, e.out, e.post.b⟩
      | _ => [] := by
  simp [takenMessages]

@[simp] theorem readMessages_snoc (tr : Trace β)
    (e : Event (Duplex β) (DuplexAct β) (Out β)) :
    readMessages (tr ++ [e]) = readMessages tr ++
      match e.act with
      | .right _ => e.out.reads
      | _ => [] := by
  simp [readMessages]

/-- What holds of the pair after the steps `tr`, whatever the reads take. -/
structure Packets (tr : Trace β) (d : Duplex β) : Prop where
  inv : d.a.Inv
  account : Account (takenMessages tr) d.messages (admittedMessages tr) d.broken

theorem packets_new (ua ma ub mb : String) :
    Packets [] (new (.new ua ma) (.new ub mb) : Duplex β) where
  inv := Pipe.inv_new ua ma
  account := ⟨List.prefix_rfl, fun _ => rfl⟩

/-- A step of the sending pipe. -/
theorem Packets.left {tr : Trace β} {x : Act β} {a' : Pipe β} (hp : Packets tr d)
    (hr : Pipe.Rule d.a x o a') (hd : d' = { d with a := a', link := d.link ++ o.hands }) :
    Packets (tr ++ [⟨d, .left x, o, d'⟩]) d' := by
  obtain ⟨hi, hacc⟩ := hp
  obtain ⟨hpre, hmono, heq⟩ := onWay_left hi hr hd
  have ha : d'.a = a' := by rw [hd]
  have hb : d'.b = d.b := by rw [hd]
  have ht : (if d.broken then d.messages else d.messages ++ d.a.admits x o) =
      d.b.innerRecv.queue ++ if d.broken then d.onWay else d.onWay ++ d.a.admits x o := by
    split <;> simp [messages]
  refine ⟨ha ▸ hi.step hr, ?_⟩
  rw [takenMessages_snoc, admittedMessages_snoc, List.append_nil]
  refine hacc.write ?_ hmono fun hbroken => ?_
  · rw [ht, messages, hb]
    exact (List.prefix_append_right_inj _).mpr hpre
  · rw [ht, messages, hb, heq hbroken]

/-- A step of the receiving pipe. -/
theorem Packets.right {tr : Trace β} {x : Act β} {b' : Pipe β} (hp : Packets tr d)
    (hsilent : x.silent = true) (hr : Pipe.Rule d.b x o b')
    (hd : d' = { d with b := b', ended := d.ended || x.ends }) :
    Packets (tr ++ [⟨d, .right x, o, d'⟩]) d' := by
  obtain ⟨hi, hacc⟩ := hp
  have hqueue := Pipe.queue_of_readRule (Pipe.readRule_of_rule hr)
  obtain ⟨t, hsplit, hpre, hmono, heq⟩ := onWay_right hsilent hr hd
  have ha : d'.a = d.a := by rw [hd]
  have hb : d'.b = b' := by rw [hd]
  have hmessages : d.messages =
      Event.dequeues ⟨d.b, x, o, b'⟩ ++ (b'.innerRecv.queue ++ t) := by
    rw [messages, hsplit, ← List.append_assoc, hqueue, List.append_assoc]
  refine ⟨ha ▸ hi, ?_⟩
  rw [takenMessages_snoc, admittedMessages_snoc, List.append_nil, hb]
  refine hacc.read hmessages ?_ hmono fun hbroken => ?_
  · rw [messages, hb]
    exact (List.prefix_append_right_inj _).mpr hpre
  · rw [messages, hb, heq hbroken]

/-- A message arrives. -/
theorem Packets.deliver {tr : Trace β} {msg : List β} {rest : List (List β)} {b' : Pipe β}
    (hp : Packets tr d) (he : d.ended = false) (hlink : d.link = msg :: rest)
    (hr : Pipe.Rule d.b (.arrive (some (.ok (.binary msg)))) o b')
    (hd : d' = { d with b := b', link := rest }) :
    Packets (tr ++ [⟨d, .deliver, o, d'⟩]) d' := by
  obtain ⟨hi, hacc⟩ := hp
  obtain ⟨hway, hbroken⟩ := onWay_deliver he hlink hr hd
  cases hr with
  | arrive =>
    have ha : d'.a = d.a := by rw [hd]
    have hmessages : d'.messages = d.messages := by rw [messages, messages, hway, hd]
    refine ⟨ha ▸ hi, ?_⟩
    rwa [takenMessages_snoc, admittedMessages_snoc, List.append_nil, List.append_nil, hmessages,
      hbroken]

/-- One step. -/
theorem Packets.step {tr : Trace β} {x : DuplexAct β} (hp : Packets tr d) (hr : Rule d x o d') :
    Packets (tr ++ [⟨d, x, o, d'⟩]) d' := by
  cases hr with
  | left hr => exact hp.left hr rfl
  | right hsilent hr => exact hp.right hsilent hr rfl
  | deliver he hlink hr => exact hp.deliver he hlink hr rfl

/-- **What the reads have taken is where the messages written begin**, and while nothing has broken
the rest is on its way. -/
theorem packets_of_run {ua ma ub mb : String} {tr : Trace β}
    (h : (machine β).Run (new (.new ua ma) (.new ub mb)) tr d) : Packets tr d := by
  refine h.induct Packets (packets_new ua ma ub mb) ?_
  intro tr d x d' o _ hp hs
  exact hp.step (rule_of_step hs)

/-- While the reads take every message, no leftover arises. -/
theorem whole_of_rule {n : ℕ} (hw : d.b.Whole)
    (hfit : ∀ msg ∈ d.b.innerRecv.queue, msg.length ≤ n) (hx : x.roomy n = true)
    (hr : Rule d x o d') : d'.b.Whole ∧
      ∀ tr : Trace β, readMessages tr = takenMessages tr →
        readMessages (tr ++ [⟨d, x, o, d'⟩]) = takenMessages (tr ++ [⟨d, x, o, d'⟩]) := by
  cases hr with
  | left =>
    refine ⟨hw, fun tr heq => ?_⟩
    rw [readMessages_snoc, takenMessages_snoc, heq]
  | right _ hr =>
    obtain ⟨hw', hqueue⟩ := Pipe.queue_of_rule hw hfit hx hr
    refine ⟨hw', fun tr heq => ?_⟩
    have hreads := List.append_cancel_right
      (hqueue.symm.trans (Pipe.queue_of_readRule (Pipe.readRule_of_rule hr)))
    rw [readMessages_snoc, takenMessages_snoc, heq]
    exact congrArg (takenMessages tr ++ ·) hreads
  | deliver _ _ hr =>
    cases hr with
    | arrive =>
      refine ⟨hw, fun tr heq => ?_⟩
      rw [readMessages_snoc, takenMessages_snoc, heq]

/-- **What is taken is returned**, as long as the reads take every message. -/
theorem whole_of_run {ua ma ub mb : String} {tr : Trace β} {n : ℕ}
    (h : (machine β).Run (new (.new ua ma) (.new ub mb)) tr d)
    (hfit : ∀ msg ∈ admittedMessages tr, msg.length ≤ n)
    (hroom : ∀ e ∈ tr, e.act.roomy n = true) :
    d.b.Whole ∧ readMessages tr = takenMessages tr := by
  refine h.induct (fun tr d => (∀ msg ∈ admittedMessages tr, msg.length ≤ n) →
    (∀ e ∈ tr, e.act.roomy n = true) → d.b.Whole ∧ readMessages tr = takenMessages tr)
    ?_ ?_ hfit hroom
  · intro _ _
    exact ⟨Pipe.whole_new ub mb, rfl⟩
  · intro tr d x d' o hrun ih hs hfit hroom
    have hfit' : ∀ msg ∈ admittedMessages tr, msg.length ≤ n := fun msg hmsg =>
      hfit msg (by rw [admittedMessages_snoc]; exact List.mem_append_left _ hmsg)
    have hroom' : ∀ e ∈ tr, e.act.roomy n = true := fun e he =>
      hroom e (List.mem_append_left _ he)
    have hx : x.roomy n = true := hroom _ (List.mem_append_right _ (List.mem_singleton_self _))
    have hqueue : ∀ msg ∈ d.b.innerRecv.queue, msg.length ≤ n := fun msg hmsg =>
      hfit' msg ((packets_of_run hrun).account.mem_kept (List.mem_append_left _ hmsg))
    obtain ⟨hw, heq⟩ := ih hfit' hroom'
    obtain ⟨hw', hstep⟩ := whole_of_rule hw hqueue hx (rule_of_step hs)
    exact ⟨hw', hstep tr heq⟩

/-- **A packet link.** If every message fits the buffer of every read, then the messages read are
where the messages written begin, each as a whole and in order, whatever is cloned and dropped;
and while nothing has broken, the rest can still be read. -/
theorem packets_whole {ua ma ub mb : String} {tr : Trace β} {n : ℕ}
    (h : (machine β).Run (new (.new ua ma) (.new ub mb)) tr d)
    (hfit : ∀ msg ∈ admittedMessages tr, msg.length ≤ n)
    (hroom : ∀ e ∈ tr, e.act.roomy n = true) :
    readMessages tr <+: admittedMessages tr ∧
      (d.broken = false → readMessages tr ++ d.messages = admittedMessages tr) := by
  have hp := packets_of_run h
  rw [(whole_of_run h hfit hroom).2]
  exact ⟨(List.prefix_append _ _).trans hp.account.isPrefix, hp.account.eq⟩

/-- Three messages, the second of which is empty, read through two handles. -/
theorem packets_whole_shared :
    ∃ (tr : Trace UInt8) (d : Duplex UInt8),
      (machine UInt8).Run (new (.new "" "") (.new "" "")) tr d ∧
      admittedMessages tr = [[1, 2, 3], [], [4]] ∧ readMessages tr = [[1, 2, 3], []] ∧
      d.broken = false ∧ readMessages tr ++ d.messages = admittedMessages tr := by
  obtain ⟨tr, d, hrun, -, hadm, hread, hbroken, hfit, hroom⟩ :=
    Machine.exists_run_of_exec (machine UInt8) (new (.new "" "") (.new "" ""))
      [.left (.pollWrite 0 [1, 2, 3]), .left (.pollWriteSend 0), .left (.pollWrite 0 []),
        .left (.pollWriteSend 0), .left .sendHead, .left .sendRecv, .left .sinkTake, .deliver,
        .right (.clone 0), .right .recvHead, .right .recvNext, .right .recvSend,
        .right (.pollRead 1 .task [0, 0, 0]), .right (.pollRead 0 .task [0, 0, 0]),
        .left .sinkFlush, .left .sendHead, .left .sendRecv, .left .sinkTake, .deliver,
        .right .recvHead, .right .recvNext, .right .recvSend,
        .right (.pollRead 0 .task [0, 0, 0]), .left (.pollWrite 0 [4]), .left (.pollWriteSend 0)]
      (P := fun tr d => admittedMessages tr = [[1, 2, 3], [], [4]] ∧
        readMessages tr = [[1, 2, 3], []] ∧ d.broken = false ∧
        (∀ msg ∈ admittedMessages tr, msg.length ≤ 3) ∧ ∀ e ∈ tr, e.act.roomy 3 = true)
      (by decide)
  exact ⟨tr, d, hrun, hadm, hread, hbroken, (packets_whole hrun hfit hroom).2 hbroken⟩

/-! ### What has been written arrives -/

/-- The steps of the loops, the websocket and the reads of the handle `h`. -/
def drivers (h : ℕ) (ctx : Waker) (buf : List β) : List (DuplexAct β) :=
  Pipe.sendActs.map .left ++ .deliver :: (Pipe.recvActs h ctx buf).map .right

/-- The pair is open from end to end. -/
structure Ready (h : ℕ) (d : Duplex β) : Prop where
  inv : d.a.Inv
  closed : d.a.closed = false
  alive : d.a.alive = true
  writable : d.a.writable = true
  ended : d.ended = false
  receiving : d.b.Receiving h

theorem Ready.step {h : ℕ} {ctx : Waker} {buf : List β} (hd : Ready h d)
    (hfit : ∀ msg ∈ d.b.innerRecv.queue, msg.length ≤ buf.length)
    (hx : x ∈ drivers h ctx buf) (hr : Rule d x o d') : Ready h d' := by
  obtain ⟨hi, hc, ha, hw, he, hb⟩ := hd
  simp only [drivers, List.mem_append, List.mem_map, List.mem_cons] at hx
  cases hr with
  | @left x _ a' hr =>
    have hx : x ∈ Pipe.sendActs := by simpa using hx
    obtain ⟨hc', hh', hw', -⟩ := Pipe.frame_of_sendActs hx hr
    exact ⟨hi.step hr, hc'.trans hc, by rwa [Pipe.alive, hh'], hw'.trans hw, he, hb⟩
  | @right x _ b' _ hr =>
    have hx : x ∈ Pipe.recvActs h ctx buf := by simpa using hx
    refine ⟨hi, hc, ha, hw, ?_, hb.step hfit hx hr⟩
    simp only [Pipe.recvActs, List.mem_cons, List.not_mem_nil, or_false] at hx
    obtain rfl | rfl | rfl | rfl := hx <;> exact (Bool.or_false _).trans he
  | @deliver msg rest _ b' _ _ hr =>
    cases hr with
    | arrive =>
      refine ⟨hi, hc, ha, hw, he, ⟨?_, hb.cap, hb.closed, hb.idle, ?_⟩⟩
      · exact hb.inv.step .arrive
      · simpa using hb.goesOn

theorem Ready.not_broken {h : ℕ} (hd : Ready h d) : d.broken = false := by
  obtain ⟨hs, -, -⟩ := hd.inv.open hd.closed hd.alive
  obtain ⟨-, hr, -⟩ := hd.receiving.inv.open hd.receiving.closed hd.receiving.alive
  simp [broken, hs, hr, hd.ended]

/-- What is still to do: every message is worth more the further it is from the reader. -/
def rank (d : Duplex β) : ℕ :=
  11 * d.a.innerSend.queue.length + d.a.sendLoop.work + 7 * d.link.length +
    6 * d.b.incoming.length + d.b.recvLoop.work + 3 * d.b.innerRecv.queue.length

/-- A step by which the messages come nearer to the reader. -/
def Advances (h : ℕ) (ctx : Waker) (buf : List β) (d : Duplex β) : Prop :=
  ∃ x d' o, Rule d x o d' ∧ x ∈ drivers h ctx buf ∧ d'.rank < d.rank

section

variable {h : ℕ} {ctx : Waker} {buf : List β}

theorem advances_left {x : Act β} {a' : Pipe β} (hx : x ∈ Pipe.sendActs)
    (hr : Pipe.Rule d.a x o a')
    (hlt : 11 * a'.innerSend.queue.length + a'.sendLoop.work + 7 * o.hands.length <
      11 * d.a.innerSend.queue.length + d.a.sendLoop.work) : Advances h ctx buf d := by
  refine ⟨.left x, _, o, .left hr, by simp [drivers, hx], ?_⟩
  simp only [rank, List.length_append]
  omega

theorem advances_right {x : Act β} {b' : Pipe β} (hx : x ∈ Pipe.recvActs h ctx buf)
    (hr : Pipe.Rule d.b x o b')
    (hlt : 6 * b'.incoming.length + b'.recvLoop.work + 3 * b'.innerRecv.queue.length <
      6 * d.b.incoming.length + d.b.recvLoop.work + 3 * d.b.innerRecv.queue.length) :
    Advances h ctx buf d := by
  have hsilent : x.silent = true := by
    simp only [Pipe.recvActs, List.mem_cons, List.not_mem_nil, or_false] at hx
    obtain rfl | rfl | rfl | rfl := hx <;> rfl
  refine ⟨.right x, _, o, .right hsilent hr, by simp [drivers, hx], ?_⟩
  simp only [rank]
  omega

/-- A message is queued: the reader takes it. -/
theorem advances_read (hb : d.b.Receiving h) (hq : d.b.innerRecv.queue ≠ []) :
    Advances h ctx buf d := by
  obtain ⟨msg, rest, hcons⟩ := List.exists_cons_of_ne_nil hq
  obtain ⟨ch, hch⟩ := Chan.exists_tryRecv_of_cons hcons
  refine advances_right (x := .pollRead h ctx buf) (by simp [Pipe.recvActs]) (.read hb.idle rfl) ?_
  rw [readOutcome_next (Nat.zero_le _) hch, (Chan.tryRecv_ok hch).1]
  show 6 * d.b.incoming.length + d.b.recvLoop.work + 3 * ch.queue.length < _
  rw [List.length_cons]
  omega

/-- None is queued: `recv_loop` or the websocket goes on as long as there is a message. -/
theorem advances_recv (hd : Ready h d) (hq : d.b.innerRecv.queue = [])
    (hne : d.b.recvLoop ≠ .next ∨ d.b.incoming ≠ [] ∨ d.link ≠ []) : Advances h ctx buf d := by
  obtain ⟨-, -, -, -, he, hb⟩ := hd
  have hr := hb.inv.racing hb.closed hb.alive
  obtain ⟨-, hrun, -⟩ := hb.inv.open hb.closed hb.alive
  cases hl : d.b.recvLoop with
  | head =>
    refine advances_right (by simp [Pipe.recvActs]) (.recvHead hr hl) ?_
    simp [hb.closed, hl, RecvPc.work]
  | send msg =>
    cases hsend : d.b.innerRecv.trySend msg with
    | ok r =>
      refine advances_right (by simp [Pipe.recvActs]) (.recvPut hr hl hsend) ?_
      simp [(Chan.trySend_ok hsend).2.2.1, hl, RecvPc.work, hq]
    | error err =>
      have hcap := hb.cap
      cases err with
      | full =>
        have hroom := (Chan.trySend_full_iff.mp hsend).2
        simp [Chan.hasRoom, hq, hcap] at hroom
      | closed =>
        have hgone := (hb.inv.recvClosed (Chan.trySend_closed_iff.mp hsend)).resolve_right
          (by simp [hb.alive])
        simp [hgone] at hl
  | next =>
    cases hin : d.b.incoming with
    | nil =>
      obtain ⟨msg, rest, hlink⟩ := List.exists_cons_of_ne_nil
        ((hne.resolve_left (by simp [hl])).resolve_left (by simp [hin]))
      refine ⟨.deliver, _, .tau, .deliver he hlink .arrive, by simp [drivers], ?_⟩
      simp only [rank, hin, hlink, List.nil_append, List.length_cons, List.length_nil]
      omega
    | cons item rest =>
      obtain ⟨o, b', hrule⟩ := Pipe.rule_recvNext_of_cons hr hl hin
      refine advances_right (by simp [Pipe.recvActs]) hrule ?_
      cases hrule with
      | recvBinary _ _ hin' =>
        simp only [hin', hl, RecvPc.work, List.length_cons]
        omega
      | recvSkip _ _ hin' =>
        simp only [hin', hl, RecvPc.work, List.length_cons]
        omega
      | recvEnd _ _ hin' =>
        simp only [hin', hl, RecvPc.work, List.length_cons]
        omega
  | exiting => simp [hl, RecvPc.stopped] at hrun
  | returned => simp [hl, RecvPc.stopped] at hrun

/-- None has left yet: `send_loop` goes on as long as there is a message. -/
theorem advances_send (hd : Ready h d) (hne : d.a.outMessages ≠ []) :
    Advances h ctx buf d := by
  obtain ⟨hi, hc, ha, hw, -, -⟩ := hd
  have hr := hi.racing hc ha
  obtain ⟨hrun, -, -⟩ := hi.open hc ha
  cases hl : d.a.sendLoop with
  | head =>
    refine advances_left (by simp [Pipe.sendActs]) (.sendHead hr hl) ?_
    simp [hc, hl, SendPc.work, Out.hands]
  | recv =>
    obtain ⟨msg, rest, hcons⟩ : ∃ msg rest, d.a.innerSend.queue = msg :: rest := by
      refine List.exists_cons_of_ne_nil ?_
      simpa [Pipe.outMessages, Pipe.held, hl] using hne
    obtain ⟨ch, hch⟩ := Chan.exists_tryRecv_of_cons hcons
    refine advances_left (by simp [Pipe.sendActs]) (.sendTook hr hl hch) ?_
    simp only [(Chan.tryRecv_ok hch).1, hl, SendPc.work, Out.hands, List.length_cons,
      List.length_nil]
    omega
  | send msg =>
    refine advances_left (by simp [Pipe.sendActs]) (.sinkTake hr hw hl) ?_
    simp only [hl, SendPc.work, Out.hands, List.length_singleton]
    omega
  | flush =>
    refine advances_left (by simp [Pipe.sendActs]) (.sinkFlush hr hw hl) ?_
    simp [hl, SendPc.work, Out.hands]
  | exiting => simp [hl, SendPc.stopped] at hrun
  | returned => simp [hl, SendPc.stopped] at hrun

/-- As long as a message is on its way, one step brings it nearer. -/
theorem advances_of_messages (hd : Ready h d) (hne : d.messages ≠ []) :
    Advances h ctx buf d := by
  by_cases hq : d.b.innerRecv.queue = []
  · by_cases hrecv : d.b.recvLoop ≠ .next ∨ d.b.incoming ≠ [] ∨ d.link ≠ []
    · exact advances_recv hd hq hrecv
    · push Not at hrecv
      obtain ⟨hl, hin, hlink⟩ := hrecv
      refine advances_send hd fun hout => hne ?_
      simp [messages, onWay, linkMessages, hq, hl, hin, hlink, hout, RecvPc.stopped,
        Pipe.inMessages, Pipe.heldRecv]
  · exact advances_read hd.receiving hq

end

/-- **The loops, the websocket and the reader move the messages that there are**, each as a whole:
they write nothing and lose nothing. -/
theorem messages_of_drivers {h : ℕ} {ctx : Waker} {buf : List β} (hd : Ready h d)
    (hfit : ∀ msg ∈ d.b.innerRecv.queue, msg.length ≤ buf.length)
    (hx : x ∈ drivers h ctx buf) (hr : Rule d x o d') :
    d.messages = readMessages [⟨d, x, o, d'⟩] ++ d'.messages := by
  have hbroken := (hd.step hfit hx hr).not_broken
  cases hr with
  | @left x _ a' hr =>
    have hx : x ∈ Pipe.sendActs := by simpa [drivers] using hx
    have hadm : d.a.admits x o = [] := Pipe.admits_eq_nil (Pipe.frame_of_sendActs hx hr).2.2.2
    have hway := (onWay_left hd.inv hr rfl).2.2 hbroken
    rw [hadm, List.append_nil, ite_self] at hway
    rw [messages, messages, hway]
    rfl
  | @right x _ b' hsilent hr =>
    have hx : x ∈ Pipe.recvActs h ctx buf := by simpa [drivers] using hx
    have hqueue := Pipe.queue_of_recvActs hd.receiving hfit hx hr
    obtain ⟨t, hsplit, -, -, heq⟩ := onWay_right hsilent hr rfl
    have hreads : readMessages [⟨d, .right x, o, { d with b := b', ended := d.ended || x.ends }⟩] =
        o.reads := List.append_nil _
    rw [messages, messages, hsplit, heq hbroken, ← List.append_assoc, hqueue, hreads,
      List.append_assoc]
  | deliver he hlink hr =>
    have hway := (onWay_deliver he hlink hr rfl).1
    cases hr with
    | arrive =>
      rw [messages, messages, hway]
      rfl

/-- The receiving pipe of a run has a run of its own. -/
theorem exists_run_right {a b : Pipe β} {tr : Trace β} (h : (machine β).Run (new a b) tr d) :
    ∃ trb, (Pipe.machine β).Run b trb d.b := by
  refine h.invariant (fun d => ∃ trb, (Pipe.machine β).Run b trb d.b) ⟨[], .nil⟩ ?_
  rintro d x d' o ⟨trb, hrun⟩ hs
  cases rule_of_step hs with
  | left => exact ⟨trb, hrun⟩
  | right _ hr => exact ⟨_, hrun.snoc (Pipe.step_of_rule hr)⟩
  | deliver _ _ hr => exact ⟨_, hrun.snoc (Pipe.step_of_rule hr)⟩

/-- Until the websocket fails or ends, the end of the stream has not arrived. -/
theorem goesOn_of_run {ua ma ub mb : String} {tr : Trace β}
    (h : (machine β).Run (new (.new ua ma) (.new ub mb)) tr d) (he : d.ended = false) :
    none ∉ d.b.incoming := by
  refine h.invariant (fun d => d.ended = false → none ∉ d.b.incoming) ?_ ?_ he
  · intro _
    exact List.not_mem_nil
  · intro d x d' o ih hs he
    cases rule_of_step hs with
    | left => exact ih he
    | @right x _ b' _ hr =>
      obtain ⟨he, hends⟩ := Bool.or_eq_false_iff.mp he
      exact Pipe.goesOn_of_rule (ih he) hends hr
    | deliver he hlink hr => exact Pipe.goesOn_of_rule (ih he) rfl hr

/-- **What has been written arrives.** From every state that a pair of new pipes can reach, in which
the connection is open from end to end: by steps of the loops and the websocket, and by reads of
one idle handle without a leftover into a buffer that every message still on its way fits, all that
no read has taken yet is read, message by message. If the reads before had room as well, nothing
that was written is missing. -/
theorem packets_arrive {ua ma ub mb : String} {tr : Trace β} {h : ℕ} {ctx : Waker} {buf : List β}
    (hrun : (machine β).Run (new (.new ua ma) (.new ub mb)) tr d)
    (hfit : ∀ msg ∈ d.messages, msg.length ≤ buf.length)
    (hca : d.a.closed = false) (ha : d.a.alive = true) (hwr : d.a.writable = true)
    (he : d.ended = false) (hcb : d.b.closed = false)
    (hh : d.b.handle? h = some ⟨[], none⟩) :
    ∃ tr' d', (machine β).Run d tr' d' ∧ (∀ e ∈ tr', e.act ∈ drivers h ctx buf) ∧
      d'.messages = [] ∧ takenMessages tr ++ readMessages tr' = admittedMessages tr ∧
      ∀ n, (∀ msg ∈ admittedMessages tr, msg.length ≤ n) → (∀ e ∈ tr, e.act.roomy n = true) →
        readMessages (tr ++ tr') = admittedMessages tr := by
  have hp := packets_of_run hrun
  obtain ⟨trb, hrunb⟩ := exists_run_right hrun
  have hcap : 0 < d.b.innerRecv.cap := by
    rw [Pipe.recvCap_of_run hrunb, Pipe.chanCap]
    omega
  have hready : Ready h d :=
    ⟨hp.inv, hca, ha, hwr, he, Pipe.inv_of_run hrunb, hcap, hcb, hh, goesOn_of_run hrun he⟩
  have hprog : ∀ tr₁ d₁, (machine β).Run d tr₁ d₁ →
      (Ready h d₁ ∧ readMessages tr₁ ++ d₁.messages = d.messages) → ¬ d₁.messages = [] →
      ∃ x d₂ o, (machine β).step d₁ x = some (d₂, o) ∧ x ∈ drivers h ctx buf ∧
        (Ready h d₂ ∧ readMessages (tr₁ ++ [⟨d₁, x, o, d₂⟩]) ++ d₂.messages = d.messages) ∧
        d₂.rank < d₁.rank := by
    rintro tr₁ d₁ - ⟨hready₁, heq₁⟩ hne
    obtain ⟨x, d₂, o, hr, hx, hlt⟩ := advances_of_messages hready₁ hne
    have hfit₁ : ∀ msg ∈ d₁.b.innerRecv.queue, msg.length ≤ buf.length := fun msg hmsg =>
      hfit msg (heq₁ ▸ List.mem_append_right _ (List.mem_append_left _ hmsg))
    refine ⟨x, d₂, o, step_of_rule hr, hx, ⟨hready₁.step hfit₁ hx hr, ?_⟩, hlt⟩
    rw [readMessages, List.flatMap_append, List.append_assoc, ← readMessages, ← readMessages,
      ← messages_of_drivers hready₁ hfit₁ hx hr, heq₁]
  obtain ⟨tr', d', hrun', hacts, ⟨-, hread⟩, hnil⟩ :=
    Machine.Run.nil.exists_goal (Q := fun e => e.act ∈ drivers h ctx buf) rank hprog ⟨hready, rfl⟩
  rw [List.nil_append, hnil, List.append_nil] at hread
  have hall := hp.account.eq hready.not_broken
  rw [← hread] at hall
  refine ⟨tr', d', hrun', hacts, hnil, hall, fun n hfitn hroom => ?_⟩
  rw [readMessages, List.flatMap_append, ← readMessages, ← readMessages,
    (whole_of_run hrun hfitn hroom).2, hall]

/-- A clone of the reader took the first message with a buffer of one byte and keeps the leftover.
One message is with the websocket and one with `send_loop` when the reader starts to read. -/
theorem packets_arrive_two :
    ∃ (tr : Trace UInt8) (d : Duplex UInt8),
      (machine UInt8).Run (new (.new "" "") (.new "" "")) tr d ∧
      admittedMessages tr = [[7, 8], [1, 2, 3], [4]] ∧ readMessages tr = [[7]] ∧
      ∃ tr' d', (machine UInt8).Run d tr' d' ∧
        (∀ e ∈ tr', e.act ∈ drivers 0 .task [0, 0, 0]) ∧ readMessages tr' = [[1, 2, 3], [4]] := by
  obtain ⟨tr, d, hrun, -, hadm, hread, htaken, hfit, hca, ha, hwr, he, hcb, hh⟩ :=
    Machine.exists_run_of_exec (machine UInt8) (new (.new "" "") (.new "" ""))
      [.left (.pollWrite 0 [7, 8]), .left (.pollWriteSend 0), .left .sendHead, .left .sendRecv,
        .left .sinkTake, .deliver, .right (.clone 0), .right .recvHead, .right .recvNext,
        .right .recvSend, .right (.pollRead 1 .task [0]), .left (.pollWrite 0 [1, 2, 3]),
        .left (.pollWriteSend 0), .left (.pollWrite 0 [4]), .left (.pollWriteSend 0),
        .left .sinkFlush, .left .sendHead, .left .sendRecv, .left .sinkTake, .left .sinkFlush,
        .left .sendHead, .left .sendRecv]
      (P := fun tr d => admittedMessages tr = [[7, 8], [1, 2, 3], [4]] ∧
        readMessages tr = [[7]] ∧ takenMessages tr = [[7, 8]] ∧
        (∀ msg ∈ d.messages, msg.length ≤ [0, 0, 0].length) ∧ d.a.closed = false ∧
        d.a.alive = true ∧ d.a.writable = true ∧ d.ended = false ∧ d.b.closed = false ∧
        d.b.handle? 0 = some ⟨[], none⟩) (by decide)
  obtain ⟨tr', d', hrun', hacts, -, hall, -⟩ :=
    @packets_arrive _ d _ _ _ _ tr 0 .task [0, 0, 0] hrun hfit hca ha hwr he hcb hh
  rw [htaken, hadm] at hall
  exact ⟨tr, d, hrun, hadm, hread, tr', d', hrun', hacts, List.append_cancel_left hall⟩

end Duplex

end ObfsWs
