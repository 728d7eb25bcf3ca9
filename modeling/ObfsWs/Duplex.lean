import ObfsWs.Lib.LossyStream
import ObfsWs.Pipe.Transit

/-!
# Two pipes joined by a websocket

The stream from the writes of one pipe to the reads of the other. The websocket delivers binary
messages in order until it fails or ends for the receiver, after which it delivers nothing more;
what is on its way then is lost. What the websocket yields to the sending pipe, and what the
receiving pipe hands over, is not restricted.

The pair simulates a lossy stream: the writes it refuses are those that found the channel full,
the bytes it tears off are the leftovers of reads that returned `Pending`, and whatever else goes
wrong cuts it behind everything that is ever read.

## The link

The link is a third place between the two pipes, with the messages that one sink has taken and the
other websocket has not yielded. It delivers them one at a time, and may end; what is on it then
is lost. Ping and close messages, errors and an end of the stream that the receiving websocket
makes up by itself may come at any moment. They are `other` messages or errors for `recv_loop`, or
they end it. So the statement does not depend on a peer that behaves.

Only one direction is followed. The other direction of the same two pipes is another instance, and
what happens to it here is not restricted: the pipe that sends may receive anything.

## Main definitions

* `Duplex`, `Duplex.machine` — the pair
* `Duplex.transit`, `Duplex.broken` — what is between the writes and the reads
* `Duplex.simulation` — the pair as a lossy stream

## Main results

* `Duplex.endToEnd` — integrity of the stream, and where its gaps come from

## Reading the theorem

The simulation gives every step of the pair a list of actions of the lossy stream, so the lossy
stream's accounting becomes an accounting of the pair: what was returned by reads, with what was
torn off put back where it was torn off, is an initial part of what was admitted; what was
admitted are the accepted writes without those that found a full channel. Nothing is duplicated,
nothing is reordered, nothing is invented, in any run, with clones of the writing side and a torn
down connection included. The reading side has one handle, because the handles of a cloned reader
share the channel, and what is "next" for them depends on who asks.
-/

namespace ObfsWs

variable {β : Type}

/-- A sending and a receiving pipe. -/
structure Duplex (β : Type) where
  /-- The sending pipe. -/
  a : Pipe β
  /-- The receiving pipe. -/
  b : Pipe β
  /-- The messages that the sending websocket took and the receiving one has not got yet. -/
  link : List (List β)
  /-- The receiving websocket has failed or ended. -/
  ended : Bool

/-- What happens. -/
inductive DuplexAct (β : Type)
  /-- The sending pipe takes a step. -/
  | left (x : Act β)
  /-- The receiving pipe takes a step. -/
  | right (x : Act β)
  /-- A message arrives. -/
  | deliver

/-- The websocket fails or ends. -/
def Act.ends : Act β → Bool
  | .arrive none | .arrive (some (.error _)) => true
  | _ => false

/-- No message arrives with the action. -/
def Act.silent : Act β → Bool
  | .arrive (some (.ok (.binary _))) => false
  | _ => true

/-- The step leaves the receiving pipe its one handle. -/
def DuplexAct.keepsHandle : DuplexAct β → Bool
  | .right x => x.keepsHandles
  | _ => true

theorem Act.arrivals_of_silent {x : Act β} (h : x.silent = true) : x.arrivals = [] := by
  cases x with
  | arrive item =>
    rcases item with _ | ⟨_ | msg | _⟩
    · rfl
    · rfl
    · cases h
    · rfl
  | _ => rfl

namespace Duplex

/-- One step. -/
def step (d : Duplex β) : DuplexAct β → Option (Duplex β × Out β)
  | .left x => (d.a.step x).map fun (a, o) => ({ d with a := a, link := d.link ++ o.hands }, o)
  | .right x =>
    if x.silent then
      (d.b.step x).map fun (b, o) => ({ d with b := b, ended := d.ended || x.ends }, o)
    else none
  | .deliver =>
    match d.ended, d.link with
    | false, msg :: rest =>
      (d.b.step (.arrive (some (.ok (.binary msg))))).map fun (b, o) =>
        ({ d with b := b, link := rest }, o)
    | _, _ => none

/-- The pair as a machine. -/
def machine (β : Type) : Machine (Duplex β) (DuplexAct β) (Out β) := ⟨step⟩

/-- Two new pipes. -/
def new (a b : Pipe β) : Duplex β := ⟨a, b, [], false⟩

variable {d d' : Duplex β} {x : DuplexAct β} {o : Out β}

/-- What a step can do. -/
inductive Rule (d : Duplex β) : DuplexAct β → Out β → Duplex β → Prop
  | left {x o a'} : Pipe.Rule d.a x o a' →
      Rule d (.left x) o { d with a := a', link := d.link ++ o.hands }
  | right {x o b'} : x.silent = true → Pipe.Rule d.b x o b' →
      Rule d (.right x) o { d with b := b', ended := d.ended || x.ends }
  | deliver {msg rest o b'} : d.ended = false → d.link = msg :: rest →
      Pipe.Rule d.b (.arrive (some (.ok (.binary msg)))) o b' →
      Rule d .deliver o { d with b := b', link := rest }

theorem rule_of_step (hs : (machine β).step d x = some (d', o)) : Rule d x o d' := by
  change d.step x = some (d', o) at hs
  cases x with
  | left x =>
    simp only [step, Option.map_eq_some_iff] at hs
    obtain ⟨⟨a', o'⟩, hr, he⟩ := hs
    cases he
    exact .left (Pipe.rule_of_step hr)
  | right x =>
    simp only [step, Option.ite_none_right_eq_some, Option.map_eq_some_iff] at hs
    obtain ⟨hx, ⟨b', o'⟩, hr, he⟩ := hs
    cases he
    exact .right hx (Pipe.rule_of_step hr)
  | deliver =>
    simp only [step] at hs
    split at hs
    · rename_i he hl
      obtain ⟨⟨b', o'⟩, hr, heq⟩ := Option.map_eq_some_iff.mp hs
      cases heq
      exact .deliver he hl (Pipe.rule_of_step hr)
    · cases hs

/-- The rules are sound. -/
theorem step_of_rule (hr : Rule d x o d') : (machine β).step d x = some (d', o) := by
  change d.step x = some (d', o)
  cases hr with
  | left hr => simp [step, show d.a.step _ = _ from Pipe.step_of_rule hr]
  | right hx hr => simp [step, hx, show d.b.step _ = _ from Pipe.step_of_rule hr]
  | deliver he hlink hr =>
    simp [step, he, hlink, show d.b.step _ = _ from Pipe.step_of_rule hr]

/-! ### What is between the writes and the reads

From the back to the front: the messages queued for `send_loop`, the one it holds, the link, what
has arrived and not been yielded, the one that `recv_loop` holds, the queue of the reader, and the
leftover. Behind a place that is cut off nothing counts any more. -/

/-- On the websocket and behind it, as far as it can still arrive. -/
def wire (d : Duplex β) : List β :=
  if d.ended then []
  else d.link.flatten ++ if d.a.sendLoop.stopped then [] else d.a.outgoing

/-- The messages on the websocket and behind it, as far as they can still arrive. -/
def linkMessages (d : Duplex β) : List (List β) :=
  if d.ended then [] else d.link ++ if d.a.sendLoop.stopped then [] else d.a.outMessages

/-- The messages that can still get into the `inner_recv` channel. -/
def onWay (d : Duplex β) : List (List β) :=
  if d.b.recvLoop.stopped then [] else d.b.inMessages ++ d.linkMessages

/-- Everything between the writes and the reads that can still be read. -/
def transit (d : Duplex β) : List β :=
  d.b.front ++ if d.b.recvLoop.stopped then [] else d.b.arriving ++ d.wire

/-- Nothing written from now on can be read. -/
def broken (d : Duplex β) : Bool := d.b.recvLoop.stopped || d.ended || d.a.sendLoop.stopped

/-- The pair seen as a lossy stream. -/
def stream (d : Duplex β) : LossyStream β := ⟨d.transit, d.broken⟩

/-- What a step does to the ends of the stream. -/
def moves (e : Event (Duplex β) (DuplexAct β) (Out β)) : List (LossyStream.Act β) :=
  match e.act with
  | .left x => e.out.accepts.map fun m =>
      if Pipe.Overflows e.pre.a x then .refuse m else .write m
  | .right x =>
    [if Pipe.tears x e.out then .tear (e.pre.b.uses x e.out) else .read (e.pre.b.uses x e.out)]
  | .deliver => []

/-- The actions of the lossy stream that a step stands for: what it does to the ends, and the
cut. -/
def label (e : Event (Duplex β) (DuplexAct β) (Out β)) : List (LossyStream.Act β) :=
  moves e ++ if e.post.broken then [.cut e.post.transit.length] else []

/-! ### One step

Each lemma is about one of the two pipes and adds up the laws of `Transit`. A step that stops a
loop, or after which the websocket has ended, is a cut; every other step is a write, a read, a
tear or nothing. -/

/-- A step of the sending pipe adds the messages that it admits, or breaks the stream. -/
theorem onWay_left {x : Act β} {a' : Pipe β} (hi : d.a.Inv) (hr : Pipe.Rule d.a x o a')
    (hd : d' = { d with a := a', link := d.link ++ o.hands }) :
    let t := if d.broken then d.onWay else d.onWay ++ d.a.admits x o
    d'.onWay <+: t ∧ (d.broken = true → d'.broken = true) ∧
      (d'.broken = false → d'.onWay = t) := by
  subst hd
  cases hl : a'.sendLoop.stopped with
  | true =>
    -- what is held and queued is lost, behind everything else
    have hpre : onWay { d with a := a', link := d.link ++ o.hands } <+: d.onWay := by
      rw [Pipe.hands_of_stopped hr hl]
      cases hs : d.b.recvLoop.stopped <;> cases he : d.ended <;>
        simp [onWay, linkMessages, hs, he, hl]
    refine ⟨?_, fun _ => by simp [broken, hl], fun h => by simp [broken, hl] at h⟩
    split
    · exact hpre
    · exact hpre.trans (List.prefix_append _ _)
  | false =>
    obtain ⟨hl', hout⟩ := Pipe.outMessages_of_rule hi hr hl
    have hbroken : broken { d with a := a', link := d.link ++ o.hands } = d.broken := by
      simp [broken, hl, hl']
    have heq : onWay { d with a := a', link := d.link ++ o.hands } =
        if d.broken then d.onWay else d.onWay ++ d.a.admits x o := by
      cases hs : d.b.recvLoop.stopped <;> cases he : d.ended <;>
        simp [onWay, linkMessages, broken, hs, he, hl, hl', hout]
    exact ⟨heq ▸ List.prefix_rfl, fun h => hbroken ▸ h, fun _ => heq⟩

/-- A step of the receiving pipe takes what it puts into `inner_recv` off the front, and may break
the stream. -/
theorem onWay_right {x : Act β} {b' : Pipe β} (hx : x.silent = true)
    (hr : Pipe.Rule d.b x o b') (hd : d' = { d with b := b', ended := d.ended || x.ends }) :
    ∃ t, d.onWay = o.puts ++ t ∧ d'.onWay <+: t ∧ (d.broken = true → d'.broken = true) ∧
      (d'.broken = false → d'.onWay = t) := by
  subst hd
  cases hl : b'.recvLoop.stopped with
  | true =>
    refine ⟨d.onWay, by rw [Pipe.puts_of_stopped hr hl]; rfl, ?_, ?_, ?_⟩
    · simp [onWay, hl]
    · simp [broken, hl]
    · simp [broken, hl]
  | false =>
    obtain ⟨hl', hin⟩ := Pipe.inMessages_of_rule hr hl
    rw [Act.arrivals_of_silent hx, List.append_nil] at hin
    refine ⟨b'.inMessages ++ d.linkMessages, ?_, ?_, ?_, ?_⟩
    · simp only [onWay, hl', hin, Bool.false_eq_true, if_false, List.append_assoc]
    · cases he : d.ended <;> cases hxe : x.ends <;>
        simp [onWay, linkMessages, hl, he]
    · cases he : d.ended <;> simp +contextual [broken, hl, hl', he]
    · cases he : d.ended <;> cases hxe : x.ends <;>
        simp [onWay, linkMessages, broken, hl, he]

/-- An arriving message stays where it is in the stream. -/
theorem onWay_deliver {msg : List β} {rest : List (List β)} {b' : Pipe β}
    (he : d.ended = false) (hlink : d.link = msg :: rest)
    (hr : Pipe.Rule d.b (.arrive (some (.ok (.binary msg)))) o b')
    (hd : d' = { d with b := b', link := rest }) :
    d'.onWay = d.onWay ∧ d'.broken = d.broken := by
  subst hd
  cases hr with
  | arrive =>
    refine ⟨?_, rfl⟩
    cases hs : d.b.recvLoop.stopped <;>
      simp [onWay, linkMessages, he, hlink, hs, Pipe.inMessages, Pipe.heldRecv, Item.messages]

/-- What can still be read, byte by byte: the front of the receiving pipe, then the messages. -/
theorem transit_eq (d : Duplex β) : d.transit = d.b.front ++ d.onWay.flatten := by
  cases hs : d.b.recvLoop.stopped <;> cases he : d.ended <;> cases hl : d.a.sendLoop.stopped <;>
    simp [transit, wire, onWay, linkMessages, Pipe.arriving, Pipe.outgoing, Pipe.inMessages,
      Pipe.outMessages, hs, he, hl]

/-- A step of the sending pipe adds what it admits, or breaks the stream. -/
theorem transit_left {x : Act β} {a' : Pipe β} (hi : d.a.Inv) (hr : Pipe.Rule d.a x o a')
    (hd : d' = { d with a := a', link := d.link ++ o.hands }) :
    let t := if d.broken then d.transit else d.transit ++ (d.a.admits x o).flatten
    d'.transit <+: t ∧ (d.broken = true → d'.broken = true) ∧
      (d'.broken = false → d'.transit = t) := by
  obtain ⟨hpre, hmono, heq⟩ := onWay_left hi hr hd
  have hfront : d'.b.front = d.b.front := by rw [hd]
  have ht : (if d.broken then d.transit else d.transit ++ (d.a.admits x o).flatten) =
      d.b.front ++ (if d.broken then d.onWay else d.onWay ++ d.a.admits x o).flatten := by
    rw [transit_eq]
    split <;> simp
  rw [ht, transit_eq d', hfront]
  refine ⟨(List.prefix_append_right_inj _).mpr hpre.flatten, hmono, fun h => ?_⟩
  rw [heq h]

/-- A step of the receiving pipe takes what it uses off the front, and may break the stream. -/
theorem transit_right {x : Act β} {b' : Pipe β} (hb : d.b.bufs.length = 1)
    (hk : x.keepsHandles = true) (hx : x.silent = true) (hr : Pipe.Rule d.b x o b')
    (hd : d' = { d with b := b', ended := d.ended || x.ends }) :
    ∃ t, d.transit = d.b.uses x o ++ t ∧ d'.transit <+: t ∧
      (d.broken = true → d'.broken = true) ∧ (d'.broken = false → d'.transit = t) := by
  have hfront := Pipe.front_of_rule hb hk hr
  obtain ⟨t, hsplit, hpre, hmono, heq⟩ := onWay_right hx hr hd
  have hb' : d'.b = b' := by rw [hd]
  refine ⟨b'.front ++ t.flatten, ?_, ?_, hmono, fun h => ?_⟩
  · rw [transit_eq, hsplit, List.flatten_append, ← List.append_assoc, hfront, List.append_assoc]
  · rw [transit_eq, hb']
    exact (List.prefix_append_right_inj _).mpr hpre.flatten
  · rw [transit_eq, hb', heq h]

/-- An arriving message stays where it is in the stream. -/
theorem transit_deliver {msg : List β} {rest : List (List β)} {b' : Pipe β}
    (he : d.ended = false) (hlink : d.link = msg :: rest)
    (hr : Pipe.Rule d.b (.arrive (some (.ok (.binary msg)))) o b')
    (hd : d' = { d with b := b', link := rest }) :
    d'.transit = d.transit ∧ d'.broken = d.broken := by
  obtain ⟨hway, hbroken⟩ := onWay_deliver he hlink hr hd
  refine ⟨?_, hbroken⟩
  have hfront : d'.b.front = d.b.front := by
    subst hd
    cases hr
    rfl
  rw [transit_eq, transit_eq, hway, hfront]

/-! ### Simulation -/

theorem accepts_cases (o : Out β) : o.accepts = [] ∨ ∃ m, o.accepts = [m] := by
  unfold Out.accepts
  split
  · exact .inr ⟨_, rfl⟩
  · exact .inl rfl

/-- The writes of a step, as actions of the stream. -/
theorem run_left (d d' : Duplex β) (x : Act β) (o : Out β) :
    ∃ tr, (LossyStream.machine β).Run d.stream tr
        ⟨if d.broken then d.transit else d.transit ++ (d.a.admits x o).flatten, d.broken⟩ ∧
      tr.map Event.act = moves ⟨d, .left x, o, d'⟩ := by
  simp only [moves]
  obtain h | ⟨m, h⟩ := accepts_cases o
  · rw [Pipe.admits_eq_nil h, h]
    exact ⟨[], by simpa using .nil, rfl⟩
  · rw [Pipe.admits, h]
    by_cases hv : Pipe.Overflows d.a x
    · simp only [if_pos hv, List.flatten_nil, List.append_nil, ite_self, List.map_singleton]
      exact Machine.exists_run_single rfl
    · simp only [if_neg hv, List.flatten_singleton, List.map_singleton]
      exact Machine.exists_run_single rfl

/-- What a step uses up, as an action of the stream. -/
theorem run_right {x : Act β} {t : List β} (d' : Duplex β)
    (h : d.transit = d.b.uses x o ++ t) :
    ∃ tr, (LossyStream.machine β).Run d.stream tr ⟨t, d.broken⟩ ∧
      tr.map Event.act = moves ⟨d, .right x, o, d'⟩ := by
  simp only [moves]
  split
  · exact Machine.exists_run_single (LossyStream.step_tear (s := d.stream) h)
  · exact Machine.exists_run_single (LossyStream.step_read (s := d.stream) h)

/-- Once the ends have moved, cutting what is lost finishes the step. -/
theorem run_label {e : Event (Duplex β) (DuplexAct β) (Out β)} {t : List β}
    {tr : List (Event (LossyStream β) (LossyStream.Act β) Unit)}
    (hrun : (LossyStream.machine β).Run e.pre.stream tr ⟨t, e.pre.broken⟩)
    (hacts : tr.map Event.act = moves e) (hpre : e.post.transit <+: t)
    (hmono : e.pre.broken = true → e.post.broken = true)
    (heq : e.post.broken = false → e.post.transit = t) :
    ∃ tr, (LossyStream.machine β).Run e.pre.stream tr e.post.stream ∧
      tr.map Event.act = label e := by
  cases hb : e.post.broken with
  | false =>
    have hb' : e.pre.broken = false := by
      cases h : e.pre.broken with
      | false => rfl
      | true => simp [hmono h] at hb
    refine ⟨tr, ?_, by simp [label, hb, hacts]⟩
    have hstream : e.post.stream = ⟨t, e.pre.broken⟩ := by rw [stream, heq hb, hb, hb']
    rwa [hstream]
  | true =>
    have hstream : e.post.stream = ⟨e.post.transit, true⟩ := by rw [stream, hb]
    have hcut := LossyStream.step_cut (s := ⟨t, e.pre.broken⟩) hpre
    rw [hstream]
    exact ⟨_, hrun.snoc hcut, by simp [label, hb, hacts]⟩

/-- **The pair simulates a lossy stream.** -/
noncomputable def simulation (β : Type) :
    Machine.Simulation (machine β) (LossyStream.machine β) where
  rel d s := d.a.Inv ∧ d.b.bufs.length = 1 ∧ s = d.stream
  label := label
  covers e := e.act.keepsHandle = true
  step := by
    rintro d s x d' o ⟨hi, hb, rfl⟩ hcov hs
    cases rule_of_step hs with
    | @left x _ a' hr =>
      obtain ⟨hpre, hmono, heq⟩ := transit_left hi hr rfl
      obtain ⟨tr₀, hrun₀, hacts₀⟩ := run_left d _ x o
      obtain ⟨tr, hrun, hacts⟩ := run_label hrun₀ hacts₀ hpre hmono heq
      exact ⟨tr, _, hrun, hacts, hi.step hr, hb, rfl⟩
    | @right x _ b' hx hr =>
      have hk : x.keepsHandles = true := hcov
      obtain ⟨t, hsplit, hpre, hmono, heq⟩ := transit_right hb hk hx hr rfl
      obtain ⟨tr₀, hrun₀, hacts₀⟩ := run_right _ hsplit
      obtain ⟨tr, hrun, hacts⟩ := run_label hrun₀ hacts₀ hpre hmono heq
      exact ⟨tr, _, hrun, hacts, hi, by rw [Pipe.bufs_length_of_rule hk hr, hb], rfl⟩
    | deliver he hlink hr =>
      obtain ⟨htr, hbr⟩ := transit_deliver he hlink hr rfl
      obtain ⟨tr, hrun, hacts⟩ := run_label (e := ⟨d, .deliver, o, _⟩) .nil rfl
        (htr ▸ List.prefix_rfl) (fun h => hbr ▸ h) (fun _ => htr)
      exact ⟨tr, _, hrun, hacts, hi, by rw [Pipe.bufs_length_of_rule rfl hr, hb], rfl⟩

/-! ### Accounting -/

/-- The bytes that the writes of the sending pipe reported as accepted. -/
def accepted (tr : List (Event (Duplex β) (DuplexAct β) (Out β))) : List β :=
  tr.flatMap fun e =>
    match e.act with
    | .left _ => e.out.accepts.flatten
    | _ => []

/-- Those of the writes that did not find the channel full. -/
def admitted (tr : List (Event (Duplex β) (DuplexAct β) (Out β))) : List β :=
  tr.flatMap fun e =>
    match e.act with
    | .left x => (e.pre.a.admits x e.out).flatten
    | _ => []

/-- The bytes that the reads of the receiving pipe returned. -/
def returned (tr : List (Event (Duplex β) (DuplexAct β) (Out β))) : List β :=
  tr.flatMap fun e =>
    match e.act with
    | .right _ => e.out.returns
    | _ => []

/-- The bytes that the reads of the receiving pipe used up, read by read: what it returned, or the
whole leftover on entry when it returned `Pending`. -/
def used (tr : List (Event (Duplex β) (DuplexAct β) (Out β))) : List β :=
  tr.flatMap fun e =>
    match e.act with
    | .right x => e.pre.b.uses x e.out
    | _ => []

/-- A history that a cut adds nothing to, event by event. -/
theorem flatMap_label {g : LossyStream.Act β → List β} (hcut : ∀ n, g (.cut n) = [])
    (tr : List (Event (Duplex β) (DuplexAct β) (Out β))) :
    (tr.flatMap label).flatMap g = tr.flatMap fun e =>
      match e.act with
      | .left x =>
        e.out.accepts.flatMap fun m => g (if Pipe.Overflows e.pre.a x then .refuse m else .write m)
      | .right x =>
        g (if Pipe.tears x e.out then .tear (e.pre.b.uses x e.out)
          else .read (e.pre.b.uses x e.out))
      | .deliver => [] := by
  rw [List.flatMap_assoc]
  congr 1
  funext e
  have hmoves : (label e).flatMap g = (moves e).flatMap g := by
    rw [label, List.flatMap_append]
    split <;> simp [hcut]
  rw [hmoves, moves]
  split <;> simp [List.flatMap_map]

theorem offered_label (tr : List (Event (Duplex β) (DuplexAct β) (Out β))) :
    LossyStream.offered (tr.flatMap label) = accepted tr := by
  rw [LossyStream.offered, flatMap_label fun _ => rfl, accepted]
  congr 1
  funext e
  obtain ⟨pre, act, out, post⟩ := e
  cases act with
  | left x => by_cases hv : Pipe.Overflows pre.a x <;> simp [hv]
  | right x => cases ht : Pipe.tears x out <;> simp [ht]
  | deliver => rfl

theorem kept_label (tr : List (Event (Duplex β) (DuplexAct β) (Out β))) :
    LossyStream.kept (tr.flatMap label) = admitted tr := by
  rw [LossyStream.kept, flatMap_label fun _ => rfl, admitted]
  congr 1
  funext e
  obtain ⟨pre, act, out, post⟩ := e
  cases act with
  | left x => by_cases hv : Pipe.Overflows pre.a x <;> simp [hv, Pipe.admits]
  | right x => cases ht : Pipe.tears x out <;> simp [ht]
  | deliver => rfl

theorem returned_label (tr : List (Event (Duplex β) (DuplexAct β) (Out β))) :
    LossyStream.returned (tr.flatMap label) = returned tr := by
  rw [LossyStream.returned, flatMap_label fun _ => rfl, returned]
  congr 1
  funext e
  obtain ⟨pre, act, out, post⟩ := e
  cases act with
  | left x => by_cases hv : Pipe.Overflows pre.a x <;> simp [hv]
  | right x =>
    cases ht : Pipe.tears x out with
    | true => simp [ht, Pipe.returns_of_tears ht]
    | false => simp [ht, Pipe.uses_of_not_tears ht]
  | deliver => rfl

theorem consumed_label (tr : List (Event (Duplex β) (DuplexAct β) (Out β))) :
    LossyStream.consumed (tr.flatMap label) = used tr := by
  rw [LossyStream.consumed, flatMap_label fun _ => rfl, used]
  congr 1
  funext e
  obtain ⟨pre, act, out, post⟩ := e
  cases act with
  | left x => by_cases hv : Pipe.Overflows pre.a x <;> simp [hv]
  | right x => cases ht : Pipe.tears x out <;> simp [ht]
  | deliver => rfl

/-- **Integrity from end to end.** What the reads of the receiving pipe used up is where the
writes begin that did not find the channel full; so what they returned is a subsequence of the
bytes accepted by the writes, and its gaps are refused writes and leftovers of reads that returned
`Pending`. -/
theorem endToEnd {ua ma ub mb : String}
    {tr : List (Event (Duplex β) (DuplexAct β) (Out β))}
    (h : (machine β).Run (new (.new ua ma) (.new ub mb)) tr d)
    (hk : ∀ e ∈ tr, e.act.keepsHandle = true) :
    used tr <+: admitted tr ∧ (returned tr).Sublist (accepted tr) := by
  have hnew : (simulation β).rel (new (.new ua ma) (.new ub mb)) LossyStream.empty :=
    ⟨Pipe.inv_new ua ma, rfl, rfl⟩
  obtain ⟨tr', s, hrun, hacts, -⟩ := (simulation β).run hnew h hk
  have hacts : tr'.map Event.act = tr.flatMap label := hacts
  have hpre := LossyStream.consumed_isPrefix hrun
  have hsub := LossyStream.returned_sublist hrun
  rw [hacts, consumed_label, kept_label] at hpre
  rw [hacts, returned_label, offered_label] at hsub
  exact ⟨(List.prefix_append _ _).trans hpre, hsub⟩

/-- `[1, 2, 3]` and `[4]` are written; the first is read in two pieces, the second of which is
torn off. -/
theorem endToEnd_torn :
    ∃ (tr : List (Event (Duplex UInt8) (DuplexAct UInt8) (Out UInt8))) (d : Duplex UInt8),
      (machine UInt8).Run (new (.new "" "") (.new "" "")) tr d ∧ accepted tr = [1, 2, 3, 4] ∧
      returned tr = [1, 2, 4] ∧ used tr = [1, 2, 3, 4] ∧ used tr <+: admitted tr ∧
      (returned tr).Sublist (accepted tr) := by
  obtain ⟨tr, d, hrun, -, hacc, hret, huse, hk⟩ :=
    Machine.exists_run_of_exec (machine UInt8) (new (.new "" "") (.new "" ""))
      [.left (.pollWrite 0 [1, 2, 3]), .left (.pollWriteSend 0), .left (.pollWrite 0 [4]),
        .left (.pollWriteSend 0), .left .sendHead, .left .sendRecv, .left .sinkTake, .deliver,
        .right .recvHead, .right .recvNext, .right .recvSend,
        .right (.pollRead 0 .task [0, 0]), .right (.pollRead 0 .task [0, 0]),
        .left .sinkFlush, .left .sendHead, .left .sendRecv, .left .sinkTake, .deliver,
        .right .recvHead, .right .recvNext, .right .recvSend, .right (.pollRead 0 .task [0])]
      (P := fun tr _ => accepted tr = [1, 2, 3, 4] ∧ returned tr = [1, 2, 4] ∧
        used tr = [1, 2, 3, 4] ∧ ∀ e ∈ tr, e.act.keepsHandle = true) (by decide)
  obtain ⟨hpre, hsub⟩ := endToEnd hrun hk
  exact ⟨tr, d, hrun, hacc, hret, huse, hpre, hsub⟩

end Duplex

end ObfsWs
