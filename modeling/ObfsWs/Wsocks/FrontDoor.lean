import ObfsWs.Lib.Sync
import ObfsWs.Wsocks.Served

/-!
# From the listener to the sessions

The listener of the library and the accept loop of the server, together. The listener lets a
connection through when its key is one, and that key is all that the server ever learns of the
client; the server takes the pipes off the listener's queue one at a time and gives each to the
session of its hash.

The loop relies on the listener for its pipes: that there is a hash to decode, and that each comes
once. Here the reliance is discharged: what the listener returns is what the loop accepts.

## What is assumed

Between the listener and the loop stands a crate: `accept_pipe` is a method of a trait that calls
`accept`, and `peer_metadata` is one of the pipe that comes back. What they do is not in this
repository. `PipeCrates` is what is used of it, with what it is relied upon for as fields: a call
of `accept_pipe` returns what a call of `accept` returns, a pipe for a pipe and an error for an
error, and the metadata of a pipe is the key that was handed over when its connection was made.
`plain` is the one in which nothing is added.

The connection of a pipe is a number, which no program sees. It is what makes "the same pipe" a
statement about a run.

## The joint

The two machines meet in `accept`. The listener's `accept` outputs a pipe, the loop's action takes
a pipe as its argument, and the joint allows the step when the one is what the crate makes of the
other. All other steps belong to one of them. A run of the front is therefore a run of the
listener and a run of the server, and everything that has been proved of either holds in it; what
is proved here is what the two know of each other.

## Main definitions

* `Request.key` — what the callback hands over for a request
* `PipeCrates` — what the crates between the listener and the loop do
* `sides`, `door`, `front` — the listener and the loop, which meet in `accept`

## Main results

* `front_account` — what becomes of every connection that gets through its handshake
* `front_stops` — only the listening socket can stop the server, and nobody is left waiting then
* `front_session_iff` — which clients share a session

## What is left open

`front_session_iff` speaks of sessions that are live. Two pipes of one client may be in different
sessions if the first of these has ended in between. And clients whose etags have the same hash
share a session; nothing is assumed that would exclude it.
-/

namespace ObfsWs

/-! ### Keys

What the callback hands over is one header value, as text. That text decides everything that
follows: the listener makes the pipe's metadata of it, and the server decodes it. -/

/-- The key that `pipe_get_metadata` hands over for a request that it lets through. -/
def Request.key (req : Request) : Option String :=
  match pipeGetMetadata (.bounded 1) req (.new ()) with
  | some (.ok _, md) => md.queue.head?
  | _ => none

theorem Request.key_eq_some {req : Request} {key : String} (h : req.key = some key) :
    req.headers.get "Sec-Websocket-Key" = some (utf8 key) ∧ IsKey (utf8 key) := by
  rw [Request.key] at h
  by_cases hreq : ∃ v, req.headers.get "Sec-Websocket-Key" = some v ∧ IsKey v
  · obtain ⟨v, hget, hv⟩ := hreq
    obtain ⟨key', md, rfl, hsend, hout⟩ := pipeGetMetadata_of_isKey (.new ()) hget hv
    rw [hout] at h
    simp only [(Chan.trySend_ok hsend).2.2.1, Chan.queue_bounded, List.nil_append,
      List.head?_cons] at h
    obtain rfl := Option.some.inj h
    exact ⟨hget, hv⟩
  · rw [pipeGetMetadata_of_not (.new ()) (.bounded 1) hreq] at h
    cases h

/-- The pipe as the listener makes it. -/
def WsPipe.incoming (pipe : WsPipe) : Incoming := .of pipe.id pipe.peerMetadata

/-- What the server relies on of the crates that it takes the listener and the pipes from. -/
structure PipeCrates where
  /-- What `accept_pipe` makes of what `accept` returns. -/
  acceptPipe : Except ErrorKind Incoming → Except ErrorKind Incoming
  /-- It hands it on. -/
  acceptPipe_eq : ∀ res, acceptPipe res = res
  /-- `peer_metadata` of a pipe that a listener made. -/
  peerMetadata : Incoming → String
  /-- It is the metadata that the listener made it with. -/
  peerMetadata_of : ∀ conn metadata, peerMetadata (.of conn metadata) = metadata

namespace PipeCrates

/-- For concrete runs: what stands behind the `#` of the URL. -/
def plain : PipeCrates where
  acceptPipe res := res
  acceptPipe_eq _ := rfl
  peerMetadata i := String.ofList (i.peerUrl.toList.drop 1)
  peerMetadata_of conn metadata := by simp [Incoming.of, Pipe.new]

variable {crates : PipeCrates} {o : Option ListenerOut} {pipe : WsPipe}

/-- `accept_pipe` returns this pipe. -/
def hands (crates : PipeCrates) (pipe : WsPipe) : Option ListenerOut → Bool
  | some (.accepted res) =>
    match crates.acceptPipe res with
    | .ok i => i.conn = pipe.id && crates.peerMetadata i = pipe.peerMetadata
    | .error _ => false
  | _ => false

/-- `accept_pipe` returns an error. -/
def fails (crates : PipeCrates) : Option ListenerOut → Bool
  | some (.accepted res) =>
    match crates.acceptPipe res with
    | .ok _ => false
    | .error _ => true
  | _ => false

theorem hands_iff : crates.hands pipe o = true ↔ ∃ i, o = some (.accepted (.ok i)) ∧
    i.conn = pipe.id ∧ crates.peerMetadata i = pipe.peerMetadata := by
  rcases o with _ | _ | ⟨_ | i⟩ | _ <;> simp [hands, crates.acceptPipe_eq]

theorem fails_iff : crates.fails o = true ↔ o = some (.accepted (.error .brokenPipe)) := by
  rcases o with _ | _ | ⟨⟨⟩ | i⟩ | _ <;> simp [fails, crates.acceptPipe_eq]

end PipeCrates

theorem Incoming.of_inj {c c' : ℕ} {md md' : String} (h : Incoming.of c md = .of c' md') :
    c = c' ∧ md = md' := by
  obtain ⟨hc, hurl⟩ := Incoming.mk.inj h
  refine ⟨hc, ?_⟩
  have hlist : ("" ++ "#" ++ md).toList = ("" ++ "#" ++ md').toList := congrArg String.toList hurl
  simp only [String.toList_append] at hlist
  exact String.toList_inj.mp (List.append_cancel_left hlist)

/-! ### The listener and the loop

Every action of the front is an action of the listener, or of the server, or of both. A request
comes with a handshake, so the key that the listener lets through is the key of that request.
Dropping the listener is not an action: the server owns it and never drops it. -/

/-- The steps: those of the listener with the requests that the handshakes carry, those of the
loop and of the sessions, and the polls of `accept_pipe`, which both take part in. -/
inductive FrontAct
  | connect
  /-- `socket.accept` fails. -/
  | socketError
  | setNodelay (c : ℕ) (ok : Bool)
  /-- The handshake gets to the callback, or fails before it. -/
  | handshake (c : ℕ) (req : Option Request)
  | recvMd (c : ℕ)
  | sendPipe (c : ℕ)
  /-- `accept_pipe` returns this pipe. -/
  | accept (pipe : WsPipe)
  /-- `accept_pipe` returns an error. -/
  | acceptError
  /-- `accept_pipe` is pending. -/
  | poll
  | visit (hash : UInt64)
  | pruned
  | entry
  | created
  | upgrade
  | addPipe
  | session (m : ℕ) (a : SessionAct)

/-- The listener's part. -/
def FrontAct.listener : FrontAct → Option ListenerAct
  | .connect => some .connect
  | .socketError => some .acceptError
  | .setNodelay c ok => some (.setNodelay c ok)
  | .handshake c req => some (.handshake c (req.bind Request.key))
  | .recvMd c => some (.recvMd c)
  | .sendPipe c => some (.sendPipe c)
  | .accept _ | .acceptError | .poll => some .accept
  | _ => none

/-- The loop's part. -/
def FrontAct.wpl : FrontAct → Option WplAct
  | .accept pipe => some (.accept pipe)
  | .acceptError => some .acceptError
  | .visit hash => some (.visit hash)
  | .pruned => some .pruned
  | .entry => some .entry
  | .created => some .created
  | .upgrade => some .upgrade
  | .addPipe => some .addPipe
  | .session m a => some (.session m a)
  | _ => none

deriving instance DecidableEq for WplPc

/-- The loop is in `accept_pipe`. -/
def WplPc.isAccept (pc : WplPc) : Bool := pc = .accept

/-- The two parts of a step. -/
def sides : Joint Listener Wpl ListenerAct WplAct ListenerOut WplOut FrontAct where
  left := FrontAct.listener
  right := FrontAct.wpl
  agree _ _ _ _ _ := true

/-- The loop takes what `accept_pipe` makes of what `accept` returns. -/
def door (crates : PipeCrates) :
    Joint Listener Wpl ListenerAct WplAct ListenerOut WplOut FrontAct :=
  { sides with
    agree := fun c _ w o _ =>
      match c with
      | .accept pipe => crates.hands pipe o
      | .acceptError => crates.fails o
      | .poll => o = some .pending && w.pc.isAccept
      | _ => true }

/-- The listener and the server. -/
def front (crates : PipeCrates) (lib : Primitives) (pk : MuxPublic) :
    Machine (Listener × Wpl) FrontAct (Option ListenerOut × Option WplOut) :=
  .sync Listener.machine (Wpl.machine lib pk) (door crates)

/-- A recorded run. -/
abbrev FrontTrace := List (JointEvent Listener Wpl FrontAct ListenerOut WplOut)

/-- The listener's part of a run. -/
def FrontTrace.listener (tr : FrontTrace) : List (Event Listener ListenerAct ListenerOut) :=
  sides.leftOf tr

/-- The server's part. -/
def FrontTrace.wpl (tr : FrontTrace) : Wpl.Trace := sides.rightOf tr

section Parts

variable {crates : PipeCrates} {lib : Primitives} {pk : MuxPublic} {tr : FrontTrace}
  {s : Listener × Wpl}

theorem listener_of_run (h : (front crates lib pk).Run (.new, .new) tr s) :
    Listener.machine.Run .new tr.listener s.1 :=
  h.left

theorem wpl_of_run (h : (front crates lib pk).Run (.new, .new) tr s) :
    (Wpl.machine lib pk).Run .new tr.wpl s.2 :=
  h.right

/-- The server keeps its listener. -/
theorem FrontTrace.ne_drop (tr : FrontTrace) : ∀ e ∈ tr.listener, e.act ≠ .drop := by
  intro e he hdrop
  obtain ⟨f, -, hf⟩ := sides.exists_of_mem_leftOf he
  rw [hdrop] at hf
  cases hact : f.act <;> rw [hact] at hf <;> cases hf

/-- A connection that got through its handshake had a request with a key. -/
theorem FrontTrace.exists_request {tr : FrontTrace} {i : Incoming}
    (hi : i ∈ Listener.handshaken tr.listener) :
    ∃ e ∈ tr, ∃ c req key, e.act = .handshake c (some req) ∧ req.key = some key ∧
      i = .of c key := by
  obtain ⟨e, he, hmem⟩ := List.mem_flatMap.mp hi
  split at hmem
  · rename_i c key hact
    obtain rfl := List.mem_singleton.mp hmem
    obtain ⟨f, hf, hleft⟩ := sides.exists_of_mem_leftOf he
    rw [hact] at hleft
    have hlistener : f.act.listener = some (.handshake c (some key)) := hleft
    cases hfact : f.act with
    | handshake c' req =>
      rw [hfact] at hlistener
      obtain ⟨rfl, hkey⟩ := ListenerAct.handshake.inj (Option.some.inj hlistener)
      obtain ⟨r, rfl, hr⟩ := Option.bind_eq_some_iff.mp hkey
      exact ⟨f, hf, c', r, key, hfact, hr, rfl⟩
    | _ =>
      rw [hfact] at hlistener
      cases hlistener
  · cases hmem

/-! ### What is returned is accepted

The pipes that the listener has returned are, one by one and in order, the pipes that the loop has
accepted. This is the step where the crate is used, and it is the only one. -/

theorem Listener.returned_append (tr tr' : List (Event Listener ListenerAct ListenerOut)) :
    Listener.returned (tr ++ tr') = Listener.returned tr ++ Listener.returned tr' :=
  List.flatMap_append

/-- Only `accept` returns something. -/
theorem Listener.Rule.returned_eq {t t' : Listener} {a : ListenerAct} {o : ListenerOut}
    (h : Listener.Rule t a o t') (ha : a ≠ .accept) : Listener.returned [⟨t, a, o, t'⟩] = [] := by
  cases h with
  | accepted | broken | pending => exact absurd rfl ha
  | _ => rfl

/-- What is returned was queued. -/
theorem Listener.Rule.mem_of_accepted {t t' : Listener} {a : ListenerAct} {i : Incoming}
    (h : Listener.Rule t a (.accepted (.ok i)) t') : i ∈ t.queue.queue := by
  cases h with
  | accepted _ hrecv =>
    rw [(Chan.tryRecv_ok hrecv).1]
    exact List.mem_cons_self

/-- Only accepting accepts something. -/
theorem Wpl.Rule.accepted_eq {w w' : Wpl} {a : WplAct} {o : WplOut}
    (h : Wpl.Rule lib pk w a o w') :
    Wpl.acceptedOf o = match a with
      | .accept pipe => [pipe]
      | _ => [] := by
  cases h <;> rfl

/-- What is queued was made with some metadata. -/
theorem Listener.exists_of_queued {tr : List (Event Listener ListenerAct ListenerOut)}
    {l : Listener} (h : Listener.machine.Run .new tr l) (hd : ∀ e ∈ tr, e.act ≠ .drop)
    {i : Incoming} (hi : i ∈ l.queue.queue) : ∃ c md, i = .of c md := by
  have hmem : i ∈ (Listener.handshaken tr : Multiset Incoming) := by
    rw [← Listener.held_of_run h hd]
    exact Multiset.mem_add.mpr (.inl (Multiset.mem_add.mpr (.inr hi)))
  obtain ⟨e, -, he⟩ := List.mem_flatMap.mp hmem
  split at he
  · exact ⟨_, _, List.mem_singleton.mp he⟩
  · cases he

/-- A step of one machine alone returns no pipe and accepts none. -/
theorem returned_eq_of_alone {s t : Listener × Wpl} {c : FrontAct}
    {o : Option ListenerOut × Option WplOut} (h : (front crates lib pk).step s c = some (t, o))
    (hl : c.listener ≠ some .accept) (hw : ∀ pipe, c.wpl ≠ some (.accept pipe)) :
    Listener.returned (sides.leftEvent ⟨s, c, o, t⟩) =
      (Wpl.acceptedPipes (sides.rightEvent ⟨s, c, o, t⟩)).map WsPipe.incoming := by
  obtain ⟨hleft, hright, -⟩ := Machine.sync_step_iff.mp h
  change Listener.machine.stepOr s.1 (sides.left c) = _ at hleft
  change (Wpl.machine lib pk).stepOr s.2 (sides.right c) = _ at hright
  have hreturned : Listener.returned (sides.leftEvent ⟨s, c, o, t⟩) = [] := by
    rcases Machine.stepOr_cases hleft with ⟨ha, -, -⟩ | ⟨b, p, ha, ho, hstep⟩
    · simp only [Joint.leftEvent, ha]
      rfl
    · simp only [Joint.leftEvent, ha, ho]
      refine (Listener.rule_of_step hstep).returned_eq ?_
      rintro rfl
      exact hl ha
  have haccepted : Wpl.acceptedPipes (sides.rightEvent ⟨s, c, o, t⟩) = [] := by
    rcases Machine.stepOr_cases hright with ⟨ha, -, -⟩ | ⟨b, p, ha, ho, hstep⟩
    · simp only [Joint.rightEvent, ha]
      rfl
    · simp only [Joint.rightEvent, ha, ho, Wpl.acceptedPipes, List.flatMap_singleton,
        (Wpl.rule_of_step hstep).accepted_eq]
      split
      · rename_i pipe _
        exact absurd ha (hw pipe)
      · rfl
  rw [hreturned, haccepted]
  rfl

/-- One step: the listener returns the pipe that the loop accepts, or nothing. -/
theorem door_step {s t : Listener × Wpl} {c : FrontAct}
    {o : Option ListenerOut × Option WplOut} (h : (front crates lib pk).step s c = some (t, o))
    (hof : ∀ i ∈ s.1.queue.queue, ∃ c md, i = .of c md) :
    Listener.returned (sides.leftEvent ⟨s, c, o, t⟩) =
      (Wpl.acceptedPipes (sides.rightEvent ⟨s, c, o, t⟩)).map WsPipe.incoming := by
  obtain ⟨hl, hr, hagree⟩ := Machine.sync_step_iff.mp h
  change Listener.machine.stepOr s.1 (sides.left c) = _ at hl
  change (Wpl.machine lib pk).stepOr s.2 (sides.right c) = _ at hr
  cases c with
  | accept pipe =>
    obtain ⟨i, ho, hid, hmd⟩ := PipeCrates.hands_iff.mp hagree
    obtain rfl : i = pipe.incoming := by
      rcases Machine.stepOr_cases hl with ⟨ha, -, -⟩ | ⟨b, p, -, hp, hstep⟩
      · cases ha
      · obtain rfl := Option.some.inj (hp.symm.trans ho)
        obtain ⟨c, md, rfl⟩ := hof i (Listener.rule_of_step hstep).mem_of_accepted
        rw [crates.peerMetadata_of] at hmd
        obtain rfl : c = pipe.id := hid
        rw [hmd]
        rfl
    rcases Machine.stepOr_cases hr with ⟨ha, -, -⟩ | ⟨b, p, ha, ho', hstep⟩
    · cases ha
    · obtain rfl : .accept pipe = b := Option.some.inj ha
      have hacc := (Wpl.rule_of_step hstep).accepted_eq
      simp only [Joint.leftEvent, Joint.rightEvent, sides, FrontAct.listener, FrontAct.wpl, ho, ho',
        Listener.returned, Wpl.acceptedPipes, List.flatMap_singleton, hacc, List.map_cons,
        List.map_nil]
  | acceptError =>
    have ho := PipeCrates.fails_iff.mp hagree
    rcases Machine.stepOr_cases hr with ⟨ha, -, -⟩ | ⟨b, p, ha, ho', hstep⟩
    · cases ha
    · obtain rfl : .acceptError = b := Option.some.inj ha
      have hacc := (Wpl.rule_of_step hstep).accepted_eq
      simp only [Joint.leftEvent, Joint.rightEvent, sides, FrontAct.listener, FrontAct.wpl, ho, ho',
        Listener.returned, Wpl.acceptedPipes, List.flatMap_singleton, hacc, List.map_nil]
  | poll =>
    have ho : o.1 = some .pending := of_decide_eq_true (Bool.and_eq_true_iff.mp hagree).1
    simp only [Joint.leftEvent, Joint.rightEvent, sides, FrontAct.listener, FrontAct.wpl, ho,
      Listener.returned, Wpl.acceptedPipes, List.flatMap_singleton, List.flatMap_nil,
      List.map_nil]
  | _ => exact returned_eq_of_alone h (by simp [FrontAct.listener]) (by simp [FrontAct.wpl])

/-- **What the listener returns is what the loop accepts**, in order. -/
theorem returned_eq_of_run (h : (front crates lib pk).Run (.new, .new) tr s) :
    Listener.returned tr.listener = (Wpl.acceptedPipes tr.wpl).map WsPipe.incoming := by
  refine h.induct (fun tr _ => Listener.returned (FrontTrace.listener tr) =
    (Wpl.acceptedPipes (FrontTrace.wpl tr)).map WsPipe.incoming) rfl ?_
  intro tr s c t o hrun ih hs
  have hof : ∀ i ∈ s.1.queue.queue, ∃ c md, i = .of c md := fun i hi =>
    Listener.exists_of_queued (listener_of_run hrun) (FrontTrace.ne_drop tr) hi
  have hwpl : FrontTrace.wpl (tr ++ [⟨s, c, o, t⟩]) =
      FrontTrace.wpl tr ++ sides.rightEvent ⟨s, c, o, t⟩ := sides.rightOf_snoc tr _
  have hlistener : FrontTrace.listener (tr ++ [⟨s, c, o, t⟩]) =
      FrontTrace.listener tr ++ sides.leftEvent ⟨s, c, o, t⟩ := sides.leftOf_snoc tr _
  rw [hlistener, hwpl, Listener.returned_append, ih, door_step hs hof, ← List.map_append]
  exact congrArg (List.map WsPipe.incoming) List.flatMap_append.symm

end Parts

/-! ### What becomes of a pipe

A pipe that the loop has accepted is in its hand until it is attached or dropped. It is in one of
the three places and in no two of them, since the loop takes the next one only after that. -/

namespace Wpl

variable {lib : Primitives} {pk : MuxPublic} {s s' : Wpl} {a : WplAct} {o : WplOut} {tr : Trace}

/-- The pipe that was dropped in a step. -/
def droppedOf : WplOut → List WsPipe
  | .dropped pipe => [pipe]
  | _ => []

/-- The pipes that were dropped. -/
def droppedPipes (tr : Trace) : List WsPipe := tr.flatMap fun e => droppedOf e.out

theorem droppedPipes_snoc (tr : Trace) (e : Event Wpl WplAct WplOut) :
    droppedPipes (tr ++ [e]) = droppedPipes tr ++ droppedOf e.out := by
  rw [droppedPipes, List.flatMap_append, List.flatMap_singleton, droppedPipes]

/-- The pipes that the loop has taken: attached, dropped or in its hand. -/
def taken (tr : Trace) (s : Wpl) : List WsPipe :=
  attachedPipes tr ++ droppedPipes tr ++ s.pc.inHand

/-- The books after any step. -/
theorem Rule.taken (h : Rule lib pk s a o s')
    (hacc : (acceptedPipes tr : Multiset WsPipe) = taken tr s) :
    (acceptedPipes (tr ++ [⟨s, a, o, s'⟩]) : Multiset WsPipe) =
      Wpl.taken (tr ++ [⟨s, a, o, s'⟩]) s' := by
  rw [Wpl.taken, ← Multiset.coe_add, ← Multiset.coe_add] at hacc ⊢
  rw [acceptedPipes_snoc, attachedPipes_snoc, droppedPipes_snoc, ← Multiset.coe_add,
    ← Multiset.coe_add, ← Multiset.coe_add, hacc]
  cases h with
  | attached hpc | dropped hpc =>
    simp only [hpc, acceptedOf, attachedOf, droppedOf, WplPc.inHand, setMux, round,
      Multiset.coe_nil]
    abel
  | visit hpc | pruned hpc | accepted hpc | stopped hpc | found hpc | created hpc | released hpc
    | upgraded hpc =>
    simp [hpc, acceptedOf, attachedOf, droppedOf, WplPc.inHand, setMux]
  | session hx hstep => simp [acceptedOf, attachedOf, droppedOf, setMux]

/-- Every accepted pipe is attached, dropped or in the loop's hand, once. -/
theorem taken_of_run (h : (machine lib pk).Run new tr s) :
    (acceptedPipes tr : Multiset WsPipe) = taken tr s :=
  h.induct (fun tr s => (acceptedPipes tr : Multiset WsPipe) = taken tr s) rfl
    fun _ _ _ _ _ _ ih hs => (rule_of_step hs).taken ih

/-- A mux has only pipes that were attached. -/
theorem mem_attached_of_run (h : (machine lib pk).Run new tr s) {x : Mux} {pipe : WsPipe}
    (hx : x ∈ s.muxes) (hpipe : pipe ∈ x.pipes) : pipe ∈ attachedPipes tr := by
  refine h.induct (fun tr s => ∀ x ∈ s.muxes, ∀ pipe ∈ x.pipes, pipe ∈ attachedPipes tr)
    (fun x hx => by cases hx) ?_ x hx pipe hpipe
  intro tr s a s' o _ ih hs x hx pipe hpipe
  rw [attachedPipes_snoc]
  have hold (h : x ∈ s.muxes) : pipe ∈ attachedPipes tr ++ attachedOf o :=
    List.mem_append_left _ (ih x h pipe hpipe)
  cases rule_of_step hs with
  | visit | pruned | accepted | stopped | found | dropped => exact hold hx
  | created =>
    rcases List.mem_append.mp hx with hx | hx
    · exact hold hx
    · rw [List.mem_singleton.mp hx] at hpipe
      cases hpipe
  | released _ hy | upgraded _ hy _ | session hy _ =>
    rcases List.mem_or_eq_of_mem_set hx with hx | rfl
    · exact hold hx
    · exact List.mem_append_left _ (ih _ (List.mem_of_getElem? hy) pipe hpipe)
  | attached _ hy =>
    rcases List.mem_or_eq_of_mem_set hx with hx | rfl
    · exact hold hx
    · rcases List.mem_append.mp hpipe with hpipe | hpipe
      · exact List.mem_append_left _ (ih _ (List.mem_of_getElem? hy) pipe hpipe)
      · exact List.mem_append_right _ hpipe

end Wpl

section Account

variable {crates : PipeCrates} {lib : Primitives} {pk : MuxPublic} {tr : FrontTrace}
  {s : Listener × Wpl}

/-- Every handshaken connection is taken by the loop, queued or waiting, once. -/
theorem held_of_front (h : (front crates lib pk).Run (.new, .new) tr s) :
    (((Wpl.taken tr.wpl s.2).map WsPipe.incoming : List Incoming) : Multiset Incoming) +
      s.1.queue.queue + s.1.waiting = Listener.handshaken tr.listener := by
  have hheld := Listener.held_of_run (listener_of_run h) tr.ne_drop
  rw [Listener.HeldOnce, returned_eq_of_run h, ← Multiset.map_coe,
    Wpl.taken_of_run (wpl_of_run h), Multiset.map_coe] at hheld
  exact hheld

/-- A pipe that the loop has taken got through its handshake. -/
theorem mem_handshaken_of_taken (h : (front crates lib pk).Run (.new, .new) tr s) {pipe : WsPipe}
    (hpipe : pipe ∈ Wpl.taken tr.wpl s.2) :
    pipe.incoming ∈ Listener.handshaken tr.listener := by
  have hmem : pipe.incoming ∈ (Listener.handshaken tr.listener : Multiset Incoming) := by
    rw [← held_of_front h]
    have := List.mem_map_of_mem (f := WsPipe.incoming) hpipe
    exact Multiset.mem_add.mpr (.inl (Multiset.mem_add.mpr (.inl this)))
  exact hmem

/-- **What becomes of every connection.** In every run of the listener and the server, with any
requests, failures and expiring sessions: a connection that has got through its handshake is
waiting in its task, queued, in the loop's hand, attached to a session or dropped by the loop,
once; no connection is taken twice; and a pipe that was taken has the first key of a request on
its own connection. -/
theorem front_account (h : (front crates lib pk).Run (.new, .new) tr s) :
    (((Wpl.taken tr.wpl s.2).map WsPipe.incoming : List Incoming) : Multiset Incoming) +
        s.1.queue.queue + s.1.waiting = Listener.handshaken tr.listener ∧
      ((Wpl.taken tr.wpl s.2).map WsPipe.id).Nodup ∧
      ∀ pipe ∈ Wpl.taken tr.wpl s.2, ∃ e ∈ tr, ∃ req,
        e.act = .handshake pipe.id (some req) ∧
        req.headers.get "Sec-Websocket-Key" = some (utf8 pipe.peerMetadata) := by
  have hheld := held_of_front h
  refine ⟨hheld, ?_, ?_⟩
  · have hdistinct := (Listener.distinct_of_run (listener_of_run h)).nodup
    rw [← Multiset.coe_nodup, ← Multiset.map_coe, ← hheld, Multiset.map_add, Multiset.map_add,
      add_assoc] at hdistinct
    have hnodup := Multiset.nodup_of_le (Multiset.le_add_right _ _) hdistinct
    rw [Multiset.map_coe, Multiset.coe_nodup, List.map_map] at hnodup
    exact hnodup
  · intro pipe hpipe
    obtain ⟨e, he, c, req, key, hact, hkey, hi⟩ :=
      FrontTrace.exists_request (mem_handshaken_of_taken h hpipe)
    obtain ⟨rfl, rfl⟩ := Incoming.of_inj hi
    exact ⟨e, he, req, hact, (Request.key_eq_some hkey).1⟩

/-- One connection is refused, one is attached, and one is queued. -/
theorem front_account_three :
    ∃ (tr : FrontTrace) (s : Listener × Wpl), (front .plain .null .zero).Run (.new, .new) tr s ∧
      Listener.handshaken tr.listener =
        [.of 1 "AAAAAAAAAAAAAAAAAAAAAA==", .of 2 "AAAAAAAAAAAAAAAAAAAAAA=="] ∧
      Wpl.attachedPipes tr.wpl = [.zero 1] ∧ ((Wpl.taken tr.wpl s.2).map WsPipe.id).Nodup := by
  obtain ⟨tr, s, hrun, -, hhand, hatt⟩ :=
    Machine.exists_run_of_exec (front .plain .null .zero) (.new, .new)
    [.connect, .connect, .connect, .setNodelay 0 true, .setNodelay 1 true, .setNodelay 2 true,
      .handshake 0 (some ⟨[]⟩),
      .handshake 1 (some ⟨[("sec-websocket-key", utf8 "AAAAAAAAAAAAAAAAAAAAAA==")]⟩),
      .handshake 2 (some ⟨[("sec-websocket-key", utf8 "AAAAAAAAAAAAAAAAAAAAAA==")]⟩),
      .recvMd 1, .sendPipe 1, .recvMd 2, .sendPipe 2, .pruned, .accept (.zero 1), .entry, .created,
      .upgrade, .addPipe]
    (P := fun tr s => Listener.handshaken (FrontTrace.listener tr) =
        [.of 1 "AAAAAAAAAAAAAAAAAAAAAA==", .of 2 "AAAAAAAAAAAAAAAAAAAAAA=="] ∧
      Wpl.attachedPipes (FrontTrace.wpl tr) = [.zero 1]) (by decide)
  exact ⟨tr, s, hrun, hhand, hatt, (front_account hrun).2.1⟩

end Account

/-! ### When the server stops

`accept_pipe` fails when the queue is closed and empty. The queue is closed when all its senders
are gone, and these are the listening loop and the tasks of the connections. So when the server's
loop returns, the listening loop has returned as well, and nobody can be left who waits to be
queued. -/

/-- A queue that is closed and empty stays so. -/
theorem Listener.Rule.stays_closed {s s' : Listener} {a : ListenerAct} {o : ListenerOut}
    (h : Listener.Rule s a o s') (hq : s.queue.queue = []) (hc : s.queue.closed = true) :
    s'.queue.queue = [] ∧ s'.queue.closed = true := by
  have hsettle {t : Listener} (hq : t.queue.queue = []) (hc : t.queue.closed = true) :
      t.settle.queue.queue = [] ∧ t.settle.queue.closed = true := by
    refine ⟨by rw [Listener.queue_settle, hq], (Listener.closed_settle t).mpr (.inl hc)⟩
  cases h with
  | connect | nodelay | handshake | metadata | broken => exact ⟨hq, hc⟩
  | acceptError | nodelayError | handshakeError | metadataGone | refused => exact hsettle hq hc
  | queued _ hsend =>
    have hopen := (Chan.trySend_ok hsend).1
    rw [hc] at hopen
    cases hopen
  | accepted _ hrecv =>
    have hcons := (Chan.tryRecv_ok hrecv).1
    rw [hq] at hcons
    cases hcons
  | pending _ hnew =>
    subst hnew
    exact ⟨hq, hc⟩
  | drop => exact ⟨hq, rfl⟩

/-- `accept` returns an error from a queue that is closed and empty. -/
theorem Listener.Rule.queue_of_broken {s s' : Listener} {a : ListenerAct}
    (h : Listener.Rule s a (.accepted (.error .brokenPipe)) s') :
    s.queue.queue = [] ∧ s.queue.closed = true := by
  cases h with
  | broken _ hq hc => exact ⟨hq, hc⟩

/-- The loop returns from `accept_pipe` only. -/
theorem Wpl.Rule.returned_iff {lib : Primitives} {pk : MuxPublic} {w w' : Wpl} {a : WplAct}
    {o : WplOut} (h : Wpl.Rule lib pk w a o w') :
    w'.pc = .returned ↔ a = .acceptError ∨ w.pc = .returned := by
  cases h with
  | stopped => simp
  | session => simp [setMux]
  | visit hpc | pruned hpc | accepted hpc | found hpc | created hpc | released hpc | upgraded hpc
    | dropped hpc | attached hpc => simp [hpc, setMux, round]

theorem Wpl.Rule.ne_panicked {lib : Primitives} {pk : MuxPublic} {w w' : Wpl} {a : WplAct}
    {o : WplOut} (h : Wpl.Rule lib pk w a o w') (hw : w.pc ≠ .panicked) : w'.pc ≠ .panicked := by
  cases h with
  | session => exact hw
  | _ => simp [setMux, round]

section Stops

variable {crates : PipeCrates} {lib : Primitives} {pk : MuxPublic} {tr : FrontTrace}
  {s : Listener × Wpl}

/-- Where the loop can stand. -/
structure Stands (s : Listener × Wpl) : Prop where
  noPanic : s.2.pc ≠ .panicked
  returned : s.2.pc = .returned → s.1.queue.queue = [] ∧ s.1.queue.closed = true

theorem Stands.step {s t : Listener × Wpl} {c : FrontAct}
    {o : Option ListenerOut × Option WplOut} (hi : Stands s)
    (h : (front crates lib pk).step s c = some (t, o)) : Stands t := by
  obtain ⟨hl, hr, hagree⟩ := Machine.sync_step_iff.mp h
  -- the listener leaves a closed and empty queue as it is
  have hstays (hq : s.1.queue.queue = [] ∧ s.1.queue.closed = true) :
      t.1.queue.queue = [] ∧ t.1.queue.closed = true := by
    rcases Machine.stepOr_cases hl with ⟨-, -, ht⟩ | ⟨b, p, -, -, hstep⟩
    · rwa [ht]
    · exact (Listener.rule_of_step hstep).stays_closed hq.1 hq.2
  rcases Machine.stepOr_cases hr with ⟨-, -, ht⟩ | ⟨b, p, hb, -, hstep⟩
  · refine ⟨by rw [ht]; exact hi.noPanic, fun hret => ?_⟩
    rw [ht] at hret
    exact hstays (hi.returned hret)
  · have hrule := Wpl.rule_of_step hstep
    refine ⟨hrule.ne_panicked hi.noPanic, fun hret => ?_⟩
    rcases hrule.returned_iff.mp hret with rfl | hold
    · -- `accept` has found the queue closed and empty
      have hc : c = .acceptError := by
        have hwpl : c.wpl = some .acceptError := hb
        cases c <;> cases hwpl
        rfl
      subst hc
      have ho := PipeCrates.fails_iff.mp hagree
      rcases Machine.stepOr_cases hl with ⟨ha, -, -⟩ | ⟨b, p, -, hp, hlstep⟩
      · cases ha
      · obtain rfl := Option.some.inj (hp.symm.trans ho)
        exact hstays (Listener.rule_of_step hlstep).queue_of_broken
    · exact hstays (hi.returned hold)

theorem stands_of_run (h : (front crates lib pk).Run (.new, .new) tr s) : Stands s :=
  h.invariant Stands ⟨by simp [Wpl.new], by simp [Wpl.new]⟩ fun _ _ _ _ hi hs => hi.step hs

/-- The listener's loop runs until `socket.accept` fails. -/
theorem socketError_of_returned (h : (front crates lib pk).Run (.new, .new) tr s)
    (hloop : s.1.loop = .returned) : ∃ e ∈ tr, e.act = .socketError := by
  by_contra hnone
  have hacts : ∀ e ∈ tr.listener, e.act ≠ .drop ∧ e.act ≠ .acceptError := by
    refine fun e he => ⟨tr.ne_drop e he, fun hact => hnone ?_⟩
    obtain ⟨f, hf, hleft⟩ := sides.exists_of_mem_leftOf he
    rw [hact] at hleft
    have hlistener : f.act.listener = some .acceptError := hleft
    refine ⟨f, hf, ?_⟩
    cases hfact : f.act <;> rw [hfact] at hlistener <;> cases hlistener
  have hrunning : s.1.loop = .accepting := by
    refine (listener_of_run h).invariant_of (fun t => t.loop = .accepting) rfl ?_ hacts
    intro t a t' o ht hQ hs
    exact (Listener.loop_of_rule (Listener.rule_of_step hs) hQ.1).mpr ⟨ht, hQ.2⟩
  rw [hloop] at hrunning
  cases hrunning

/-- **Only the listening socket can stop the server.** Whatever requests come in, and whatever
keys they carry, the server does not panic; and when its loop has returned, `socket.accept` has
failed before, and every connection that ever got through its handshake has been attached to a
session or dropped by the loop: none is left behind in a task or in the queue. -/
theorem front_stops (h : (front crates lib pk).Run (.new, .new) tr s) :
    s.2.pc ≠ .panicked ∧
      (s.2.pc = .returned → (∃ e ∈ tr, e.act = .socketError) ∧
        ((Wpl.attachedPipes tr.wpl ++ Wpl.droppedPipes tr.wpl).map WsPipe.incoming).Perm
          (Listener.handshaken tr.listener)) := by
  have hstands := stands_of_run h
  refine ⟨hstands.noPanic, fun hret => ?_⟩
  obtain ⟨hq, hclosed⟩ := hstands.returned hret
  obtain ⟨hloop, hended⟩ := (Listener.inv_of_run (listener_of_run h) tr.ne_drop).closed hclosed
  refine ⟨socketError_of_returned h hloop, ?_⟩
  have hwaiting : s.1.waiting = [] := by
    rw [Listener.waiting, List.flatten_eq_nil_iff]
    intro l hl
    obtain ⟨c, hc, rfl⟩ := List.mem_mapIdx.mp hl
    rw [hended _ (List.getElem_mem hc)]
    rfl
  have hheld := held_of_front h
  rw [hq, hwaiting, Multiset.coe_nil, add_zero, add_zero, Wpl.taken, hret,
    show WplPc.returned.inHand = [] from rfl, List.append_nil, Multiset.coe_eq_coe] at hheld
  exact hheld

/-- The listening socket fails while a client is in its handshake; the client is served, and then
the loop returns. -/
theorem front_stops_last :
    ∃ (tr : FrontTrace) (s : Listener × Wpl), (front .plain .null .zero).Run (.new, .new) tr s ∧
      s.2.pc = .returned ∧
      Wpl.attachedPipes tr.wpl = [.zero 0] ∧
      ((Wpl.attachedPipes tr.wpl ++ Wpl.droppedPipes tr.wpl).map WsPipe.incoming).Perm
        (Listener.handshaken tr.listener) := by
  obtain ⟨tr, s, hrun, -, hret, hatt⟩ :=
    Machine.exists_run_of_exec (front .plain .null .zero) (.new, .new)
    [.connect, .setNodelay 0 true, .socketError,
      .handshake 0 (some ⟨[("sec-websocket-key", utf8 "AAAAAAAAAAAAAAAAAAAAAA==")]⟩),
      .recvMd 0, .sendPipe 0, .pruned, .accept (.zero 0), .entry, .created, .upgrade, .addPipe,
      .visit 0, .pruned, .acceptError]
    (P := fun tr s => s.2.pc = .returned ∧ Wpl.attachedPipes (FrontTrace.wpl tr) = [.zero 0])
    (by decide)
  exact ⟨tr, s, hrun, hret, hatt, ((front_stops hrun).2 hret).2⟩

end Stops

/-! ### Who shares a session

The key of a pipe decodes to the hash of the etag that generated it, and the pipe is attached to
the mux of that hash. That there is one live mux for each hash was shown before; what is added
here is the way from the client to the hash. -/

section Sessions

variable {crates : PipeCrates} {lib : Primitives} {pk : MuxPublic} {tr : FrontTrace}
  {s : Listener × Wpl}

/-- All requests on the connection `c` carry a key that this etag generated. -/
def Etag.Sends (lib : Primitives) (e : Etag) (tr : FrontTrace) (c : ℕ) : Prop :=
  ∀ ev ∈ tr, ∀ req, ev.act = .handshake c (some req) →
    ∃ nonce key, e.generate lib nonce = some key ∧
      req.headers.get "Sec-Websocket-Key" = some (utf8 key)

/-- The server decodes a pipe of a client to the hash of its etag. -/
theorem fromKey_of_sends (h : (front crates lib pk).Run (.new, .new) tr s) {e : Etag}
    {pipe : WsPipe}
    (hpk : e.pkHash = lib.clientEtagHash pk.asBytes.val) (hpipe : pipe ∈ Wpl.taken tr.wpl s.2)
    (hsends : e.Sends lib tr pipe.id) :
    Etag.fromKey lib pk pipe.peerMetadata = some (.ok (e.calcHash lib)) := by
  obtain ⟨ev, hev, c, req, key, hact, hkey, hi⟩ :=
    FrontTrace.exists_request (mem_handshaken_of_taken h hpipe)
  obtain ⟨rfl, rfl⟩ := Incoming.of_inj hi
  obtain ⟨nonce, key, hgen, hget⟩ := hsends ev hev req hact
  have hsame := utf8_injective
    (Option.some.inj ((Request.key_eq_some hkey).1.symm.trans hget))
  obtain ⟨key', hgen', hbase64⟩ := Etag.exists_generate lib e nonce
  obtain rfl := Option.some.inj (hgen.symm.trans hgen')
  rw [hsame]
  exact Etag.fromKey_generate lib pk hpk hbase64

/-- **Who shares a session.** In every run, two pipes in live sessions are in the same session
exactly when the etags of the clients that made them have the same hash, whatever nonces their keys
were drawn with, whichever connections came first, and whichever sessions expired in between. -/
theorem front_session_iff (h : (front crates lib pk).Run (.new, .new) tr s) {e e' : Etag}
    (hpk : e.pkHash = lib.clientEtagHash pk.asBytes.val)
    (hpk' : e'.pkHash = lib.clientEtagHash pk.asBytes.val) {m m' : ℕ} {x x' : Mux}
    (hx : s.2.muxes[m]? = some x) (hx' : s.2.muxes[m']? = some x') (hm : s.2.alive m = true)
    (hm' : s.2.alive m' = true) {pipe pipe' : WsPipe} (hpipe : pipe ∈ x.pipes)
    (hpipe' : pipe' ∈ x'.pipes) (hsends : e.Sends lib tr pipe.id)
    (hsends' : e'.Sends lib tr pipe'.id) : m = m' ↔ e.calcHash lib = e'.calcHash lib := by
  have hwpl := wpl_of_run h
  have hi := Wpl.inv_of_run hwpl
  have htaken {m : ℕ} {x : Mux} {pipe : WsPipe} (hx : s.2.muxes[m]? = some x)
      (hpipe : pipe ∈ x.pipes) : pipe ∈ Wpl.taken tr.wpl s.2 := by
    rw [Wpl.taken, List.append_assoc]
    exact List.mem_append_left _
      (Wpl.mem_attached_of_run hwpl (List.mem_of_getElem? hx) hpipe)
  have hhash := hi.hashOf_of_pipe hx hpipe (fromKey_of_sends h hpk (htaken hx hpipe) hsends)
  have hhash' :=
    hi.hashOf_of_pipe hx' hpipe' (fromKey_of_sends h hpk' (htaken hx' hpipe') hsends')
  constructor
  · rintro rfl
    exact Option.some.inj (hhash.symm.trans hhash')
  · intro heq
    rw [← heq] at hhash'
    exact hi.tracks.unique hm hm' hhash hhash'

/-- For concrete runs: primitives that tell etags apart by the time at which they were made. -/
def Primitives.byTime : Primitives where
  keyedHash _ data := ⟨.replicate 32 (.ofNat data.length), List.length_replicate⟩
  keystream _ _ _ := 0
  defaultHasher data := (data.headD 0).toUInt64
  debugEtag e := String.ofList (.replicate e.time1 'x')

/-- For concrete runs: the etag made at that time. -/
def Etag.madeAt (time : ℕ) : Etag :=
  .new .byTime ⟨.replicate 1024 0, List.length_replicate⟩ time 0 .zero

/-- For concrete runs: a pipe of the client whose etag was made at time 1. -/
def WsPipe.one (id : ℕ) : WsPipe where
  id := id
  peerMetadata := "AAAAAAAAAAAAAAAAAAAAAQ=="
  accepted := isKey_iff.mpr ⟨.replicate 15 0 ++ [1], rfl, by decide⟩

/-- Two clients: each has its own session. -/
theorem front_session_iff_two :
    ∃ (tr : FrontTrace) (s : Listener × Wpl), (front .plain .byTime .zero).Run (.new, .new) tr s ∧
      s.2.muxes.map Mux.pipes = [[.zero 0], [.one 1]] ∧
      (Etag.madeAt 0).calcHash .byTime ≠ (Etag.madeAt 1).calcHash .byTime := by
  obtain ⟨tr, s, hrun, hacts, hpipes, hlive, hlive'⟩ :=
    Machine.exists_run_of_exec (front .plain .byTime .zero) (.new, .new)
      [.connect, .connect, .setNodelay 0 true, .setNodelay 1 true,
        .handshake 0 (some ⟨[("sec-websocket-key", utf8 "AAAAAAAAAAAAAAAAAAAAAA==")]⟩),
        .handshake 1 (some ⟨[("sec-websocket-key", utf8 "AAAAAAAAAAAAAAAAAAAAAQ==")]⟩),
        .recvMd 0, .sendPipe 0, .recvMd 1, .sendPipe 1, .pruned, .accept (.zero 0), .entry,
        .created, .upgrade, .addPipe, .visit 0, .pruned, .accept (.one 1), .entry, .created,
        .upgrade, .addPipe]
      (P := fun _ s => s.2.muxes.map Mux.pipes = [[.zero 0], [.one 1]] ∧ s.2.alive 0 = true ∧
        s.2.alive 1 = true) (by decide)
  have hsends (c : ℕ) (e : Etag) (v : String)
      (hgen : e.generate .byTime ⟨.replicate 8 0, List.length_replicate⟩ = some v)
      (hreq : ∀ req, .handshake c (some req) ∈ tr.map Event.act →
        req.headers.get "Sec-Websocket-Key" = some (utf8 v)) : e.Sends .byTime tr c := by
    intro ev hev req hact
    exact ⟨_, v, hgen, hreq req (hact ▸ List.mem_map_of_mem hev)⟩
  have hsends0 : (Etag.madeAt 0).Sends .byTime tr 0 := by
    refine hsends 0 _ "AAAAAAAAAAAAAAAAAAAAAA==" (by decide) fun req hreq => ?_
    have heq : req = ⟨[("sec-websocket-key", utf8 "AAAAAAAAAAAAAAAAAAAAAA==")]⟩ := by
      simpa [hacts] using hreq
    rw [heq]
    decide
  have hsends1 : (Etag.madeAt 1).Sends .byTime tr 1 := by
    refine hsends 1 _ "AAAAAAAAAAAAAAAAAAAAAQ==" (by decide) fun req hreq => ?_
    have heq : req = ⟨[("sec-websocket-key", utf8 "AAAAAAAAAAAAAAAAAAAAAQ==")]⟩ := by
      simpa [hacts] using hreq
    rw [heq]
    decide
  refine ⟨tr, s, hrun, hpipes, fun heq => ?_⟩
  have hget (m : ℕ) : s.2.muxes[m]?.map Mux.pipes = [[.zero 0], [.one 1]][m]? := by
    rw [← hpipes, List.getElem?_map]
  obtain ⟨x, hx, hxpipes⟩ := Option.map_eq_some_iff.mp (hget 0)
  obtain ⟨y, hy, hypipes⟩ := Option.map_eq_some_iff.mp (hget 1)
  have hmem : WsPipe.zero 0 ∈ x.pipes := hxpipes ▸ List.mem_singleton_self _
  have hmem' : WsPipe.one 1 ∈ y.pipes := hypipes ▸ List.mem_singleton_self _
  have hiff := @front_session_iff .plain .byTime .zero tr s hrun (.madeAt 0) (.madeAt 1) rfl rfl
    0 1 x y hx hy hlive hlive' (.zero 0) (.one 1) hmem hmem' hsends0 hsends1
  exact absurd (hiff.mpr heq) (by decide)

end Sessions

end ObfsWs
