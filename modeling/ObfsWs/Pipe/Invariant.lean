import ObfsWs.Pipe.Rules

/-!
# The loops, the flag and the ends of the channels

The invariant every later module starts from: while a handle lives, a loop stops only under the
flag, and a channel is closed only by the loop at its other end.

## Main results

* `Pipe.inv_of_run` — the invariant holds of every state a new pipe can reach
* `Pipe.closed_of_run` — the flag is never cleared

## What the invariant leaves out

As soon as the last handle is dropped, both channels are closed by the handles' side, and a loop
may stop without the flag: its next send or receive fails. The invariant says so by its
alternatives, and no more: what is promised to a handle is promised while there is one.

A loop that has stopped has not returned yet. Between the two it still holds its end of the
channel, so the channel is not closed, and a reader or a writer that looks at it in this moment
cannot know. Several of the results above are about this moment.
-/

namespace ObfsWs

/-- The recorded steps of a run of the pipe. -/
abbrev Trace (β : Type) := List (Event (Pipe β) (Act β) (Out β))

namespace Pipe

variable {β : Type} {p p' : Pipe β} {a : Act β} {o : Out β}

/-! ### Handles -/

theorem getElem?_of_handle {h : ℕ} {hd : Handle β} (hh : p.handle? h = some hd) :
    p.handles[h]? = some (some hd) :=
  Option.join_eq_some_iff.mp hh

theorem lt_of_handle {h : ℕ} {hd : Handle β} (hh : p.handle? h = some hd) :
    h < p.handles.length :=
  (List.getElem?_eq_some_iff.mp (getElem?_of_handle hh)).1

theorem alive_of_handle {h : ℕ} {hd : Handle β} (hh : p.handle? h = some hd) :
    p.alive = true :=
  List.any_eq_true.mpr ⟨_, List.mem_of_getElem? (getElem?_of_handle hh), rfl⟩

theorem alive_setHandle {h : ℕ} {hd : Handle β} (hh : p.handle? h = some hd) (hd' : Handle β) :
    (p.setHandle h hd').alive = true :=
  List.any_eq_true.mpr ⟨_, List.mem_set (lt_of_handle hh) _, rfl⟩

/-! ### The invariant -/

/-- What holds of the loops, the flag and the ends of the channels in every reachable state. -/
structure Inv (p : Pipe β) : Prop where
  /-- While a handle lives, `send_loop` stops under the flag only. -/
  sendStop : p.sendLoop.stopped = true → p.closed = true ∨ p.alive = false
  /-- While a handle lives, `recv_loop` stops under the flag only. -/
  recvStop : p.recvLoop.stopped = true → p.closed = true ∨ p.alive = false
  /-- While a handle lives, only `send_loop` closes `inner_send`. -/
  sendClosed : p.innerSend.closed = true → p.sendLoop = .returned ∨ p.alive = false
  /-- While a handle lives, only `recv_loop` closes `inner_recv`. -/
  recvClosed : p.innerRecv.closed = true → p.recvLoop = .returned ∨ p.alive = false
  sendGone : p.sendLoop = .returned → p.innerSend.closed = true
  recvGone : p.recvLoop = .returned → p.innerRecv.closed = true
  finished : p.finished = true → p.sendLoop = .returned ∧ p.recvLoop = .returned
  /-- Nobody waits on `inner_recv`: `poll_read` is its only receiver. -/
  recvListeners : p.innerRecv.listeners = []

theorem inv_new (peerUrl peerMetadata : String) : Inv (new peerUrl peerMetadata : Pipe β) := by
  constructor <;> simp [new, SendPc.stopped, RecvPc.stopped]

theorem racing_iff : p.racing = true ↔
    p.finished = false ∧ p.sendLoop.stopped = false ∧ p.recvLoop.stopped = false := by
  simp [racing, and_assoc]

/-- A call on a handle that leaves the flag and the ends of the channels alone. -/
theorem Inv.call (hi : Inv p) (ha : p.alive = true) (ha' : p'.alive = true)
    (hc : p'.closed = p.closed) (hs : p'.sendLoop = p.sendLoop) (hr : p'.recvLoop = p.recvLoop)
    (hf : p'.finished = p.finished) (hsc : p'.innerSend.closed = p.innerSend.closed)
    (hrc : p'.innerRecv.closed = p.innerRecv.closed)
    (hrl : p'.innerRecv.listeners = p.innerRecv.listeners) : Inv p' := by
  obtain ⟨h1, h2, h3, h4, h5, h6, h7, h8⟩ := hi
  rw [ha] at h1 h2 h3 h4
  constructor <;> simp only [ha', hc, hs, hr, hf, hsc, hrc, hrl] <;> assumption

/-- `send_loop` moves on, and perhaps out of its `while`. -/
theorem Inv.moveSend (hi : Inv p) (hr : p.racing = true) {c : Bool} {pc : SendPc β}
    {ch : Chan (List β) Waker} (hc : p.closed = true → c = true) (hne : pc ≠ .returned)
    (hpc : pc.stopped = true → c = true ∨ p.alive = false)
    (hch : ch.closed = p.innerSend.closed) :
    Inv { p with closed := c, sendLoop := pc, innerSend := ch } := by
  obtain ⟨hf, hs, -⟩ := racing_iff.mp hr
  have hrun : p.sendLoop ≠ .returned := fun h => by simp [h, SendPc.stopped] at hs
  exact {
    sendStop := hpc
    recvStop := fun h => (hi.recvStop h).imp_left hc
    sendClosed := fun h => .inr ((hi.sendClosed (hch.symm.trans h)).resolve_left hrun)
    recvClosed := hi.recvClosed
    sendGone := fun h => absurd h hne
    recvGone := hi.recvGone
    finished := fun h => absurd (hf.symm.trans h) (by simp)
    recvListeners := hi.recvListeners }

/-- `recv_loop` moves on, and perhaps out of its `while`. -/
theorem Inv.moveRecv (hi : Inv p) (hr : p.racing = true) {c : Bool} {pc : RecvPc β}
    {ch : Chan (List β) Waker} {items : List (Item β)} (hc : p.closed = true → c = true)
    (hne : pc ≠ .returned) (hpc : pc.stopped = true → c = true ∨ p.alive = false)
    (hch : ch.closed = p.innerRecv.closed) (hl : ch.listeners = []) :
    Inv { p with closed := c, recvLoop := pc, innerRecv := ch, incoming := items } := by
  obtain ⟨hf, -, hs⟩ := racing_iff.mp hr
  have hrun : p.recvLoop ≠ .returned := fun h => by simp [h, RecvPc.stopped] at hs
  exact {
    sendStop := fun h => (hi.sendStop h).imp_left hc
    recvStop := hpc
    sendClosed := hi.sendClosed
    recvClosed := fun h => .inr ((hi.recvClosed (hch.symm.trans h)).resolve_left hrun)
    sendGone := hi.sendGone
    recvGone := fun h => absurd h hne
    finished := fun h => absurd (hf.symm.trans h) (by simp)
    recvListeners := hl }

theorem Inv.step (hi : Inv p) (hr : Rule p a o p') : Inv p' := by
  cases hr with
  | writeBroken | flush => exact hi
  | arrive | setWritable =>
    obtain ⟨h1, h2, h3, h4, h5, h6, h7, h8⟩ := hi
    exact ⟨h1, h2, h3, h4, h5, h6, h7, h8⟩
  | close =>
    obtain ⟨-, -, h3, h4, h5, h6, h7, h8⟩ := hi
    exact ⟨fun _ => .inl rfl, fun _ => .inl rfl, h3, h4, h5, h6, h7, h8⟩
  | writeEnter hh | writeLost hh =>
    exact hi.call (alive_of_handle hh) (alive_setHandle hh _) rfl rfl rfl rfl rfl rfl rfl
  | writeStored hh hsend =>
    obtain ⟨hopen, -, -, hopen', -⟩ := Chan.trySend_ok hsend
    exact hi.call (alive_of_handle hh) (alive_setHandle hh _) rfl rfl rfl rfl
      (hopen'.trans hopen.symm) rfl rfl
  | @read h ctx buf recvBuf r hh hr =>
    subst hr
    obtain ⟨hc, hl, -⟩ := readOutcome_chan recvBuf p.innerRecv buf
    exact hi.call (alive_of_handle hh) (alive_setHandle hh _) rfl rfl rfl rfl rfl hc hl
  | clone hh =>
    exact hi.call (alive_of_handle hh) (by simp [alive]) rfl rfl rfl rfl rfl rfl rfl
  | drop hh hp' ha' =>
    subst hp'
    exact hi.call (alive_of_handle hh) ha' rfl rfl rfl rfl rfl rfl rfl
  | dropLast _ hp' ha =>
    subst hp'
    exact ⟨fun _ => .inr ha, fun _ => .inr ha, fun _ => .inr ha, fun _ => .inr ha, fun _ => rfl,
      fun _ => rfl, hi.finished, rfl⟩
  | sendHead hr _ =>
    refine hi.moveSend hr id ?_ ?_ rfl <;> cases hc : p.closed <;> simp [SendPc.stopped]
  | sendTook hr _ ht =>
    exact hi.moveSend hr id (by simp) (by simp [SendPc.stopped]) (Chan.tryRecv_ok ht).2.1
  | sendHungUp hr hl _ hclosed =>
    -- `inner_send` is closed under a running `send_loop` by the last handle only
    have hdead := (hi.sendClosed hclosed).resolve_left (by simp [hl])
    exact hi.moveSend hr id (by simp) (fun _ => .inr hdead) rfl
  | sendPark hr hl _ _ _ hch =>
    subst hch
    exact hi.moveSend hr id (by simp [hl]) (by simp [hl, SendPc.stopped]) rfl
  | sinkTake hr | sinkFlush hr =>
    exact hi.moveSend hr id (by simp) (by simp [SendPc.stopped]) rfl
  | sinkFail hr => exact hi.moveSend hr (fun _ => rfl) (by simp) (fun _ => .inl rfl) rfl
  | recvHead hr _ =>
    refine hi.moveRecv hr id ?_ ?_ rfl hi.recvListeners <;> cases hc : p.closed <;>
      simp [RecvPc.stopped]
  | recvBinary hr | recvSkip hr =>
    exact hi.moveRecv hr id (by simp) (by simp [RecvPc.stopped]) rfl hi.recvListeners
  | recvEnd hr =>
    exact hi.moveRecv hr (fun _ => rfl) (by simp) (fun _ => .inl rfl) rfl hi.recvListeners
  | recvPut hr _ hsend =>
    obtain ⟨hopen, -, -, hopen', hl, -⟩ := Chan.trySend_ok hsend
    exact hi.moveRecv hr id (by simp) (by simp [RecvPc.stopped]) (hopen'.trans hopen.symm) hl
  | recvHungUp hr hl hclosed =>
    have hdead := (hi.recvClosed hclosed).resolve_left (by simp [hl])
    exact hi.moveRecv hr id (by simp) (fun _ => .inr hdead) rfl hi.recvListeners
  | sendReturn hf hl =>
    exact ⟨fun _ => hi.sendStop (by simp [hl, SendPc.stopped]), hi.recvStop, fun _ => .inl rfl,
      hi.recvClosed, fun _ => rfl, hi.recvGone, fun h => absurd (hf.symm.trans h) (by simp),
      hi.recvListeners⟩
  | recvReturn hf hl =>
    exact ⟨hi.sendStop, fun _ => hi.recvStop (by simp [hl, RecvPc.stopped]), hi.sendClosed,
      fun _ => .inl rfl, hi.sendGone, fun _ => rfl, fun h => absurd (hf.symm.trans h) (by simp),
      rfl⟩
  | finish _ hl =>
    -- the loop that returned had its reason, and the other one is dropped with it
    have hwhy : p.closed = true ∨ p.alive = false := by
      obtain hl | hl := hl
      · exact hi.sendStop (by simp [hl, SendPc.stopped])
      · exact hi.recvStop (by simp [hl, RecvPc.stopped])
    exact ⟨fun _ => hwhy, fun _ => hwhy, fun _ => .inl rfl, fun _ => .inl rfl, fun _ => rfl,
      fun _ => rfl, fun _ => ⟨rfl, rfl⟩, rfl⟩

/-- **The invariant holds of every reachable state.** -/
theorem inv_of_run {u md : String} {tr : Trace β}
    (h : (machine β).Run (new u md) tr p) : Inv p :=
  h.invariant Inv (inv_new u md) fun _ _ _ _ hi hs => hi.step (rule_of_step hs)

/-- While a handle lives, `inner_send` is open under a running `send_loop`. -/
theorem Inv.sendOpen (hi : Inv p) (ha : p.alive = true) (hs : p.sendLoop.stopped = false) :
    p.innerSend.closed = false := by
  refine Bool.eq_false_iff.mpr fun hc => ?_
  have hgone := (hi.sendClosed hc).resolve_right (by simp [ha])
  simp [hgone, SendPc.stopped] at hs

/-- While a handle lives and the flag is unset, both loops run and `inner_send` is open. -/
theorem Inv.open (hi : Inv p) (hc : p.closed = false) (ha : p.alive = true) :
    p.sendLoop.stopped = false ∧ p.recvLoop.stopped = false ∧ p.innerSend.closed = false := by
  have hs : p.sendLoop.stopped = false :=
    Bool.eq_false_iff.mpr fun h => by simpa [hc, ha] using hi.sendStop h
  have hr : p.recvLoop.stopped = false :=
    Bool.eq_false_iff.mpr fun h => by simpa [hc, ha] using hi.recvStop h
  exact ⟨hs, hr, hi.sendOpen ha hs⟩

theorem closed_of_rule (hr : Rule p a o p') (hc : p.closed = true) : p'.closed = true := by
  cases hr <;> first | exact hc | rfl | simp_all

/-- **The flag is never cleared.** -/
theorem closed_of_run {tr : Trace β}
    (h : (machine β).Run p tr p') (hc : p.closed = true) : p'.closed = true :=
  h.invariant (fun q => q.closed = true) hc fun _ _ _ _ hi hs => closed_of_rule (rule_of_step hs) hi

end Pipe

end ObfsWs
