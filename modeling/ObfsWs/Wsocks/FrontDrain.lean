import Mathlib.Data.Prod.Lex
import ObfsWs.Wsocks.FrontDoor

/-!
# Nobody waits at the front door for ever

As long as the server's loop has not returned, the tasks of the connections and the loop can go on
by themselves, without anything from the network, until no pipe is waiting, queued or in the loop's
hand, and the loop waits for the next one. A queue that is full, a round of `retain` and sessions
that have expired hold nothing up.

## The rank

The rank is a pair. Its first part is what the connections still have to do and what the loop
still has to do with the pipes it will take, the second is where the loop stands in its round: a
round with nothing in it is not free, because `retain` visits every entry, and it lowers only the
second part. A new session raises the number of entries; it also uses up a pipe.

A task that waits because the queue is full is the case where one of the two must help the other:
the loop takes a pipe and the task goes on. `exists_pipe_of_queue` is what allows the loop to take
it.

## Main definitions

* `FrontAct.inside` — the steps that take nothing from the network
* `Listener.rank`, `WplPc.rank`, `frontRank` — what is left to do

## Main results

* `front_drains` — every connection that has got through its handshake can be served or dropped

## What is left open

That a scheduler does this. And a connection that is still in its handshake is not counted: it
waits for the network, and may wait for ever without holding anybody up.
-/

namespace ObfsWs

/-! ### What is left to do

A pipe that waits counts more than one that is queued, and that more than one in the hand of the
loop, where it counts by the number of steps to its place. So each of these steps lowers the first
part of the rank, whatever it does to the map. -/

/-- What is left to do until the pipe is queued. -/
def ConnPc.rank : ConnPc → ℕ
  | .metadata _ => 7
  | .queueing _ => 6
  | _ => 0

/-- What is left to do until the loop is done with the pipe in its hand. -/
def WplPc.rank : WplPc → ℕ
  | .entry _ _ => 4
  | .created _ _ _ => 3
  | .upgrade _ _ _ => 2
  | .addPipe _ _ _ => 1
  | _ => 0

/-- What is left of a round of `retain`. -/
def WplPc.todo : WplPc → ℕ
  | .retain todo => todo.length + 1
  | _ => 0

/-- What is left to do until all pipes have been accepted. -/
def Listener.rank (s : Listener) : ℕ := (s.conns.map ConnPc.rank).sum + 5 * s.queue.queue.length

/-- What is left to do. The rounds of `retain` count for less than any pipe. -/
def frontRank (s : Listener × Wpl) : ℕ ×ₗ ℕ :=
  toLex (s.1.rank + s.2.pc.rank, s.2.pc.todo)

theorem sum_set {l : List ℕ} {i x : ℕ} (h : l[i]? = some x) (y : ℕ) :
    (l.set i y).sum + x = l.sum + y := by
  induction l generalizing i with
  | nil => simp at h
  | cons a l ih =>
    cases i with
    | zero =>
      obtain rfl : a = x := by simpa using h
      simp only [List.set_cons_zero, List.sum_cons]
      omega
    | succ i =>
      have := ih (i := i) (by simpa using h)
      simp only [List.set_cons_succ, List.sum_cons]
      omega

namespace Listener

variable {s s' : Listener} {a : ListenerAct} {o : ListenerOut}

@[simp] theorem rank_settle (s : Listener) : s.settle.rank = s.rank := by
  rw [rank, conns_settle, queue_settle, rank]

/-- A task that moves on changes the rank by its own. -/
theorem rank_setConn {c : ℕ} {pc : ConnPc} (hc : s.conns[c]? = some pc) (pc' : ConnPc) :
    (s.setConn c pc').rank + pc.rank = s.rank + pc'.rank := by
  have hx : (s.conns.map ConnPc.rank)[c]? = some pc.rank := by
    rw [List.getElem?_map, hc]
    rfl
  have hsum := sum_set hx pc'.rank
  rw [← List.map_set] at hsum
  simp only [rank, setConn]
  omega

/-- The tasks get their pipes nearer to the loop. -/
theorem Rule.rank_lt (h : Rule s a o s') {c : ℕ} (ha : a = .recvMd c ∨ a = .sendPipe c) :
    s'.rank < s.rank := by
  cases h with
  | @metadata c key rest md hc hq =>
    have := rank_setConn hc (.queueing (.of c key))
    simp only [ConnPc.rank] at this
    omega
  | metadataGone hc hq =>
    have := rank_setConn hc .ended
    simp only [ConnPc.rank] at this
    rw [endConn, rank_settle]
    omega
  | @queued c pipe q woken hc hsend =>
    have hc' : ({ s with queue := q } : Listener).conns[c]? = some (.queueing pipe) := hc
    have := rank_setConn hc' .ended
    simp only [ConnPc.rank, rank, (Chan.trySend_ok hsend).2.2.1, List.length_append,
      List.length_singleton] at this
    rw [endConn, rank_settle]
    simp only [rank] at this ⊢
    omega
  | refused hc _ =>
    have := rank_setConn hc .ended
    simp only [ConnPc.rank] at this
    rw [endConn, rank_settle]
    omega
  | _ => simp at ha

/-- Accepting takes a pipe off the queue. -/
theorem Rule.rank_of_accepted {pipe : Incoming} (h : Rule s a (.accepted (.ok pipe)) s') :
    s'.rank + 5 = s.rank := by
  cases h with
  | accepted _ hrecv =>
    simp only [rank, (Chan.tryRecv_ok hrecv).1, List.length_cons]
    omega

end Listener

/-- The loop gets on with the pipe in its hand, or with its round. -/
theorem Wpl.Rule.rank_lt {lib : Primitives} {pk : MuxPublic} {w w' : Wpl} {a : WplAct} {o : WplOut}
    (h : Wpl.Rule lib pk w a o w')
    (hmem : ∀ hash, a = .visit hash → ∀ todo, w.pc = .retain todo → hash ∈ todo)
    (ha : (∃ hash, a = .visit hash) ∨ a ∈ .pruned :: serving) :
    w'.pc.rank < w.pc.rank ∨ (w'.pc.rank = w.pc.rank ∧ w'.pc.todo < w.pc.todo) := by
  cases h with
  | @visit todo hash hpc =>
    right
    have hlen := List.length_erase_of_mem (hmem hash rfl todo hpc)
    have hpos := List.length_pos_of_mem (hmem hash rfl todo hpc)
    simp only [hpc, WplPc.rank, WplPc.todo, true_and]
    omega
  | pruned hpc =>
    right
    simp [hpc, WplPc.rank, WplPc.todo]
  | found hpc | created hpc | released hpc | upgraded hpc | dropped hpc | attached hpc =>
    left
    simp [hpc, WplPc.rank, setMux, round]
  | accepted | stopped | session => simp [serving] at ha

/-! ### Going on -/

/-- The steps that take nothing from the network: those of the tasks past their handshakes, and
those of the loop. -/
def FrontAct.inside : FrontAct → Bool
  | .recvMd _ | .sendPipe _ | .accept _ | .visit _ | .pruned | .entry | .created | .upgrade
  | .addPipe => true
  | _ => false

/-- No pipe is under way, and the loop waits for the next one. -/
structure Drained (s : Listener × Wpl) : Prop where
  waiting : s.1.waiting = []
  queue : s.1.queue.queue = []
  pc : s.2.pc = .accept

section Drain

variable {crates : PipeCrates} {lib : Primitives} {pk : MuxPublic} {tr : FrontTrace}
  {s : Listener × Wpl}

/-- Less is left to do after this step. -/
structure Drains (s t : Listener × Wpl) (c : FrontAct) : Prop where
  inside : c.inside = true
  running : t.2.pc ≠ .returned
  rank : frontRank t < frontRank s

/-- The queue of the listener keeps its size. -/
theorem Listener.Rule.cap_eq {l l' : Listener} {a : ListenerAct} {o : ListenerOut}
    (h : Listener.Rule l a o l') : l'.queue.cap = l.queue.cap := by
  have hsettle (l : Listener) : l.settle.queue.cap = l.queue.cap := by
    unfold Listener.settle
    split <;> rfl
  cases h with
  | acceptError => exact hsettle _
  | nodelayError | handshakeError | metadataGone | refused => exact hsettle _
  | queued _ hsend => exact (hsettle _).trans (Chan.trySend_ok hsend).2.2.2.2.2.1
  | accepted _ hrecv => exact (Chan.tryRecv_ok hrecv).2.2.2
  | pending _ hq => rw [hq]
  | connect | nodelay | handshake | metadata | broken | drop => rfl

/-- Only `drop` drops it. -/
theorem Listener.Rule.dropped_eq {l l' : Listener} {a : ListenerAct} {o : ListenerOut}
    (h : Listener.Rule l a o l') (ha : a ≠ .drop) : l'.dropped = l.dropped := by
  have hsettle (l : Listener) : l.settle.dropped = l.dropped := by
    unfold Listener.settle
    split <;> rfl
  cases h with
  | acceptError => exact hsettle _
  | nodelayError | handshakeError | metadataGone | queued | refused => exact hsettle _
  | drop => exact absurd rfl ha
  | connect | nodelay | handshake | metadata | accepted | broken | pending => rfl

theorem not_dropped_of_run (h : (front crates lib pk).Run (.new, .new) tr s) :
    s.1.dropped = false := by
  refine (listener_of_run h).invariant_of (fun l => l.dropped = false) rfl ?_ tr.ne_drop
  intro l a l' o hl ha hs
  exact ((Listener.rule_of_step hs).dropped_eq ha).trans hl

theorem cap_of_run (h : (front crates lib pk).Run (.new, .new) tr s) : s.1.queue.cap = 1000 := by
  refine (listener_of_run h).invariant (fun l => l.queue.cap = 1000) rfl ?_
  intro l a l' o hl hs
  exact (Listener.rule_of_step hs).cap_eq.trans hl

/-- A task past its handshake can go on while nothing is queued. -/
theorem exists_recv_or_send (h : (front crates lib pk).Run (.new, .new) tr s)
    (hq : s.1.queue.queue = []) (hw : s.1.waiting ≠ []) :
    ∃ i a, (a = .recvMd i ∨ a = .sendPipe i) ∧ (Listener.machine.step s.1 a).isSome = true := by
  have hi := Listener.inv_of_run (listener_of_run h) tr.ne_drop
  obtain ⟨l, hl, hne⟩ : ∃ l ∈ s.1.conns.mapIdx ConnPc.waiting, l ≠ [] := by
    by_contra hnone
    refine hw (List.flatten_eq_nil_iff.mpr fun l hl => ?_)
    by_contra hne
    exact hnone ⟨l, hl, hne⟩
  obtain ⟨i, hlt, rfl⟩ := List.mem_mapIdx.mp hl
  have hget : s.1.conns[i]? = some s.1.conns[i] := List.getElem?_eq_getElem hlt
  cases hpc : s.1.conns[i] with
  | metadata md =>
    rw [hpc] at hget
    obtain ⟨key, hkey⟩ := hi.md i md hget
    refine ⟨i, .recvMd i, .inl rfl, ?_⟩
    show (s.1.recvMd i).isSome = true
    obtain ⟨key', md', hp, -⟩ | ⟨-, hempty, -⟩ | ⟨-, hempty, -⟩ := md.pollRecv_cases ()
    · simp only [Listener.recvMd, hget, hp, Option.isSome_some]
    · rw [hkey] at hempty
      cases hempty
    · rw [hkey] at hempty
      cases hempty
  | queueing pipe =>
    rw [hpc] at hget
    have hopen := hi.open hget (by simp)
    refine ⟨i, .sendPipe i, .inr rfl, ?_⟩
    show (s.1.sendPipe i).isSome = true
    cases hsend : s.1.queue.trySend pipe with
    | ok r => simp only [Listener.sendPipe, hget, hsend, Option.isSome_some]
    | error e =>
      have hfull := Chan.full_of_trySend_error hopen hsend
      rw [Chan.hasRoom, hq, cap_of_run h] at hfull
      cases hfull
  | start | handshake | ended =>
    rw [hpc] at hne
    exact absurd rfl hne

/-- The pipe that is queued first can be accepted. -/
theorem exists_pipe_of_queue (h : (front crates lib pk).Run (.new, .new) tr s) {i : Incoming}
    (hi : i ∈ s.1.queue.queue) : ∃ pipe : WsPipe, pipe.incoming = i := by
  have hmem : i ∈ (Listener.handshaken tr.listener : Multiset Incoming) := by
    rw [← held_of_front h]
    exact Multiset.mem_add.mpr (.inl (Multiset.mem_add.mpr (.inr hi)))
  obtain ⟨e, -, c, req, key, -, hkey, rfl⟩ := FrontTrace.exists_request hmem
  exact ⟨⟨c, key, (Request.key_eq_some hkey).2⟩, rfl⟩

/-- The loop accepts any pipe. -/
theorem Wpl.exists_accept (lib : Primitives) (pk : MuxPublic) {w : Wpl} (hpc : w.pc = .accept)
    (pipe : WsPipe) : ∃ hash, (Wpl.machine lib pk).step w (.accept pipe) =
      some ({ w with pc := .entry pipe hash }, .accepted pipe) := by
  obtain ⟨hash, hhash⟩ := Etag.exists_fromKey lib pk pipe.accepted
  refine ⟨hash, ?_⟩
  show Wpl.step lib pk w (.accept pipe) = _
  simp only [Wpl.step, hpc, hhash]

/-- Either part of the rank. -/
theorem frontRank_lt {s t : Listener × Wpl}
    (h : t.1.rank + t.2.pc.rank < s.1.rank + s.2.pc.rank ∨
      (t.1.rank + t.2.pc.rank = s.1.rank + s.2.pc.rank ∧ t.2.pc.todo < s.2.pc.todo)) :
    frontRank t < frontRank s :=
  Prod.Lex.toLex_lt_toLex.mpr h

/-- A step of the loop alone. -/
theorem exists_drains_wpl (hret : s.2.pc ≠ .returned) {c : FrontAct} {a : WplAct}
    (hl : c.listener = none) (hr : c.wpl = some a) (hin : c.inside = true)
    (hagree : ∀ o, (door crates).agree c s.1 s.2 none o = true)
    (hmem : ∀ hash, a = .visit hash → ∀ todo, s.2.pc = .retain todo → hash ∈ todo)
    (ha : (∃ hash, a = .visit hash) ∨ a ∈ .pruned :: Wpl.serving)
    (hstep : ((Wpl.machine lib pk).step s.2 a).isSome = true) :
    ∃ c t o, (front crates lib pk).step s c = some (t, o) ∧ Drains s t c := by
  obtain ⟨⟨w, o⟩, hw⟩ := Option.isSome_iff_exists.mp hstep
  have hrule := Wpl.rule_of_step hw
  refine ⟨c, _, _, Machine.sync_right hl hr hw (hagree _), hin, ?_, frontRank_lt ?_⟩
  · intro hw'
    rcases hrule.returned_iff.mp hw' with rfl | hold
    · simp [Wpl.serving] at ha
    · exact hret hold
  · rcases hrule.rank_lt hmem ha with hlt | ⟨heq, hlt⟩
    · exact .inl (Nat.add_lt_add_left hlt _)
    · exact .inr ⟨congrArg (s.1.rank + ·) heq, hlt⟩

/-- The loop takes the pipe that was queued first. -/
theorem exists_drains_accept (h : (front crates lib pk).Run (.new, .new) tr s)
    (hpc : s.2.pc = .accept) {i : Incoming} {rest : List Incoming}
    (hq : s.1.queue.queue = i :: rest) :
    ∃ c t o, (front crates lib pk).step s c = some (t, o) ∧ Drains s t c := by
  obtain ⟨pipe, rfl⟩ := exists_pipe_of_queue h (i := i) (hq ▸ List.mem_cons_self)
  obtain ⟨hash, hw⟩ := Wpl.exists_accept lib pk hpc pipe
  obtain ⟨q, hrecv⟩ := Chan.exists_tryRecv_of_cons hq
  have hd := not_dropped_of_run h
  have hl : Listener.machine.step s.1 .accept =
      some ({ s.1 with queue := q }, .accepted (.ok pipe.incoming)) := by
    show s.1.accept = _
    simp only [Listener.accept, hd, Chan.pollRecv, hrecv, Bool.false_eq_true, if_false]
  have hrank : ({ s.1 with queue := q } : Listener).rank + 5 = s.1.rank :=
    (Listener.rule_of_step hl).rank_of_accepted
  have hagree : crates.hands pipe (some (.accepted (.ok pipe.incoming))) = true :=
    PipeCrates.hands_iff.mpr ⟨_, rfl, rfl, crates.peerMetadata_of _ _⟩
  refine ⟨.accept pipe, _, _, Machine.sync_both rfl rfl hl hw hagree, rfl, by simp,
    frontRank_lt (.inl ?_)⟩
  show ({ s.1 with queue := q } : Listener).rank + 4 < s.1.rank + s.2.pc.rank
  omega

/-- The loop goes on with the pipe in its hand. -/
theorem exists_drains_serving (h : (front crates lib pk).Run (.new, .new) tr s)
    (hret : s.2.pc ≠ .returned) (hhand : s.2.pc.inHand ≠ []) (hpc : ∀ todo, s.2.pc ≠ .retain todo) :
    ∃ c t o, (front crates lib pk).step s c = some (t, o) ∧ Drains s t c := by
  obtain ⟨a, ha, hstep⟩ := (Wpl.inv_of_run (wpl_of_run h)).moves hhand
  obtain ⟨c, hl, hr, hin, hagree⟩ : ∃ c : FrontAct, c.listener = none ∧ c.wpl = some a ∧
      c.inside = true ∧ ∀ o, (door crates).agree c s.1 s.2 none o = true := by
    simp only [Wpl.serving, List.mem_cons, List.not_mem_nil, or_false] at ha
    rcases ha with rfl | rfl | rfl | rfl
    · exact ⟨.entry, rfl, rfl, rfl, fun _ => rfl⟩
    · exact ⟨.created, rfl, rfl, rfl, fun _ => rfl⟩
    · exact ⟨.upgrade, rfl, rfl, rfl, fun _ => rfl⟩
    · exact ⟨.addPipe, rfl, rfl, rfl, fun _ => rfl⟩
  refine exists_drains_wpl hret hl hr hin hagree ?_ (.inr (List.mem_cons_of_mem _ ha)) hstep
  intro hash hv todo htodo
  exact absurd htodo (hpc todo)

/-- **The front can go on** until it is drained. -/
theorem exists_drains (h : (front crates lib pk).Run (.new, .new) tr s)
    (hret : s.2.pc ≠ .returned) (hnot : ¬ Drained s) :
    ∃ c t o, (front crates lib pk).step s c = some (t, o) ∧ Drains s t c := by
  cases hpc : s.2.pc with
  | returned => exact absurd hpc hret
  | panicked => exact absurd hpc (stands_of_run h).noPanic
  | retain todo =>
    cases todo with
    | nil =>
      refine exists_drains_wpl hret (c := .pruned) (a := .pruned) rfl rfl rfl (fun _ => rfl)
        (fun _ hv => by cases hv) (.inr (List.mem_cons_self)) ?_
      show (Wpl.step lib pk s.2 .pruned).isSome = true
      simp only [Wpl.step, hpc, Option.isSome_some]
    | cons hash todo =>
      refine exists_drains_wpl hret (c := .visit hash) (a := .visit hash) rfl rfl rfl
        (fun _ => rfl) ?_ (.inl ⟨hash, rfl⟩) ?_
      · intro hash' hv todo' hpc'
        obtain rfl := WplAct.visit.inj hv
        obtain rfl := WplPc.retain.inj (hpc.symm.trans hpc')
        exact List.mem_cons_self
      · show (Wpl.step lib pk s.2 (.visit hash)).isSome = true
        simp only [Wpl.step, hpc, List.mem_cons_self, if_true, Option.isSome_some]
  | accept =>
    cases hq : s.1.queue.queue with
    | nil =>
      have hw : s.1.waiting ≠ [] := fun hw => hnot ⟨hw, hq, hpc⟩
      obtain ⟨i, a, ha, hstep⟩ := exists_recv_or_send h hq hw
      obtain ⟨⟨l, o⟩, hl⟩ := Option.isSome_iff_exists.mp hstep
      have hlt := (Listener.rule_of_step hl).rank_lt ha
      have hrank : frontRank (l, s.2) < frontRank s :=
        frontRank_lt (.inl (Nat.add_lt_add_right hlt _))
      rcases ha with rfl | rfl
      · exact ⟨.recvMd i, _, _, Machine.sync_left rfl rfl hl rfl, rfl, hret, hrank⟩
      · exact ⟨.sendPipe i, _, _, Machine.sync_left rfl rfl hl rfl, rfl, hret, hrank⟩
    | cons i rest => exact exists_drains_accept h hpc hq
  | entry | created | upgrade | addPipe =>
    exact exists_drains_serving h hret (by rw [hpc]; simp [WplPc.inHand]) (by rw [hpc]; simp)

/-- Steps inside bring no new connection through its handshake. -/
theorem handshaken_of_inside {tr : FrontTrace} (h : ∀ e ∈ tr, e.act.inside = true) :
    Listener.handshaken tr.listener = [] := by
  refine List.eq_nil_iff_forall_not_mem.mpr fun i hi => ?_
  obtain ⟨e, he, c, req, key, hact, -⟩ := FrontTrace.exists_request hi
  have := h e he
  rw [hact] at this
  cases this

/-- **Nobody waits for ever.** From every state that the listener and the server can be in, as long
as the loop has not returned: by steps of the tasks and of the loop alone, without the network and
without any session moving, they get to a state in which the loop waits for the next pipe, and
every connection that ever got through its handshake has been attached to a session or dropped. -/
theorem front_drains (h : (front crates lib pk).Run (.new, .new) tr s) (hret : s.2.pc ≠ .returned) :
    ∃ (tr' : FrontTrace) (t : Listener × Wpl), (front crates lib pk).Run s tr' t ∧
      (∀ e ∈ tr', e.act.inside = true) ∧ Drained t ∧
      ((Wpl.attachedPipes (FrontTrace.wpl (tr ++ tr')) ++
        Wpl.droppedPipes (FrontTrace.wpl (tr ++ tr'))).map WsPipe.incoming).Perm
          (Listener.handshaken tr.listener) := by
  obtain ⟨tr', t, hrun, hsteps, -, hdrained⟩ := Machine.Run.exists_goal
    (I := fun _ s => s.2.pc ≠ .returned) (Q := fun e => Drains e.pre e.post e.act) (G := Drained)
    frontRank
    (fun tr s hrun hret hnot => by
      obtain ⟨c, t, o, hstep, hdrains⟩ := exists_drains hrun hret hnot
      exact ⟨c, t, o, hstep, hdrains, hdrains.running, hdrains.rank⟩)
    h hret
  have hinside : ∀ e ∈ tr', e.act.inside = true := fun e he => (hsteps e he).inside
  refine ⟨tr', t, hrun, hinside, hdrained, ?_⟩
  have hheld := held_of_front (h.append hrun)
  have hhand : Listener.handshaken (FrontTrace.listener (tr ++ tr')) =
      Listener.handshaken tr.listener := by
    have happ : FrontTrace.listener (tr ++ tr') =
        FrontTrace.listener tr ++ FrontTrace.listener tr' := List.flatMap_append
    rw [happ, Listener.handshaken, List.flatMap_append]
    exact (congrArg _ (handshaken_of_inside hinside)).trans (List.append_nil _)
  rw [hhand, hdrained.queue, hdrained.waiting, Multiset.coe_nil, add_zero, add_zero, Wpl.taken,
    hdrained.pc, show WplPc.accept.inHand = [] from rfl, List.append_nil,
    Multiset.coe_eq_coe] at hheld
  exact hheld

/-- Two clients are past their handshakes when the listening socket fails, and one is in the hand of
the loop. -/
theorem front_drains_failed :
    ∃ (tr tr' : FrontTrace) (t : Listener × Wpl),
      (front .plain .null .zero).Run (.new, .new) (tr ++ tr') t ∧ (∃ e ∈ tr, e.act = .socketError) ∧
      Wpl.attachedPipes tr.wpl = [] ∧ Drained t ∧
      ((Wpl.attachedPipes (FrontTrace.wpl (tr ++ tr')) ++
        Wpl.droppedPipes (FrontTrace.wpl (tr ++ tr'))).map WsPipe.incoming).Perm
          [.of 0 "AAAAAAAAAAAAAAAAAAAAAA==", .of 1 "AAAAAAAAAAAAAAAAAAAAAA==",
            .of 2 "AAAAAAAAAAAAAAAAAAAAAA=="] := by
  obtain ⟨tr, s, hrun, hacts, hret, hatt, hhand⟩ :=
    Machine.exists_run_of_exec (front .plain .null .zero) (.new, .new)
    [.connect, .connect, .connect, .setNodelay 0 true, .setNodelay 1 true, .setNodelay 2 true,
      .handshake 0 (some ⟨[("sec-websocket-key", utf8 "AAAAAAAAAAAAAAAAAAAAAA==")]⟩),
      .handshake 1 (some ⟨[("sec-websocket-key", utf8 "AAAAAAAAAAAAAAAAAAAAAA==")]⟩),
      .handshake 2 (some ⟨[("sec-websocket-key", utf8 "AAAAAAAAAAAAAAAAAAAAAA==")]⟩),
      .recvMd 0, .sendPipe 0, .recvMd 1, .pruned, .accept (.zero 0), .entry, .socketError]
    (P := fun tr s => s.2.pc ≠ .returned ∧ Wpl.attachedPipes (FrontTrace.wpl tr) = [] ∧
      Listener.handshaken (FrontTrace.listener tr) =
        [.of 0 "AAAAAAAAAAAAAAAAAAAAAA==", .of 1 "AAAAAAAAAAAAAAAAAAAAAA==",
          .of 2 "AAAAAAAAAAAAAAAAAAAAAA=="]) (by decide)
  obtain ⟨tr', t, hrun', -, hdrained, hperm⟩ := front_drains hrun hret
  rw [hhand] at hperm
  have hfailed : FrontAct.socketError ∈ tr.map Event.act := by
    rw [hacts]
    simp
  obtain ⟨e, he, heact⟩ := List.mem_map.mp hfailed
  exact ⟨tr, tr', t, hrun.append hrun', ⟨e, he, heact⟩, hatt, hdrained, hperm⟩

end Drain

end ObfsWs
