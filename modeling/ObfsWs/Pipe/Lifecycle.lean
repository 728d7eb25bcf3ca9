import ObfsWs.Pipe.WriteSide
import ObfsWs.Pipe.ReadSide

/-!
# The life of the background task

How the two loops come to their end: what the flag promises about them, which positions of theirs
do not notice it, and when the task that races them is over.

## Noticing the flag

Nobody is woken when the flag is set. Each loop looks at it between two awaits, so what matters is
where a loop stands when the flag is set and whether the await that it stands in comes to its end.
For `recv_loop` this is a question about the pipe: an item has arrived or not, the channel has
room or not. For `send_loop` it is also a question about the peer, because the sink takes data
only as long as the peer reads; a loop that stands in the sink may be held up there whatever has
come before.

So there are two conditions. `CanStop` is the one that nothing can take away: from there on the
task comes to its end whatever the peer and the handles do, at every moment, by its own steps.
`CanFinish` adds a message that `send_loop` has to hand over while the sink takes data: that is
enough if nothing else happens, but the peer can spoil it.

## Main definitions

* `Pipe.Stuck` — the flag is set, the websocket is still owned, and nothing moves by itself
* `Pipe.CanStop` — one of the loops gets to its check of the flag by itself
* `Pipe.Finishes` — the task comes to its end by its own steps, however they are scheduled

## Main results

* `Pipe.budget_run` — under the flag each loop passes on at most one more message
* `Pipe.closed_tracks_task` — the flag is never cleared, and no task finishes without it
* `Pipe.taskSteps_lt` — under the flag every step of the task brings it nearer to its end
* `Pipe.never_stuck_iff` — closing releases the connection exactly when a loop can stop

## What is left open

That the scheduler polls the task. `Finishes` is about what the task can do: the runs that consist
of its own steps are bounded in length, and where no step is left the race is over and the
websocket is dropped. A task that is never polled takes no step.
-/

namespace ObfsWs

namespace Pipe

variable {β : Type} {p p' : Pipe β} {a : Act β} {o : Out β}

/-! ### After the flag is set

A loop that is past its check of the flag goes round once more at most. The budgets count the
messages that this round can pass on: one if the loop is on its way to a message, none otherwise. -/

/-- How many messages `send_loop` can still hand over once the flag is set. -/
def sendBudget (p : Pipe β) : ℕ :=
  match p.sendLoop with
  | .recv | .send _ => 1
  | _ => 0

/-- How many messages `recv_loop` can still put into its channel once the flag is set. -/
def recvBudget (p : Pipe β) : ℕ :=
  match p.recvLoop with
  | .next | .send _ => 1
  | _ => 0

/-- Under the flag a step pays for what it hands over and puts. -/
theorem budget_step (hc : p.closed = true) (hr : Rule p a o p') :
    o.hands.length + sendBudget p' ≤ sendBudget p ∧
      o.puts.length + recvBudget p' ≤ recvBudget p := by
  cases hr <;> simp_all [sendBudget, recvBudget, Out.hands, Out.puts, setHandle]

/-- What every step under the flag pays for, a whole run pays for. -/
theorem length_le_of_run {f : Pipe β → ℕ} {g : Out β → List (List β)}
    (hstep : ∀ p a o p', p.closed = true → Rule p a o p' → (g o).length + f p' ≤ f p)
    {tr : Trace β} (h : (machine β).Run p tr p') (hc : p.closed = true) :
    (tr.flatMap fun e => g e.out).length + f p' ≤ f p := by
  refine (h.induct (fun tr q => q.closed = true ∧
    (tr.flatMap fun e => g e.out).length + f q ≤ f p) ⟨hc, by simp⟩ ?_).2
  rintro tr t a t' o - ⟨hct, hle⟩ hs
  have hr := rule_of_step hs
  have hpay := hstep t a o t' hct hr
  refine ⟨closed_of_rule hr hct, ?_⟩
  rw [List.flatMap_append, List.flatMap_singleton, List.length_append]
  dsimp only
  omega

theorem budget_run {tr : Trace β} (h : (machine β).Run p tr p') (hc : p.closed = true) :
    (handed tr).length + sendBudget p' ≤ sendBudget p ∧
      (puts tr).length + recvBudget p' ≤ recvBudget p :=
  ⟨length_le_of_run (fun _ _ _ _ hc hr => (budget_step hc hr).1) h hc,
    length_le_of_run (fun _ _ _ _ hc hr => (budget_step hc hr).2) h hc⟩

theorem budget_le_one (p : Pipe β) : sendBudget p ≤ 1 ∧ recvBudget p ≤ 1 := by
  constructor
  · unfold sendBudget
    split <;> omega
  · unfold recvBudget
    split <;> omega

/-- **The flag tracks the background task.** From any reachable state on: the flag is not cleared;
while a handle lives, a finished task has set it, so no live handle reports an address; and once
it is set, at most one more message is handed over and at most one more is received. -/
theorem closed_tracks_task {u md : String} {tr₁ tr₂ : Trace β}
    (h₁ : (machine β).Run (new u md) tr₁ p) (h₂ : (machine β).Run p tr₂ p') :
    (p.closed = true → p'.closed = true) ∧
      (p'.alive = true → p'.finished = true → p'.closed = true ∧ p'.remoteAddr = none) ∧
      (p.closed = true → (handed tr₂).length ≤ 1 ∧ (puts tr₂).length ≤ 1) := by
  refine ⟨closed_of_run h₂, fun ha hf => ?_, fun hc => ?_⟩
  · have hi := inv_of_run (h₁.append h₂)
    have hstop : p'.sendLoop.stopped = true := by rw [(hi.finished hf).1]; rfl
    have hc := (hi.sendStop hstop).resolve_right (by simp [ha])
    exact ⟨hc, if_pos hc⟩
  · obtain ⟨hs, hr⟩ := budget_run h₂ hc
    obtain ⟨hs', hr'⟩ := budget_le_one p
    omega

/-- The websocket ends: the flag is set, and then the race finishes. -/
theorem closed_tracks_task_end :
    ∃ (tr₁ tr₂ : Trace UInt8) (p p' : Pipe UInt8), (machine UInt8).Run (new "ws://a" "k") tr₁ p ∧
      (machine UInt8).Run p tr₂ p' ∧ p.closed = true ∧ p'.finished = true ∧
      p'.remoteAddr = none ∧ (puts tr₂).length ≤ 1 := by
  obtain ⟨tr₁, p, h₁, -, hc, r, hr, ha, hf⟩ :=
    Machine.exists_run_of_exec (machine UInt8) (new "ws://a" "k")
      [.recvHead, .arrive none, .recvNext]
      (P := fun _ p => p.closed = true ∧ ∃ r ∈ (machine UInt8).exec p [.recvReturn, .finish],
        r.2.alive = true ∧ r.2.finished = true) (by decide)
  obtain ⟨-, haddr, hone⟩ := closed_tracks_task h₁ (Machine.run_of_mem_exec hr)
  exact ⟨tr₁, r.1, p, r.2, h₁, Machine.run_of_mem_exec hr, hc, hf, (haddr ha hf).2, (hone hc).2⟩

/-! ### Closing

What each position of a loop needs to get to the next check. The conditions are kept by every step
of anybody, which is what makes them conditions at the call and not conditions on what comes after
it; `putsAtOnce` is where a reader could interfere, and it can only help. -/

/-- The actions of the background task that need nothing from the peer or a handle. A failing
sink is the peer's doing. -/
def taskActs : List (Act β) :=
  [.sendHead, .sendRecv, .sinkTake, .sinkFlush, .sendReturn, .recvHead, .recvNext, .recvSend,
    .recvReturn, .finish]

/-- The flag is set, the background task owns the websocket, and it cannot move by itself. -/
def Stuck (p : Pipe β) : Prop :=
  p.closed = true ∧ p.finished = false ∧ ∀ a ∈ taskActs, (machine β).step p a = none

/-- `recv_loop` would not wait to put a message. -/
def putsAtOnce (p : Pipe β) : Bool := p.innerRecv.closed || p.innerRecv.hasRoom

/-- `send_loop` is at its check of the flag, or past it. -/
def SendStops (p : Pipe β) : Prop := p.sendLoop = .head ∨ p.sendLoop.stopped = true

/-- The item is a binary message. -/
def isBinary : Item β → Bool
  | some (.ok (.binary _)) => true
  | _ => false

/-- `recv_loop` gets to its check of the flag by itself, or is past it: it has a message to put
and room for it, or an item to take and room if the item is a message. -/
def RecvStops (p : Pipe β) : Prop :=
  p.recvLoop = .head ∨ p.recvLoop.stopped = true ∨
    (∃ msg, p.recvLoop = .send msg ∧ p.putsAtOnce = true) ∨
    (∃ item rest, p.recvLoop = .next ∧ p.incoming = item :: rest ∧
      (isBinary item = true → p.putsAtOnce = true))

/-- One of the loops gets to its check of the flag by itself. -/
def CanStop (p : Pipe β) : Prop := SendStops p ∨ RecvStops p

theorem hasRoom_of_suffix {c c' : Chan (List β) Waker} (hq : c'.queue <:+ c.queue)
    (hcap : c'.cap = c.cap) (h : c.hasRoom = true) : c'.hasRoom = true := by
  have := hq.length_le
  simp only [Chan.hasRoom, decide_eq_true_eq] at h ⊢
  omega

/-- Room for a message is lost to a message only. -/
theorem putsAtOnce_of_rule (hp : p.putsAtOnce = true) (ha : a ≠ .recvSend) (hr : Rule p a o p') :
    p'.putsAtOnce = true := by
  cases hr with
  | @read h ctx buf recvBuf r hh hr =>
    subst hr
    obtain ⟨hcl, -, hcap, hq⟩ := readOutcome_chan recvBuf p.innerRecv buf
    simp only [putsAtOnce, Bool.or_eq_true] at hp ⊢
    exact hp.imp (fun h => by rw [hcl, h]) (hasRoom_of_suffix hq hcap)
  | dropLast | recvReturn | finish => simp [putsAtOnce]
  | recvPut | recvHungUp => exact absurd rfl ha
  | drop _ hp' _ =>
    subst hp'
    exact hp
  | _ => exact hp

theorem sendStops_step (hc : p.closed = true) (hp : SendStops p) (hr : Rule p a o p') :
    SendStops p' := by
  cases hr with
  | sendHead => exact .inr (by simp [hc, SendPc.stopped])
  | sendHungUp | sinkFail | sendReturn | finish => exact .inr rfl
  | sendTook _ hl _ | sinkTake _ _ hl | sinkFlush _ _ hl =>
    simp [SendStops, hl, SendPc.stopped] at hp
  | drop _ hp' _ | dropLast _ hp' _ =>
    subst hp'
    exact hp
  | _ => exact hp

/-- What a step that leaves `recv_loop` where it is has to keep. -/
theorem RecvStops.stay (hp : RecvStops p) (hl : p'.recvLoop = p.recvLoop)
    (hi : ∀ item rest, p.incoming = item :: rest → ∃ rest', p'.incoming = item :: rest')
    (hput : p.putsAtOnce = true → p'.putsAtOnce = true) : RecvStops p' := by
  rw [RecvStops, hl]
  obtain h | h | ⟨msg, h, hroom⟩ | ⟨item, rest, h, hin, hroom⟩ := hp
  · exact .inl h
  · exact .inr (.inl h)
  · exact .inr (.inr (.inl ⟨msg, h, hput hroom⟩))
  · obtain ⟨rest', hin'⟩ := hi item rest hin
    exact .inr (.inr (.inr ⟨item, rest', h, hin', fun hb => hput (hroom hb)⟩))

theorem recvStops_step (hc : p.closed = true) (hp : RecvStops p) (hr : Rule p a o p') :
    RecvStops p' := by
  have hput : a ≠ .recvSend → p.putsAtOnce = true → p'.putsAtOnce = true :=
    fun ha h => putsAtOnce_of_rule h ha hr
  cases hr with
  | recvHead => exact .inr (.inl (by simp [hc, RecvPc.stopped]))
  | recvSkip | recvPut => exact .inl rfl
  | recvEnd | recvHungUp | recvReturn | finish => exact .inr (.inl rfl)
  | @recvBinary msg rest _ hl hin =>
    -- the item was a message, and there was room for it
    simp only [RecvStops, hl, RecvPc.stopped, hin, List.cons.injEq] at hp
    obtain h | h | ⟨_, h, -⟩ | ⟨item, rest, -, ⟨rfl, -⟩, hroom⟩ := hp
    · cases h
    · cases h
    · cases h
    · exact .inr (.inr (.inl ⟨msg, rfl, hput (by simp) (hroom rfl)⟩))
  | @arrive item =>
    refine hp.stay rfl (fun x rest h => ⟨rest ++ [item], ?_⟩) (hput (by simp))
    simp [h]
  | drop _ hp' _ | dropLast _ hp' _ =>
    subst hp'
    exact hp.stay rfl (fun _ rest h => ⟨rest, h⟩) (hput (by simp))
  | _ => exact hp.stay rfl (fun _ rest h => ⟨rest, h⟩) (hput (by simp))

/-- Under the flag, being able to stop is never lost. -/
theorem canStop_step (hc : p.closed = true) (hp : CanStop p) (hr : Rule p a o p') :
    CanStop p' :=
  hp.imp (fun h => sendStops_step hc h hr) fun h => recvStops_step hc h hr

theorem Stuck.not_rule (h : Stuck p) (ha : a ∈ taskActs) : ¬ Rule p a o p' := by
  intro hr
  have := (h.2.2 a ha).symm.trans (step_of_rule hr)
  cases this

theorem Stuck.loops (h : Stuck p) : p.sendLoop.stopped = false ∧ p.recvLoop.stopped = false := by
  have hf := h.2.1
  have hs : p.sendLoop ≠ .returned := fun hl =>
    h.not_rule (by simp [taskActs]) (.finish hf (.inl hl))
  have hr : p.recvLoop ≠ .returned := fun hl =>
    h.not_rule (by simp [taskActs]) (.finish hf (.inr hl))
  have hs' : p.sendLoop ≠ .exiting := fun hl =>
    h.not_rule (by simp [taskActs]) (.sendReturn hf hl)
  have hr' : p.recvLoop ≠ .exiting := fun hl =>
    h.not_rule (by simp [taskActs]) (.recvReturn hf hl)
  constructor
  · cases hl : p.sendLoop <;> simp_all [SendPc.stopped]
  · cases hl : p.recvLoop <;> simp_all [RecvPc.stopped]

theorem rule_recvSend_of_putsAtOnce {msg : List β} (hr : p.racing = true)
    (hl : p.recvLoop = .send msg) (hp : p.putsAtOnce = true) : ∃ o p', Rule p .recvSend o p' := by
  cases hsend : p.innerRecv.trySend msg with
  | ok r => exact ⟨_, _, .recvPut hr hl hsend⟩
  | error e =>
    cases e with
    | closed => exact ⟨_, _, .recvHungUp hr hl (Chan.trySend_closed_iff.mp hsend)⟩
    | full =>
      obtain ⟨hc, hroom⟩ := Chan.trySend_full_iff.mp hsend
      simp [putsAtOnce, hc, hroom] at hp

theorem rule_recvNext_of_cons {item : Item β} {rest : List (Item β)} (hr : p.racing = true)
    (hl : p.recvLoop = .next) (hi : p.incoming = item :: rest) :
    ∃ o p', Rule p .recvNext o p' := by
  rcases item with _ | ⟨⟨⟩ | msg | _⟩
  · exact ⟨_, _, .recvEnd hr hl hi⟩
  · exact ⟨_, _, .recvSkip hr hl hi (.inr rfl)⟩
  · exact ⟨_, _, .recvBinary hr hl hi⟩
  · exact ⟨_, _, .recvSkip hr hl hi (.inl rfl)⟩

/-- A loop that gets to its check by itself has a step to take. -/
theorem not_stuck_of_canStop (hp : CanStop p) : ¬ Stuck p := by
  intro hs
  obtain ⟨h1, h2⟩ := hs.loops
  have hr : p.racing = true := racing_iff.mpr ⟨hs.2.1, h1, h2⟩
  obtain (hl | hl) | hl | hl | ⟨msg, hl, hput⟩ | ⟨item, rest, hl, hi, -⟩ := hp
  · exact hs.not_rule (by simp [taskActs]) (.sendHead hr hl)
  · exact absurd hl (by simp [h1])
  · exact hs.not_rule (by simp [taskActs]) (.recvHead hr hl)
  · exact absurd hl (by simp [h2])
  · obtain ⟨o, p', hrule⟩ := rule_recvSend_of_putsAtOnce hr hl hput
    exact hs.not_rule (by simp [taskActs]) hrule
  · obtain ⟨o, p', hrule⟩ := rule_recvNext_of_cons hr hl hi
    exact hs.not_rule (by simp [taskActs]) hrule

/-- `send_loop` gets to its check of the flag as long as the websocket takes data: it has a message
to hand over. -/
def SendDrains (p : Pipe β) : Prop :=
  p.writable = true ∧ ((∃ msg, p.sendLoop = .send msg) ∨ p.sendLoop = .flush ∨
    (p.sendLoop = .recv ∧ p.innerSend.queue ≠ []))

/-- One of the loops gets to its check of the flag if the websocket goes on taking data. -/
def CanFinish (p : Pipe β) : Prop := CanStop p ∨ SendDrains p

theorem sendDrains_step (ha : a ∈ taskActs) (hp : SendDrains p) (hr : Rule p a o p') :
    SendDrains p' ∨ SendStops p' := by
  obtain ⟨hw, hpc⟩ := hp
  cases hr with
  | sendHead _ hl | sendReturn _ hl => simp [hl] at hpc
  | sendHungUp | finish => exact .inr (.inr rfl)
  | sendTook => exact .inl ⟨hw, .inl ⟨_, rfl⟩⟩
  | sendPark _ hl hq => simp [hl, hq] at hpc
  | sinkTake => exact .inl ⟨hw, .inr (.inl rfl)⟩
  | sinkFlush => exact .inr (.inl rfl)
  | recvHead | recvBinary | recvSkip | recvEnd | recvPut | recvHungUp | recvReturn =>
    exact .inl ⟨hw, hpc⟩
  | _ => simp [taskActs] at ha

theorem canFinish_step (hc : p.closed = true) (ha : a ∈ taskActs) (hp : CanFinish p)
    (hr : Rule p a o p') : CanFinish p' := by
  rcases hp with hstop | hdrain
  · exact .inl (canStop_step hc hstop hr)
  · rcases sendDrains_step ha hdrain hr with hdrain | hstop
    · exact .inr hdrain
    · exact .inl (.inl hstop)

theorem not_stuck_of_canFinish (hp : CanFinish p) : ¬ Stuck p := by
  rcases hp with hstop | ⟨hw, hpc⟩
  · exact not_stuck_of_canStop hstop
  · intro hs
    obtain ⟨h1, h2⟩ := hs.loops
    have hr : p.racing = true := racing_iff.mpr ⟨hs.2.1, h1, h2⟩
    obtain ⟨msg, hl⟩ | hl | ⟨hl, hq⟩ := hpc
    · exact hs.not_rule (by simp [taskActs]) (.sinkTake hr hw hl)
    · exact hs.not_rule (by simp [taskActs]) (.sinkFlush hr hw hl)
    · obtain ⟨msg, rest, hcons⟩ := List.exists_cons_of_ne_nil hq
      obtain ⟨ch, ht⟩ := Chan.exists_tryRecv_of_cons hcons
      exact hs.not_rule (by simp [taskActs]) (.sendTook hr hl ht)

/-! ### To the end

Under the flag neither loop enters its body again, so the steps that are left can be counted from
where the loops stand. The count includes the end of the race. A run of the task alone is no
longer than the count, and if it stops earlier, then because no step is enabled. -/

/-- How many steps `send_loop` can take once the flag is set. -/
def sendSteps (p : Pipe β) : ℕ :=
  match p.sendLoop with
  | .recv => if .task ∈ p.innerSend.listeners then 5 else 6
  | .send _ => 4
  | .flush => 3
  | .head => 2
  | .exiting => 1
  | .returned => 0

/-- How many steps `recv_loop` can take once the flag is set. -/
def recvSteps (p : Pipe β) : ℕ :=
  match p.recvLoop with
  | .next => 4
  | .send _ => 3
  | .head => 2
  | .exiting => 1
  | .returned => 0

/-- How many steps the background task can take by itself once the flag is set. -/
def taskSteps (p : Pipe β) : ℕ := sendSteps p + recvSteps p + if p.finished then 0 else 1

theorem le_sendSteps_of_recv (hl : p.sendLoop = .recv) : 5 ≤ sendSteps p := by
  rw [sendSteps, hl]
  dsimp only
  split <;> omega

/-- No loop goes round again. -/
theorem taskSteps_lt (hc : p.closed = true) (ha : a ∈ taskActs) (hr : Rule p a o p') :
    taskSteps p' < taskSteps p := by
  cases hr with
  | sendHead _ hl => simp [taskSteps, sendSteps, recvSteps, hl, hc]
  | sendTook _ hl =>
    have hle := le_sendSteps_of_recv hl
    refine Nat.add_lt_add_right (Nat.add_lt_add_right ?_ _) _
    exact Nat.lt_of_succ_le hle
  | sendHungUp _ hl =>
    have hle := le_sendSteps_of_recv hl
    refine Nat.add_lt_add_right (Nat.add_lt_add_right ?_ _) _
    exact (by decide : 1 < 5).trans_le hle
  | sendPark _ hl _ _ hm hch =>
    subst hch
    simp [taskSteps, sendSteps, recvSteps, hl, hm]
  | sinkTake _ _ hl | sinkFlush _ _ hl | sendReturn _ hl =>
    simp [taskSteps, sendSteps, recvSteps, hl]
  | recvHead _ hl => simp [taskSteps, sendSteps, recvSteps, hl, hc]
  | recvBinary _ hl | recvSkip _ hl | recvEnd _ hl | recvPut _ hl | recvHungUp _ hl
  | recvReturn _ hl =>
    simp [taskSteps, sendSteps, recvSteps, hl]
  | finish hf =>
    simp only [taskSteps, sendSteps, recvSteps, hf]
    simp
  | _ => simp [taskActs] at ha

theorem taskSteps_le (p : Pipe β) : taskSteps p ≤ 11 := by
  have hs : sendSteps p ≤ 6 := by
    unfold sendSteps
    split
    · split <;> omega
    all_goals omega
  have hr : recvSteps p ≤ 4 := by
    unfold recvSteps
    split <;> omega
  unfold taskSteps
  split <;> omega

/-- The run consists of steps of the background task alone. -/
def Alone (tr : Trace β) : Prop := ∀ e ∈ tr, e.act ∈ taskActs

/-- By itself the background task comes to its end: however it is scheduled, it takes a bounded
number of steps, and where it can take none it has finished and dropped the websocket. -/
def Finishes (p : Pipe β) : Prop :=
  ∀ tr q, (machine β).Run p tr q → Alone tr →
    tr.length ≤ 11 ∧ ((∀ a ∈ taskActs, (machine β).step q a = none) → q.finished = true)

theorem taskSteps_of_run {tr : Trace β} (h : (machine β).Run p tr p') (hc : p.closed = true)
    (ha : Alone tr) : tr.length + taskSteps p' ≤ taskSteps p := by
  refine (h.induct (fun tr q => Alone tr → q.closed = true ∧
    tr.length + taskSteps q ≤ taskSteps p) (fun _ => ⟨hc, by simp⟩) ?_ ha).2
  intro tr t a t' o _ ih hs ha
  obtain ⟨hct, hle⟩ := ih fun e he => ha e (List.mem_append_left _ he)
  have hact : a ∈ taskActs := ha _ (List.mem_append_right _ (List.mem_singleton_self _))
  have hr := rule_of_step hs
  have hlt := taskSteps_lt hct hact hr
  refine ⟨closed_of_rule hr hct, ?_⟩
  rw [List.length_append, List.length_singleton]
  omega

/-- A loop that gets to its check by itself takes the task to its end. -/
theorem finishes_of_canFinish (hc : p.closed = true) (hp : CanFinish p) : Finishes p := by
  intro tr q hrun ha
  have hlen := taskSteps_of_run hrun hc ha
  have hbound := taskSteps_le p
  refine ⟨by omega, fun hnone => ?_⟩
  have hkeep : q.closed = true ∧ CanFinish q := by
    refine hrun.invariant_of (fun q => q.closed = true ∧ CanFinish q) ⟨hc, hp⟩ ?_ ha
    rintro t a t' o ⟨hct, hcan⟩ hact hstep
    have hr := rule_of_step hstep
    exact ⟨closed_of_rule hr hct, canFinish_step hct hact hcan hr⟩
  by_contra hf
  exact not_stuck_of_canFinish hkeep.2 ⟨hkeep.1, by simpa using hf, hnone⟩

theorem Stuck.not_finishes (h : Stuck p) : ¬ Finishes p := by
  intro hfin
  have hf := (hfin [] p .nil fun _ he => absurd he List.not_mem_nil).2 h.2.2
  rw [h.2.1] at hf
  cases hf

/-! ### Getting stuck

The other direction: if the condition does not hold, there is a run to a stuck state. `recv_loop`
is brought to where it waits, then `send_loop`. Where only the peer can hold `send_loop` up, the
peer stops reading first. -/

/-- `send_loop` waits for a handle or the peer. -/
def SendWaits (p : Pipe β) : Prop :=
  (p.writable = false ∧ ((∃ msg, p.sendLoop = .send msg) ∨ p.sendLoop = .flush)) ∨
    (p.sendLoop = .recv ∧ p.innerSend.queue = [] ∧ p.innerSend.closed = false ∧
      Waker.task ∈ p.innerSend.listeners)

/-- `recv_loop` waits for a handle or the peer. -/
def RecvWaits (p : Pipe β) : Prop :=
  (p.recvLoop = .next ∧ p.incoming = []) ∨
    ∃ msg, p.recvLoop = .send msg ∧ p.putsAtOnce = false

/-- Both loops wait. -/
theorem stuck_of_waits (hc : p.closed = true) (hf : p.finished = false) (hs : SendWaits p)
    (hr : RecvWaits p) : Stuck p := by
  refine ⟨hc, hf, fun a ha => ?_⟩
  cases hstep : (machine β).step p a with
  | none => rfl
  | some r =>
    obtain ⟨q, o⟩ := r
    unfold SendWaits at hs
    unfold RecvWaits at hr
    cases rule_of_step hstep with
    | sendTook _ _ ht =>
      have := (Chan.tryRecv_ok ht).1
      simp_all
    | recvPut _ _ hsend =>
      have := Chan.trySend_ok hsend
      simp_all [putsAtOnce, Chan.hasRoom]
    | finish _ hl => obtain hl | hl := hl <;> simp_all
    | _ => simp_all [taskActs, putsAtOnce]

/-- What building up to a stuck state leaves alone. -/
structure SameRest (p q : Pipe β) : Prop where
  closed : q.closed = p.closed
  finished : q.finished = p.finished
  writable : q.writable = p.writable

theorem alone_nil : Alone ([] : Trace β) := fun _ he => absurd he List.not_mem_nil

theorem Alone.append {tr₁ tr₂ : Trace β} (h₁ : Alone tr₁) (h₂ : Alone tr₂) :
    Alone (tr₁ ++ tr₂) := by
  intro e he
  rcases List.mem_append.mp he with he | he
  · exact h₁ e he
  · exact h₂ e he

theorem alone_single {e : Event (Pipe β) (Act β) (Out β)} (h : e.act ∈ taskActs) : Alone [e] := by
  intro e' he
  rwa [List.mem_singleton.mp he]

/-- If `recv_loop` does not get to its check by itself, it gets to where it waits. -/
theorem exists_recvWaits (hr : p.racing = true) (hn : ¬ RecvStops p) :
    ∃ tr q, (machine β).Run p tr q ∧ Alone tr ∧ RecvWaits q ∧ SameRest p q ∧
      q.sendLoop = p.sendLoop ∧ q.innerSend = p.innerSend := by
  obtain ⟨-, -, hstop⟩ := racing_iff.mp hr
  simp only [RecvStops, not_or, not_exists, not_and] at hn
  obtain ⟨hhead, -, hsend, hnext⟩ := hn
  cases hl : p.recvLoop with
  | head => exact absurd hl hhead
  | exiting => simp [hl, RecvPc.stopped] at hstop
  | returned => simp [hl, RecvPc.stopped] at hstop
  | send msg =>
    exact ⟨[], p, .nil, alone_nil, .inr ⟨msg, hl, by simpa using hsend msg hl⟩, ⟨rfl, rfl, rfl⟩,
      rfl, rfl⟩
  | next =>
    cases hi : p.incoming with
    | nil => exact ⟨[], p, .nil, alone_nil, .inl ⟨hl, hi⟩, ⟨rfl, rfl, rfl⟩, rfl, rfl⟩
    | cons item rest =>
      have hbin := hnext item rest hl hi
      rcases item with _ | ⟨_ | msg | _⟩
      · exact absurd (fun h => by cases h) hbin
      · exact absurd (fun h => by cases h) hbin
      · have hfull : p.putsAtOnce = false := by simpa [isBinary] using hbin
        exact ⟨_, _, .single (step_of_rule (.recvBinary hr hl hi)),
          alone_single (by simp [taskActs]), .inr ⟨msg, rfl, hfull⟩, ⟨rfl, rfl, rfl⟩, rfl, rfl⟩
      · exact absurd (fun h => by cases h) hbin

/-- If `send_loop` is not at its check and cannot hand over what it has, it gets to where it
waits. -/
theorem exists_sendWaits (hr : p.racing = true) (hn : ¬ SendStops p) (hd : ¬ SendDrains p)
    (ho : p.innerSend.closed = false) (hrecv : RecvWaits p) :
    ∃ tr q, (machine β).Run p tr q ∧ Alone tr ∧ SendWaits q ∧ RecvWaits q ∧ SameRest p q := by
  obtain ⟨-, hstop, -⟩ := racing_iff.mp hr
  have hhead : p.sendLoop ≠ .head := fun hl => hn (.inl hl)
  have hblocked (hpc : (∃ msg, p.sendLoop = .send msg) ∨ p.sendLoop = .flush ∨
      (p.sendLoop = .recv ∧ p.innerSend.queue ≠ [])) : p.writable = false :=
    Bool.eq_false_iff.mpr fun hw => hd ⟨hw, hpc⟩
  cases hl : p.sendLoop with
  | head => exact absurd hl hhead
  | exiting => simp [hl, SendPc.stopped] at hstop
  | returned => simp [hl, SendPc.stopped] at hstop
  | send msg =>
    exact ⟨[], p, .nil, alone_nil, .inl ⟨hblocked (.inl ⟨msg, hl⟩), .inl ⟨msg, hl⟩⟩, hrecv,
      ⟨rfl, rfl, rfl⟩⟩
  | flush =>
    exact ⟨[], p, .nil, alone_nil, .inl ⟨hblocked (.inr (.inl hl)), .inr hl⟩, hrecv,
      ⟨rfl, rfl, rfl⟩⟩
  | recv =>
    cases hq : p.innerSend.queue with
    | cons msg q =>
      obtain ⟨ch, ht⟩ := Chan.exists_tryRecv_of_cons hq
      have hw := hblocked (.inr (.inr ⟨hl, by simp [hq]⟩))
      exact ⟨_, _, .single (step_of_rule (.sendTook hr hl ht)), alone_single (by simp [taskActs]),
        .inl ⟨hw, .inl ⟨msg, rfl⟩⟩, hrecv, ⟨rfl, rfl, rfl⟩⟩
    | nil =>
      by_cases hm : Waker.task ∈ p.innerSend.listeners
      · exact ⟨[], p, .nil, alone_nil, .inr ⟨hl, hq, ho, hm⟩, hrecv, ⟨rfl, rfl, rfl⟩⟩
      · exact ⟨_, _, .single (step_of_rule (.sendPark hr hl hq ho hm rfl)),
          alone_single (by simp [taskActs]), .inr ⟨hl, hq, ho, List.mem_insert_self⟩, hrecv,
          ⟨rfl, rfl, rfl⟩⟩

/-- Under the flag, a task that cannot come to its end by itself gets stuck by itself. -/
theorem exists_stuck_alone (hi : Inv p) (hc : p.closed = true) (ha : p.alive = true)
    (hn : ¬ CanFinish p) : ∃ tr q, (machine β).Run p tr q ∧ Alone tr ∧ Stuck q := by
  obtain ⟨hstop, hdrain⟩ := not_or.mp hn
  obtain ⟨hsend, hrecv⟩ := not_or.mp hstop
  have hs : p.sendLoop.stopped = false := by simpa using fun h => hsend (.inr h)
  have hr : p.recvLoop.stopped = false := by simpa using fun h => hrecv (.inr (.inl h))
  have hf : p.finished = false :=
    Bool.eq_false_iff.mpr fun h => by simp [(hi.finished h).1, SendPc.stopped] at hs
  have ho := hi.sendOpen ha hs
  obtain ⟨tr₁, q₁, hrun₁, ha₁, hw₁, hsame₁, hl₁, hch₁⟩ :=
    exists_recvWaits (racing_iff.mpr ⟨hf, hs, hr⟩) hrecv
  have hr₁ : q₁.racing = true := by
    refine racing_iff.mpr ⟨by rw [hsame₁.finished]; exact hf, by rw [hl₁]; exact hs, ?_⟩
    obtain ⟨hl, -⟩ | ⟨msg, hl, -⟩ := hw₁ <;> rw [hl] <;> rfl
  obtain ⟨tr₂, q₂, hrun₂, ha₂, hs₂, hw₂, hsame₂⟩ :=
    exists_sendWaits hr₁ (by rwa [SendStops, hl₁])
      (by rwa [SendDrains, hsame₁.writable, hl₁, hch₁]) (by rw [hch₁]; exact ho) hw₁
  refine ⟨tr₁ ++ tr₂, q₂, hrun₁.append hrun₂, ha₁.append ha₂, ?_⟩
  refine stuck_of_waits ?_ ?_ hs₂ hw₂
  · rw [hsame₂.closed, hsame₁.closed]
    exact hc
  · rw [hsame₂.finished, hsame₁.finished]
    exact hf

/-- Under the flag, a pipe that cannot stop by itself can get stuck: the peer stops reading. -/
theorem exists_stuck (hi : Inv p) (hc : p.closed = true) (ha : p.alive = true)
    (hn : ¬ CanStop p) : ∃ tr q, (machine β).Run p tr q ∧ Stuck q := by
  have hr : Rule p (.setWritable false) .tau { p with writable := false } := .setWritable
  have hblocked : ¬ CanFinish { p with writable := false } := by
    rintro (hstop | ⟨hw, -⟩)
    · exact hn hstop
    · cases hw
  obtain ⟨tr, q, hrun, -, hstuck⟩ := exists_stuck_alone (hi.step hr) hc ha hblocked
  exact ⟨_, q, (Machine.Run.single (step_of_rule hr)).append hrun, hstuck⟩

/-- **Closing releases the connection exactly when a loop can stop.** After a `poll_close` the
background task is never stuck, whatever comes, and from every state comes to its end by itself, if
and only if at the call one of the loops gets to its check of the flag by itself. If nothing comes
at all, it is enough that `send_loop` has a message to hand over and the websocket takes data. -/
theorem never_stuck_iff {u md : String} {tr : Trace β} {h : ℕ}
    (hrun : (machine β).Run (new u md) tr p)
    (hs : (machine β).step p (.pollClose h) = some (p', o)) :
    ((∀ tr' q, (machine β).Run p' tr' q → ¬ Stuck q ∧ Finishes q) ↔ CanStop p) ∧
      (Finishes p' ↔ CanStop p ∨ SendDrains p) := by
  have hi' := inv_of_run (hrun.snoc hs)
  cases rule_of_step hs with
  | close hh =>
    have halive : ({ p with closed := true } : Pipe β).alive = true := alive_of_handle hh
    refine ⟨⟨fun hnever => ?_, fun hcan tr' q hrun' => ?_⟩, fun hfin => ?_, fun hcan => ?_⟩
    · by_contra hn
      obtain ⟨tr', q, hrun', hstuck⟩ :=
        exists_stuck (p := { p with closed := true }) hi' rfl halive hn
      exact (hnever tr' q hrun').1 hstuck
    · have h0 : ({ p with closed := true } : Pipe β).closed = true ∧
          CanStop { p with closed := true } := ⟨rfl, hcan⟩
      have hkeep : q.closed = true ∧ CanStop q := by
        refine hrun'.invariant (fun q => q.closed = true ∧ CanStop q) h0 ?_
        rintro t a t' o ⟨hct, hst⟩ hstep
        have hr := rule_of_step hstep
        exact ⟨closed_of_rule hr hct, canStop_step hct hst hr⟩
      exact ⟨not_stuck_of_canStop hkeep.2, finishes_of_canFinish hkeep.1 (.inl hkeep.2)⟩
    · by_contra hn
      obtain ⟨tr', q, hrun', halone, hstuck⟩ :=
        exists_stuck_alone (p := { p with closed := true }) hi' rfl halive hn
      refine hstuck.not_finishes fun tr'' q' hrun'' halone' => ?_
      obtain ⟨hlen, hend⟩ := hfin _ q' (hrun'.append hrun'') (halone.append halone')
      rw [List.length_append] at hlen
      exact ⟨by omega, hend⟩
    · exact finishes_of_canFinish (p := { p with closed := true }) rfl hcan

/-- `poll_close` while `recv_loop` has a message to put and `send_loop` is parked. -/
theorem never_stuck_iff_held :
    ∃ (tr : Trace UInt8) (p p' : Pipe UInt8) (o : Out UInt8),
      (machine UInt8).Run (new "" "") tr p ∧
      (machine UInt8).step p (.pollClose 0) = some (p', o) ∧
      p.sendLoop = .recv ∧ p.recvLoop = .send [7] ∧
      ∀ tr' q, (machine UInt8).Run p' tr' q → ¬ Stuck q ∧ Finishes q := by
  obtain ⟨tr, p, hrun, -, hsend, hrecv, hput, hclose⟩ :=
    Machine.exists_run_of_exec (machine UInt8) (new "" "")
      [.sendHead, .sendRecv, .recvHead, .arrive (some (.ok (.binary [7]))), .recvNext]
      (P := fun _ p => p.sendLoop = .recv ∧ p.recvLoop = .send [7] ∧ p.putsAtOnce = true ∧
        ((machine UInt8).step p (.pollClose 0)).isSome = true) (by decide)
  obtain ⟨⟨p', o⟩, hstep⟩ := Option.isSome_iff_exists.mp hclose
  exact ⟨tr, p, p', o, hrun, hstep, hsend, hrecv,
    (never_stuck_iff hrun hstep).1.mpr (.inr (.inr (.inr (.inl ⟨[7], hrecv, hput⟩))))⟩

/-- Closing a connected and idle pipe: `send_loop` waits for a message, `recv_loop` for the
peer, and the flag wakes neither. -/
theorem never_stuck_fails :
    ∃ (tr : Trace UInt8) (p : Pipe UInt8), (machine UInt8).Run (new "" "") tr p ∧
      tr.map Event.act = [.sendHead, .sendRecv, .recvHead, .pollClose 0] ∧ Stuck p :=
  Machine.exists_run_of_exec (machine UInt8) (new "" "")
    [.sendHead, .sendRecv, .recvHead, .pollClose 0] (by unfold Stuck; decide)

end Pipe

end ObfsWs
