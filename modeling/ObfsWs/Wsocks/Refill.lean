import Mathlib.Data.List.Basic
import ObfsWs.Wsocks.Manager

/-!
# The pipe manager of the client

`client` keeps `remote_pipes_max` pipes to the server. Its manager removes the closed pipes,
connects one more when there are fewer, and waits for one second when there are enough of them and
for three when it could not connect.

The scheduler is as in `Pipemgr`, and an attempt to connect ends within `patience`.

## More pipes than the mux keeps

The loop of the manager asks whether there are enough pipes, and "enough" is a number that the
user gives. If the mux keeps fewer, the answer is always no: a pipe is added, another one is
dropped to make room for it, and the number does not grow. So the manager connects again at once,
and again, without ever coming to the timer of the branch for enough pipes. `refilled` has both
halves, because which of them applies depends on two numbers that no line of the program compares.

In the first half the eviction never happens: as long as there are fewer pipes than are wanted
there are fewer than the mux keeps.

## Main definitions

* `PipePool` — what the mux keeps of the pipes that are added to it
* `ClientPipemgr`, `ClientPipemgr.task` — the manager
* `ClientPipemgr.quiet` — a step that loses no pipe and is no failed attempt

## Main results

* `ClientPipemgr.inv_of_run` — there are never more pipes than that
* `ClientPipemgr.refilled` — after a quiet time there are exactly as many, and all of them are open,
  if the mux keeps so many; otherwise the manager never finds enough of them

## What is assumed

`add_pipe` belongs to another crate, and it does not keep every pipe: the mux has a bound of its
own, and drops a pipe to make room for one more. `PipePool` says no more than that, for any bound;
which pipe has to go, and in which order they stand, is left open. `remote_pipes_max` is any number,
because the program checks it against nothing.
-/

namespace ObfsWs

/-- The pool in which a mux keeps its pipes. -/
structure PipePool where
  /-- How many it keeps. -/
  size : ℕ
  /-- `add_pipe`. -/
  add : MuxPipes → Bool → MuxPipes
  /-- With room for it the new pipe joins the others. -/
  add_perm : ∀ ps live, ps.length < size → (add ps live).Perm (live :: ps)
  /-- It keeps no more than that, or than there were. -/
  length_add_le : ∀ ps live, (add ps live).length ≤ max size ps.length

namespace PipePool

/-- For concrete runs: the oldest pipe has to go. -/
def evicting (size : ℕ) : PipePool where
  size := size
  add ps live := (ps ++ [live]).drop (ps.length + 1 - size)
  add_perm ps live h := by
    have hroom : ps.length + 1 - size = 0 := Nat.sub_eq_zero_of_le h
    rw [hroom, List.drop_zero]
    exact List.perm_append_singleton live ps
  length_add_le ps live := by
    rw [List.length_drop, List.length_append, List.length_singleton]
    omega

example : (evicting 2).add [true, false] true = [false, true] := by decide

end PipePool

/-- Where the manager of the client stands. -/
inductive ClientPipemgrPc
  /-- Before `mux.retain`. -/
  | retain
  /-- Before `mux.iter_pipes`. -/
  | iterPipes
  /-- There are enough pipes: in `Timer::after`. -/
  | full
  /-- In `ObfsWsPipe::connect`. -/
  | connecting
  /-- It could not connect: in `Timer::after`. -/
  | failed
  /-- Before `mux.add_pipe`. -/
  | addPipe
  deriving DecidableEq

/-- `pipemgr_fut` of `client`, with the pipes of the mux. -/
structure ClientPipemgr where
  pipes : MuxPipes
  pc : ClientPipemgrPc

/-- The manager goes on, or something happens to the pipes. -/
inductive ClientPipemgrAct
  | go
  /-- `connect` returns. -/
  | connected (ok : Bool)
  /-- `mux.add_pipe(pipe)`. The pipe may be closed by then. -/
  | addPipe (live : Bool)
  | others (a : PipesAct)
  deriving DecidableEq

namespace ClientPipemgr

/-- One step. Nobody else adds pipes to the mux of a client. -/
def step (pool : PipePool) (maxConn : ℕ) (s : ClientPipemgr) :
    ClientPipemgrAct → Option (ClientPipemgr × Unit)
  | .go =>
    match s.pc with
    | .retain => some ({ pipes := s.pipes.retain, pc := .iterPipes }, ())
    | .iterPipes =>
      some ({ s with pc := if s.pipes.length ≥ maxConn then .full else .connecting }, ())
    | .full | .failed => some ({ s with pc := .retain }, ())
    | .connecting | .addPipe => none
  | .connected ok =>
    match s.pc with
    | .connecting => some ({ s with pc := if ok then .addPipe else .failed }, ())
    | _ => none
  | .addPipe live =>
    match s.pc with
    | .addPipe => some ({ pipes := pool.add s.pipes live, pc := .retain }, ())
    | _ => none
  | .others a =>
    match a with
    | .add _ => none
    | a => some ({ s with pipes := s.pipes.after a }, ())

/-- The timers take one second and three. -/
def least (s : ClientPipemgr) : ℕ :=
  match s.pc with
  | .full => second
  | .failed => 3 * second
  | _ => 0

/-- How long the manager stays where it stands. -/
def stay (lag patience : ℕ) : ClientPipemgrPc → ℕ
  | .full => second + lag
  | .failed => 3 * second + lag
  | .connecting => patience
  | .retain | .iterPipes | .addPipe => lag

def isOwn : ClientPipemgrAct → Bool
  | .others _ => false
  | _ => true

/-- What a step can be. -/
inductive Rule (pool : PipePool) (maxConn : ℕ) (s : ClientPipemgr) :
    ClientPipemgrAct → ClientPipemgr → Prop
  | retain : s.pc = .retain → Rule pool maxConn s .go ⟨s.pipes.retain, .iterPipes⟩
  | enough : s.pc = .iterPipes → maxConn ≤ s.pipes.length → Rule pool maxConn s .go ⟨s.pipes, .full⟩
  | missing : s.pc = .iterPipes → s.pipes.length < maxConn →
      Rule pool maxConn s .go ⟨s.pipes, .connecting⟩
  | timer : s.pc = .full ∨ s.pc = .failed → Rule pool maxConn s .go ⟨s.pipes, .retain⟩
  | connected : s.pc = .connecting → Rule pool maxConn s (.connected true) ⟨s.pipes, .addPipe⟩
  | failed : s.pc = .connecting → Rule pool maxConn s (.connected false) ⟨s.pipes, .failed⟩
  | added {live : Bool} : s.pc = .addPipe →
      Rule pool maxConn s (.addPipe live) ⟨pool.add s.pipes live, .retain⟩
  | others {a : PipesAct} : (∀ live, a ≠ .add live) →
      Rule pool maxConn s (.others a) ⟨s.pipes.after a, s.pc⟩

variable {pool : PipePool} {maxConn lag patience now : ℕ} {s s' : ClientPipemgr}
  {a : ClientPipemgrAct}

theorem rule_of_step {o : Unit} (h : step pool maxConn s a = some (s', o)) :
    Rule pool maxConn s a s' := by
  cases a with
  | go =>
    simp only [step] at h
    split at h
    · rename_i hpc
      obtain ⟨rfl, -⟩ := Machine.next_inj h
      exact .retain hpc
    · rename_i hpc
      obtain ⟨rfl, -⟩ := Machine.next_inj h
      split
      · rename_i hle
        exact .enough hpc hle
      · rename_i hlt
        exact .missing hpc (Nat.lt_of_not_le hlt)
    · rename_i hpc
      obtain ⟨rfl, -⟩ := Machine.next_inj h
      exact .timer (.inl hpc)
    · rename_i hpc
      obtain ⟨rfl, -⟩ := Machine.next_inj h
      exact .timer (.inr hpc)
    · cases h
    · cases h
  | connected ok =>
    simp only [step] at h
    split at h
    · rename_i hpc
      obtain ⟨rfl, -⟩ := Machine.next_inj h
      cases ok with
      | true => exact .connected hpc
      | false => exact .failed hpc
    · cases h
  | addPipe live =>
    simp only [step] at h
    split at h
    · rename_i hpc
      obtain ⟨rfl, -⟩ := Machine.next_inj h
      exact .added hpc
    · cases h
  | others a =>
    simp only [step] at h
    split at h
    · cases h
    · rename_i hadd
      obtain ⟨rfl, -⟩ := Machine.next_inj h
      exact .others hadd

/-- The manager with its clock. -/
def task (pool : PipePool) (maxConn lag patience : ℕ) :
    TimedTask ClientPipemgr ClientPipemgrAct Unit where
  step _ := step pool maxConn
  own := isOwn
  least := least
  most s := some (stay lag patience s.pc)
  most_other := by
    intro now s a s' o h hown
    cases rule_of_step h with
    | others => rfl
    | retain | enough | missing | timer | connected | failed | added => cases hown

/-- The manager with its clock, as a machine. -/
abbrev machine (pool : PipePool) (maxConn lag patience : ℕ) :=
  (task pool maxConn lag patience).machine

/-- The manager at its start: a new mux has no pipes. -/
def start (now : ℕ) : Timed ClientPipemgr := ⟨now, now, ⟨[], .retain⟩⟩

/-- A recorded step. -/
abbrev Recorded := TimedTask.Recorded ClientPipemgr ClientPipemgrAct Unit

/-! ### Not too many

A pipe is added only after the manager has counted fewer than are wanted, and nobody else adds
any. So the bound holds at all times, and where the manager is about to connect it holds with room
for one. -/

/-- There are not too many pipes, and there is room for the one that it connects. -/
structure Inv (maxConn : ℕ) (s : ClientPipemgr) : Prop where
  length_le : s.pipes.length ≤ maxConn
  room : s.pc = .connecting ∨ s.pc = .addPipe → s.pipes.length < maxConn

theorem Rule.inv (h : Rule pool maxConn s a s') (hs : Inv maxConn s) : Inv maxConn s' := by
  cases h with
  | retain => exact ⟨(List.length_filter_le _ _).trans hs.length_le, by simp⟩
  | enough | timer | failed => exact ⟨hs.length_le, by simp⟩
  | missing _ hlt => exact ⟨hs.length_le, fun _ => hlt⟩
  | connected hpc => exact ⟨hs.length_le, fun _ => hs.room (.inl hpc)⟩
  | added hpc =>
    refine ⟨?_, by simp⟩
    show (pool.add s.pipes _).length ≤ maxConn
    by_cases hsize : maxConn ≤ pool.size
    · have hroom := hs.room (.inr hpc)
      rw [(pool.add_perm s.pipes _ (hroom.trans_le hsize)).length_eq]
      exact hroom
    · have hfew := max_le (Nat.le_of_not_le hsize) hs.length_le
      exact (pool.length_add_le _ _).trans hfew
  | @others a hadd =>
    have hle : (s.pipes.after a).length ≤ s.pipes.length := by
      cases a with
      | close i => simp [MuxPipes.after]
      | add live => exact absurd rfl (hadd live)
      | remove i => exact List.length_eraseIdx_le _ _
    exact ⟨hle.trans hs.length_le, fun hpc => hle.trans_lt (hs.room hpc)⟩

/-- What a step with the clock does to the state. -/
theorem rule_of_clock {t t' : Timed ClientPipemgr} {c : ClockAct ClientPipemgrAct} {o : Option Unit}
    (h : (machine pool maxConn lag patience).step t c = some (t', o)) :
    t'.state = t.state ∨ ∃ a, c = .act a ∧ Rule pool maxConn t.state a t'.state := by
  cases TimedTask.rule_of_step h with
  | tick => exact .inl rfl
  | own _ _ hstep => exact .inr ⟨_, rfl, rule_of_step hstep⟩
  | other _ hstep => exact .inr ⟨_, rfl, rule_of_step hstep⟩

/-- **There are never too many pipes.** -/
theorem inv_of_run {t : Timed ClientPipemgr} {tr : List Recorded}
    (h : (machine pool maxConn lag patience).Run (start now) tr t) : Inv maxConn t.state := by
  refine h.invariant (fun t => Inv maxConn t.state) ⟨Nat.zero_le _, by simp [start]⟩ ?_
  intro t c t' o ht hs
  rcases rule_of_clock hs with hsame | ⟨a, -, hrule⟩
  · rwa [hsame]
  · exact hrule.inv ht

/-! ### Full again

The time that is left is a number of cycles, one for each pipe that is missing, and what is left
of the cycle that the manager is in. A pipe that is closed and not yet removed is missing as well;
it is removed at the beginning of a cycle. An attempt that succeeds brings the pool nearer, and
the condition on the stretch excludes the ones that fail. -/

/-- There are as many pipes as there should be, and all are open. -/
def Full (maxConn : ℕ) (s : ClientPipemgr) : Prop := s.pipes = List.replicate maxConn true

theorem full_of_count (hs : Inv maxConn s) (h : maxConn ≤ s.pipes.count true) : Full maxConn s := by
  have hlen : s.pipes.length = maxConn :=
    Nat.le_antisymm hs.length_le (h.trans List.count_le_length)
  have hall : s.pipes.count true = s.pipes.length :=
    Nat.le_antisymm List.count_le_length (hlen ▸ h)
  exact List.eq_replicate_iff.mpr ⟨hlen, fun p hp => (List.count_eq_length.mp hall p hp).symm⟩

/-- A step that loses no pipe and is no failed attempt to connect. -/
def quiet : ClockAct ClientPipemgrAct → Bool
  | .act (.connected ok) => ok
  | .act (.addPipe live) => live
  | .act (.others _) => false
  | .act .go | .tick _ => true

/-- What is full stays full. -/
theorem Rule.full (h : Rule pool maxConn s a s') (hs : Inv maxConn s) (ha : quiet (.act a) = true)
    (hfull : Full maxConn s) : Full maxConn s' := by
  cases h with
  | retain =>
    show s.pipes.retain = _
    rw [Full] at hfull
    simp [MuxPipes.retain, hfull]
  | enough | missing | timer | connected | failed => exact hfull
  | added hpc =>
    have hroom := hs.room (.inr hpc)
    rw [Full] at hfull
    simp [hfull] at hroom
  | others => cases ha

theorem full_of_run {t t' : Timed ClientPipemgr} {tr : List Recorded} (ht : Inv maxConn t.state)
    (h : (machine pool maxConn lag patience).Run t tr t') (hquiet : ∀ e ∈ tr, quiet e.act = true)
    (hfull : Full maxConn t.state) : Full maxConn t'.state := by
  refine (h.invariant_of (fun t => Inv maxConn t.state ∧ Full maxConn t.state)
    (Q := fun e => quiet e.act = true) ⟨ht, hfull⟩ ?_ hquiet).2
  rintro t c t' o ⟨hi, hf⟩ hQ hs
  rcases rule_of_clock hs with hsame | ⟨a, rfl, hrule⟩
  · rw [hsame]
    exact ⟨hi, hf⟩
  · exact ⟨hrule.inv hi, hrule.full hi hQ hf⟩

/-- How long it takes at most to connect one more pipe. -/
def cycle (lag patience : ℕ) : ℕ := 3 * lag + patience

/-- How many pipes are missing after the next one. -/
def more (maxConn : ℕ) (s : ClientPipemgr) : ℕ := maxConn - s.pipes.count true - 1

/-- The time that is left at most until nothing is missing. -/
def untilFull (maxConn lag patience : ℕ) (s : ClientPipemgr) : ℕ :=
  s.more maxConn * cycle lag patience +
    match s.pc with
    | .retain => cycle lag patience
    | .iterPipes =>
      -- closed pipes may be counted among those that are enough
      if s.pipes.count true = s.pipes.length then 2 * lag + patience
      else second + 2 * lag + cycle lag patience
    | .full => second + lag + cycle lag patience
    | .connecting => lag + patience
    | .failed => 3 * second + lag + cycle lag patience
    | .addPipe => lag

theorem count_retain (ps : MuxPipes) :
    ps.retain.count true = ps.count true ∧ ps.retain.count true = ps.retain.length := by
  have hall : ps.retain.count true = ps.retain.length := by
    refine List.count_eq_length.mpr fun p hp => ?_
    exact ((List.mem_filter.mp hp).2 : p = true).symm
  refine ⟨?_, hall⟩
  rw [MuxPipes.retain, List.count_filter rfl]

/-- It depends on the pipes only. -/
theorem more_mk (pc : ClientPipemgrPc) : more maxConn ⟨s.pipes, pc⟩ = s.more maxConn := rfl

/-- Each step of the manager uses up the time it may have stayed, unless nothing is missing then. -/
theorem Rule.untilFull_le (h : Rule pool maxConn s a s') (hs : Inv maxConn s)
    (hsize : maxConn ≤ pool.size) (ha : quiet (.act a) = true) : Full maxConn s' ∨
      stay lag patience s.pc + untilFull maxConn lag patience s' ≤
        untilFull maxConn lag patience s := by
  have hcycle : cycle lag patience = 3 * lag + patience := rfl
  cases h with
  | retain hpc =>
    obtain ⟨hcount, hall⟩ := count_retain s.pipes
    have hmore : more maxConn ⟨s.pipes.retain, .iterPipes⟩ = s.more maxConn := by
      rw [more, hcount, more]
    right
    simp only [untilFull, hmore, hall, if_true, hpc, stay]
    omega
  | enough hpc hle =>
    by_cases hall : s.pipes.count true = s.pipes.length
    · exact .inl (full_of_count ⟨hs.length_le, by simp⟩ (hall ▸ hle))
    · right
      simp only [untilFull, more_mk, hall, if_false, hpc, stay]
      omega
  | missing hpc =>
    right
    simp only [untilFull, more_mk, hpc, stay]
    split
    · omega
    · omega
  | timer hpc =>
    right
    rcases hpc with hpc | hpc
    · simp only [untilFull, more_mk, hpc, stay]
      omega
    · simp only [untilFull, more_mk, hpc, stay]
      omega
  | connected hpc =>
    right
    simp only [untilFull, more_mk, hpc, stay]
    omega
  | failed => cases ha
  | @added live hpc =>
    obtain rfl : live = true := ha
    have hcount : (pool.add s.pipes true).count true = s.pipes.count true + 1 := by
      have hroom := (hs.room (.inr hpc)).trans_le hsize
      rw [(pool.add_perm s.pipes true hroom).count_eq, List.count_cons_self]
    by_cases hlast : maxConn ≤ s.pipes.count true + 1
    · exact .inl (full_of_count ((Rule.added hpc).inv hs) (hlast.trans_eq hcount.symm))
    · right
      have hone : s.more maxConn = more maxConn ⟨pool.add s.pipes true, .retain⟩ + 1 := by
        simp only [more, hcount]
        omega
      simp only [untilFull, hone, hpc, stay, Nat.succ_mul]
      omega
  | others => cases ha

/-- The manager stays nowhere for longer than that. -/
theorem stay_le (s : ClientPipemgr) :
    stay lag patience s.pc ≤ untilFull maxConn lag patience s := by
  have hcycle : cycle lag patience = 3 * lag + patience := rfl
  rw [untilFull]
  cases s.pc with
  | iterPipes =>
    dsimp only [stay]
    split
    · omega
    · omega
  | _ =>
    dsimp only [stay]
    omega

/-- A bound on it. -/
theorem untilFull_le (hs : ¬ Full maxConn s) (hi : Inv maxConn s) :
    untilFull maxConn lag patience s ≤
      maxConn * cycle lag patience + 3 * second + 2 * lag := by
  have hpos : s.pipes.count true < maxConn := by
    by_contra hle
    exact hs (full_of_count hi (Nat.le_of_not_lt hle))
  have hmore : s.more maxConn + 1 ≤ maxConn := by
    rw [more]
    omega
  have hmul := Nat.mul_le_mul_right (cycle lag patience) hmore
  rw [Nat.succ_mul] at hmul
  have hsec : second ≤ 3 * second := by omega
  have hcycle : cycle lag patience = 3 * lag + patience := rfl
  rw [untilFull]
  cases s.pc with
  | iterPipes =>
    dsimp only
    split
    · omega
    · omega
  | _ =>
    dsimp only
    omega

/-- Once it is quiet for long enough there are as many pipes as there should be, if the mux keeps so
many. -/
theorem full_of_late {t t' : Timed ClientPipemgr} {tr tr' : List Recorded}
    (hsize : maxConn ≤ pool.size) (h : (machine pool maxConn lag patience).Run (start now) tr t)
    (h' : (machine pool maxConn lag patience).Run t tr' t')
    (hquiet : ∀ e ∈ tr', quiet e.act = true)
    (hlate : t.now + maxConn * cycle lag patience + 3 * second + 2 * lag < t'.now) :
    Full maxConn t'.state := by
  by_cases hfull : Full maxConn t.state
  · exact full_of_run (inv_of_run h) h' hquiet hfull
  have htime : (task pool maxConn lag patience).OnTime t :=
    TimedTask.onTime_of_run h (TimedTask.onTime_start _ _)
  have hbound : (task pool maxConn lag patience).Bound
      (fun e => Inv maxConn e.pre.state ∧ quiet e.act = true)
      (fun e => Full maxConn e.post.state) (untilFull maxConn lag patience) := by
    constructor
    · intro s m hm
      obtain rfl := Option.some.inj hm
      exact stay_le s
    · intro now s a s' o _ hm
      cases hm
    · rintro t a s' o m _ hstep ⟨hi, hq⟩ hm _
      obtain rfl := Option.some.inj hm
      exact (rule_of_step hstep).untilFull_le hi hsize hq
    · rintro t a s' o hown _ ⟨-, hq⟩
      cases a with
      | others => cases hq
      | go | connected | addPipe => cases hown
  have hsteps : ∀ e ∈ tr', Inv maxConn e.pre.state ∧ quiet e.act = true := by
    intro e he
    refine ⟨?_, hquiet e he⟩
    obtain ⟨tr₁, tr₂, rfl⟩ := List.append_of_mem he
    exact inv_of_run (h.append h'.before)
  rcases hbound.recurs htime h' hsteps (Option.some_ne_none _) with hfirst | ⟨e, he, hG, -⟩
  · have hleft : untilFull maxConn lag patience t.state ≤ _ := untilFull_le hfull (inv_of_run h)
    have hsince := htime.since_le
    omega
  · obtain ⟨tr₁, tr₂, rfl⟩ := List.append_of_mem he
    obtain ⟨hstep, hrest⟩ := h'.after
    have hi : Inv maxConn e.post.state := inv_of_run ((h.append h'.before).snoc hstep)
    refine full_of_run hi hrest (fun f hf => hquiet f ?_) hG
    exact List.mem_append_right _ (List.mem_cons_of_mem _ hf)

/-! ### More pipes than the mux keeps -/

/-- Nothing makes the pool larger than it can be. -/
theorem Rule.length_le_size (h : Rule pool maxConn s a s') (hs : s.pipes.length ≤ pool.size) :
    s'.pipes.length ≤ pool.size := by
  cases h with
  | retain => exact (List.length_filter_le _ _).trans hs
  | enough | missing | timer | connected | failed => exact hs
  | added => exact (pool.length_add_le _ _).trans (max_le le_rfl hs)
  | @others a hadd =>
    cases a with
    | close i => exact (List.length_set).trans_le hs
    | add live => exact absurd rfl (hadd live)
    | remove i => exact (List.length_eraseIdx_le _ _).trans hs

/-- Where there is no room for enough, there are never enough. -/
theorem Rule.not_full (h : Rule pool maxConn s a s') (hsize : pool.size < maxConn)
    (hs : s.pipes.length ≤ pool.size) (hpc : s.pc ≠ .full) : s'.pc ≠ .full := by
  cases h with
  | enough _ hle => exact absurd (hle.trans hs) (Nat.not_le_of_lt hsize)
  | others => exact hpc
  | retain | missing | timer | connected | failed | added => simp

/-- **A pool that is too small** never has enough pipes: the manager connects for ever. -/
theorem not_full_of_run {t : Timed ClientPipemgr} {tr : List Recorded}
    (hsize : pool.size < maxConn) (h : (machine pool maxConn lag patience).Run (start now) tr t) :
    t.state.pipes.length ≤ pool.size ∧ t.state.pc ≠ .full := by
  refine h.invariant (fun t => t.state.pipes.length ≤ pool.size ∧ t.state.pc ≠ .full)
    ⟨Nat.zero_le _, by simp [start]⟩ ?_
  rintro t c t' o ⟨hlen, hpc⟩ hs
  rcases rule_of_clock hs with hsame | ⟨a, -, hrule⟩
  · rw [hsame]
    exact ⟨hlen, hpc⟩
  · exact ⟨hrule.length_le_size hlen, hrule.not_full hsize hlen hpc⟩

end ClientPipemgr

end ObfsWs
