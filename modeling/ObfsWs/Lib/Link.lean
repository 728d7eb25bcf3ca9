import ObfsWs.Lib.Framing
import ObfsWs.Lib.Machine

/-!
# Two endpoints on a byte stream

Two endpoints exchange the messages of a delimited format over a stream that carries bytes in
both directions, in order, until it breaks. When it breaks, some of the bytes under way are lost
from the end, and what is written afterwards goes nowhere.

An endpoint may write a message in pieces, and it may stop with a message half written. What it
has to keep is its own books: the bytes it puts on the stream are those of the messages it built,
and it reads nothing but whole messages off the front. Then each endpoint receives the messages
the other one built, in order, none invented and none skipped.

## The books of an endpoint

Nothing is asked about how an endpoint works: it has any states, any actions and any observations.
It is asked for three things. What it puts on the stream in a step, together with what it has not
yet written afterwards, is what it had not yet written before and the encodings of the messages it
built in that step. When it stops, it writes nothing more, and what was half written stays so. And
in a step it reads nothing, or one message off the front.

These are fields, so an endpoint that keeps no books cannot be built. Every one of them is about a
single step; that the two directions flow is then an induction over the run in which neither
endpoint knows anything about the other one.

## Main definitions

* `Endpoint` — what an endpoint does; that it keeps its books are fields
* `Link`, `Link.machine` — two endpoints and the bytes under way
* `Flow` — one direction: what was built, what was received and what is under way

## Main results

* `Link.flow_of_run` — both directions flow in every run

## The stream

It is reliable and in order until it breaks, in both directions at once. When it breaks, any
number of the bytes under way are lost from the end of each direction, and the rest may still be
read; what is written afterwards is lost. In each step an endpoint is told whether the stream is
broken; what it makes of that is its own business. There is no flow control: the bytes under way
may be any number, and a writer that is held up is a writer that makes no step.

Bytes are never changed and never duplicated. A stream that does that is not this one.
-/

namespace ObfsWs

variable {μ ε σ σ' α α' ο ο' : Type}

/-- What a step of an endpoint does to the stream, and what is observed of it. -/
structure Effect (ο : Type) where
  /-- The bytes under way to the endpoint that it leaves there. -/
  input : List UInt8
  /-- The bytes it puts on the stream. -/
  output : List UInt8
  /-- What is observed. -/
  obs : ο

/-- An endpoint. Its steps may depend on the bytes under way to it and on whether the stream is
broken. -/
structure Endpoint (D : Delimited μ ε) (σ α ο : Type) where
  /-- One step. -/
  step : σ → Bool → List UInt8 → α → Option (σ × Effect ο)
  /-- The bytes of the message it is writing that are not yet on the stream. -/
  pending : σ → List UInt8
  /-- It has stopped. -/
  done : σ → Bool
  /-- The messages it built in a step. -/
  built : ο → List μ
  /-- The messages it received in a step. -/
  recvd : ο → List μ
  /-- It stops for good. -/
  step_of_done : ∀ (s : σ) (broken : Bool) (input : List UInt8) (a : α), done s = true →
    step s broken input a = none
  /-- It builds messages that fit. -/
  ok_of_built : ∀ (s : σ) (broken : Bool) (input : List UInt8) (a : α) (s' : σ) (e : Effect ο),
    step s broken input a = some (s', e) → ∀ m ∈ built e.obs, D.ok m
  /-- It writes what it built. -/
  writes : ∀ (s : σ) (broken : Bool) (input : List UInt8) (a : α) (s' : σ) (e : Effect ο),
    step s broken input a = some (s', e) → done s' = false →
      pending s ++ D.wire (built e.obs) = e.output ++ pending s'
  /-- It writes nothing as it stops. -/
  stops : ∀ (s : σ) (broken : Bool) (input : List UInt8) (a : α) (s' : σ) (e : Effect ο),
    step s broken input a = some (s', e) → done s' = true → e.output = [] ∧ built e.obs = []
  /-- It reads nothing, or one message. -/
  reads : ∀ (s : σ) (broken : Bool) (input : List UInt8) (a : α) (s' : σ) (e : Effect ο),
    step s broken input a = some (s', e) → (e.input = input ∧ recvd e.obs = []) ∨
      ∃ m, D.recv input = .ok (m, e.input) ∧ recvd e.obs = [m]

/-- An endpoint that makes a step has not stopped. -/
theorem Endpoint.not_done_of_step {D : Delimited μ ε} (A : Endpoint D σ α ο) {s s' : σ}
    {broken : Bool} {input : List UInt8} {a : α} {e : Effect ο}
    (h : A.step s broken input a = some (s', e)) : A.done s = false := by
  cases hs : A.done s with
  | false => rfl
  | true =>
    rw [A.step_of_done s broken input a hs] at h
    cases h

/-! ### One direction -/

/-- `Flow D built recvd flight pending live`: the messages received are the first of those built,
and the bytes under way are the first of the others; while the sender and the stream are `live`,
the bytes not under way are the `pending` ones. -/
structure Flow (D : Delimited μ ε) (built recvd : List μ) (flight pending : List UInt8)
    (live : Prop) : Prop where
  ok : ∀ m ∈ built, D.ok m
  rest : ∃ rest, built = recvd ++ rest ∧ flight <+: D.wire rest ∧
    (live → D.wire rest = flight ++ pending)

namespace Flow

variable {D : Delimited μ ε} {built recvd new : List μ} {flight pending pending' out : List UInt8}
  {live live' : Prop}

theorem start (D : Delimited μ ε) (live : Prop) : Flow D [] [] [] [] live where
  ok _ hm := absurd hm List.not_mem_nil
  rest := ⟨[], rfl, List.prefix_rfl, fun _ => rfl⟩

theorem recvd_isPrefix (h : Flow D built recvd flight pending live) : recvd <+: built := by
  obtain ⟨rest, hbuilt, -⟩ := h.rest
  exact ⟨rest, hbuilt.symm⟩

/-- The sender's step, on a stream that works. -/
theorem write (h : Flow D built recvd flight pending live) (hok : ∀ m ∈ new, D.ok m)
    (hlive : live) (hw : pending ++ D.wire new = out ++ pending') :
    Flow D (built ++ new) recvd (flight ++ out) pending' live' := by
  obtain ⟨rest, rfl, -, hall⟩ := h.rest
  have hwire : D.wire (rest ++ new) = flight ++ out ++ pending' := by
    rw [Delimited.wire_append, hall hlive, List.append_assoc, hw, List.append_assoc]
  refine ⟨?_, rest ++ new, List.append_assoc _ _ _, ?_, fun _ => hwire⟩
  · intro m hm
    rcases List.mem_append.mp hm with hm | hm
    · exact h.ok m hm
    · exact hok m hm
  · rw [hwire]
    exact List.prefix_append _ _

/-- A step of the sender that puts nothing on the stream, or finds it broken. -/
theorem lose (h : Flow D built recvd flight pending live) (hok : ∀ m ∈ new, D.ok m)
    (hlive : ¬ live') : Flow D (built ++ new) recvd flight pending' live' := by
  obtain ⟨rest, rfl, hfl, -⟩ := h.rest
  refine ⟨?_, rest ++ new, List.append_assoc _ _ _, ?_, fun hl => absurd hl hlive⟩
  · intro m hm
    rcases List.mem_append.mp hm with hm | hm
    · exact h.ok m hm
    · exact hok m hm
  · rw [Delimited.wire_append]
    exact hfl.trans (List.prefix_append _ _)

/-- The bytes under way are cut short. -/
theorem cut (h : Flow D built recvd flight pending live) (n : ℕ) (hlive : ¬ live') :
    Flow D built recvd (flight.take n) pending live' := by
  obtain ⟨rest, hbuilt, hfl, -⟩ := h.rest
  exact ⟨h.ok, rest, hbuilt, (List.take_prefix n flight).trans hfl, fun hl => absurd hl hlive⟩

/-- **The next message received is the next one built.** -/
theorem next {m : μ} {flight' : List UInt8} (h : Flow D built recvd flight pending live)
    (hr : D.recv flight = .ok (m, flight')) :
    ∃ rest, built = recvd ++ m :: rest ∧ flight = D.enc m ++ flight' ∧
      flight' <+: D.wire rest ∧ (live → D.wire rest = flight' ++ pending) := by
  obtain ⟨rest, rfl, hfl, hall⟩ := h.rest
  have hok : ∀ m ∈ rest, D.ok m := fun m hm => h.ok m (List.mem_append_right _ hm)
  rcases D.recv_of_isPrefix hok hfl with ⟨m', rest', r, rfl, rfl, hr', hrecv⟩ | heof
  · obtain ⟨rfl, rfl⟩ := Prod.mk.inj (Except.ok.inj (hr.symm.trans hrecv))
    refine ⟨rest', rfl, rfl, hr', fun hl => ?_⟩
    have hw := hall hl
    rw [Delimited.wire_cons, List.append_assoc] at hw
    exact List.append_cancel_left hw
  · rw [hr] at heof
    cases heof

/-- A read yields the next message, or finds that there is not enough to read. -/
theorem recv_or_eof (h : Flow D built recvd flight pending live) :
    (∃ r, D.recv flight = .ok r) ∨ D.recv flight = .error D.eof := by
  obtain ⟨rest, rfl, hfl, -⟩ := h.rest
  have hok : ∀ m ∈ rest, D.ok m := fun m hm => h.ok m (List.mem_append_right _ hm)
  rcases D.recv_of_isPrefix hok hfl with ⟨m, _, r, -, -, -, hrecv⟩ | heof
  · exact .inl ⟨_, hrecv⟩
  · exact .inr heof

/-- The receiver's step. -/
theorem recv {m : μ} {flight' : List UInt8} (h : Flow D built recvd flight pending live)
    (hr : D.recv flight = .ok (m, flight')) :
    Flow D built (recvd ++ [m]) flight' pending live := by
  obtain ⟨rest, hbuilt, -, hfl, hall⟩ := h.next hr
  exact ⟨h.ok, rest, by rw [hbuilt, List.append_assoc]; rfl, hfl, hall⟩

end Flow

/-! ### The link -/

/-- Two endpoints and the bytes under way between them. -/
structure Link (σ σ' : Type) where
  /-- One endpoint. -/
  left : σ
  /-- The other one. -/
  right : σ'
  /-- Put on the stream by `left` and not yet read by `right`. -/
  toRight : List UInt8
  /-- Put on the stream by `right` and not yet read by `left`. -/
  toLeft : List UInt8
  /-- The stream is broken. -/
  broken : Bool

/-- The actions of a link. -/
inductive LinkAct (α α' : Type)
  | left (a : α)
  | right (a : α')
  /-- The stream breaks; so many of the bytes under way will still arrive. -/
  | brk (toRight toLeft : ℕ)

/-- What is observed of a link. -/
inductive LinkOut (ο ο' : Type)
  | left (o : ο)
  | right (o : ο')
  | brk

namespace Link

variable {D : Delimited μ ε}

/-- Two endpoints on a new stream. -/
def start (l : σ) (r : σ') : Link σ σ' := ⟨l, r, [], [], false⟩

/-- One step. -/
def step (A : Endpoint D σ α ο) (B : Endpoint D σ' α' ο') (s : Link σ σ') :
    LinkAct α α' → Option (Link σ σ' × LinkOut ο ο')
  | .left a =>
    (A.step s.left s.broken s.toLeft a).map fun r =>
      ({ s with
        left := r.1
        toLeft := r.2.input
        toRight := if s.broken then s.toRight else s.toRight ++ r.2.output }, .left r.2.obs)
  | .right a =>
    (B.step s.right s.broken s.toRight a).map fun r =>
      ({ s with
        right := r.1
        toRight := r.2.input
        toLeft := if s.broken then s.toLeft else s.toLeft ++ r.2.output }, .right r.2.obs)
  | .brk n m =>
    some ({ s with
      toRight := s.toRight.take n
      toLeft := s.toLeft.take m
      broken := true }, .brk)

/-- The link as a machine. -/
def machine (A : Endpoint D σ α ο) (B : Endpoint D σ' α' ο') :
    Machine (Link σ σ') (LinkAct α α') (LinkOut ο ο') := ⟨step A B⟩

/-- What is observed of `left`. -/
def leftObs : LinkOut ο ο' → List ο
  | .left o => [o]
  | _ => []

/-- What is observed of `right`. -/
def rightObs : LinkOut ο ο' → List ο'
  | .right o => [o]
  | _ => []

/-- The history of `left` in some quantity of what is observed of it. -/
def leftHist {γ : Type} (f : ο → List γ)
    (tr : List (Event (Link σ σ') (LinkAct α α') (LinkOut ο ο'))) : List γ :=
  tr.flatMap fun e => (leftObs e.out).flatMap f

/-- The history of `right`. -/
def rightHist {γ : Type} (f : ο' → List γ)
    (tr : List (Event (Link σ σ') (LinkAct α α') (LinkOut ο ο'))) : List γ :=
  tr.flatMap fun e => (rightObs e.out).flatMap f

section Histories

variable {γ : Type} (f : ο → List γ) (f' : ο' → List γ)
  (tr : List (Event (Link σ σ') (LinkAct α α') (LinkOut ο ο')))
  (s t : Link σ σ') (a : LinkAct α α')

theorem leftHist_append (tr' : List (Event (Link σ σ') (LinkAct α α') (LinkOut ο ο'))) :
    leftHist f (tr ++ tr') = leftHist f tr ++ leftHist f tr' :=
  List.flatMap_append

theorem rightHist_append (tr' : List (Event (Link σ σ') (LinkAct α α') (LinkOut ο ο'))) :
    rightHist f' (tr ++ tr') = rightHist f' tr ++ rightHist f' tr' :=
  List.flatMap_append

@[simp] theorem leftHist_left (o : ο) :
    leftHist f (tr ++ [⟨s, a, .left o, t⟩]) = leftHist f tr ++ f o := by
  simp [leftHist, leftObs]

@[simp] theorem leftHist_right (o : ο') :
    leftHist f (tr ++ [⟨s, a, .right o, t⟩]) = leftHist f tr := by
  simp [leftHist, leftObs]

@[simp] theorem leftHist_brk : leftHist f (tr ++ [⟨s, a, .brk, t⟩]) = leftHist f tr := by
  simp [leftHist, leftObs]

@[simp] theorem rightHist_right (o : ο') :
    rightHist f' (tr ++ [⟨s, a, .right o, t⟩]) = rightHist f' tr ++ f' o := by
  simp [rightHist, rightObs]

@[simp] theorem rightHist_left (o : ο) :
    rightHist f' (tr ++ [⟨s, a, .left o, t⟩]) = rightHist f' tr := by
  simp [rightHist, rightObs]

@[simp] theorem rightHist_brk : rightHist f' (tr ++ [⟨s, a, .brk, t⟩]) = rightHist f' tr := by
  simp [rightHist, rightObs]

end Histories

/-- What a step of the link can be. -/
inductive Rule (A : Endpoint D σ α ο) (B : Endpoint D σ' α' ο') (s : Link σ σ') :
    LinkAct α α' → LinkOut ο ο' → Link σ σ' → Prop
  | left {a : α} {l : σ} {e : Effect ο} : A.step s.left s.broken s.toLeft a = some (l, e) →
      Rule A B s (.left a) (.left e.obs)
        ⟨l, s.right, if s.broken then s.toRight else s.toRight ++ e.output, e.input, s.broken⟩
  | right {a : α'} {r : σ'} {e : Effect ο'} :
      B.step s.right s.broken s.toRight a = some (r, e) →
      Rule A B s (.right a) (.right e.obs)
        ⟨s.left, r, e.input, if s.broken then s.toLeft else s.toLeft ++ e.output, s.broken⟩
  | brk (n m : ℕ) :
      Rule A B s (.brk n m) .brk ⟨s.left, s.right, s.toRight.take n, s.toLeft.take m, true⟩

theorem rule_of_step {A : Endpoint D σ α ο} {B : Endpoint D σ' α' ο'} {s t : Link σ σ'}
    {a : LinkAct α α'} {o : LinkOut ο ο'} (h : (machine A B).step s a = some (t, o)) :
    Rule A B s a o t := by
  cases a with
  | left a =>
    obtain ⟨⟨l, e⟩, he, heq⟩ := Option.map_eq_some_iff.mp h
    obtain ⟨rfl, rfl⟩ := Prod.mk.inj heq
    exact .left he
  | right a =>
    obtain ⟨⟨r, e⟩, he, heq⟩ := Option.map_eq_some_iff.mp h
    obtain ⟨rfl, rfl⟩ := Prod.mk.inj heq
    exact .right he
  | brk n m =>
    obtain ⟨rfl, rfl⟩ := Machine.next_inj h
    exact .brk n m

variable {A : Endpoint D σ α ο} {B : Endpoint D σ' α' ο'}

/-- A step of the sender of a direction. -/
theorem flow_send (A : Endpoint D σ α ο) {s l : σ} {broken : Bool} {input flight : List UInt8}
    {a : α} {e : Effect ο} {built recvd : List μ}
    (h : Flow D built recvd flight (A.pending s) (broken = false ∧ A.done s = false))
    (he : A.step s broken input a = some (l, e)) :
    Flow D (built ++ A.built e.obs) recvd (if broken then flight else flight ++ e.output)
      (A.pending l) (broken = false ∧ A.done l = false) := by
  have hok := A.ok_of_built _ _ _ _ _ _ he
  cases broken with
  | true => exact h.lose hok fun hl => absurd hl.1 (by simp)
  | false =>
    cases hl : A.done l with
    | true =>
      obtain ⟨hout, -⟩ := A.stops _ _ _ _ _ _ he hl
      rw [if_neg (by simp), hout, List.append_nil]
      exact h.lose hok fun hlive => absurd hlive.2 (by simp)
    | false => exact h.write hok ⟨rfl, A.not_done_of_step he⟩ (A.writes _ _ _ _ _ _ he hl)

/-- A step of the receiver of a direction. -/
theorem flow_recv (B : Endpoint D σ α ο) {s r : σ} {broken : Bool} {flight pending : List UInt8}
    {a : α} {e : Effect ο} {built recvd : List μ} {live : Prop}
    (h : Flow D built recvd flight pending live) (he : B.step s broken flight a = some (r, e)) :
    Flow D built (recvd ++ B.recvd e.obs) e.input pending live := by
  rcases B.reads _ _ _ _ _ _ he with ⟨hin, hnone⟩ | ⟨m, hm, hone⟩
  · rw [hin, hnone, List.append_nil]
    exact h
  · rw [hone]
    exact h.recv hm

/-- Both directions of a link. -/
structure Flows (A : Endpoint D σ α ο) (B : Endpoint D σ' α' ο')
    (tr : List (Event (Link σ σ') (LinkAct α α') (LinkOut ο ο'))) (s : Link σ σ') : Prop where
  toRight : Flow D (leftHist A.built tr) (rightHist B.recvd tr) s.toRight (A.pending s.left)
    (s.broken = false ∧ A.done s.left = false)
  toLeft : Flow D (rightHist B.built tr) (leftHist A.recvd tr) s.toLeft (B.pending s.right)
    (s.broken = false ∧ B.done s.right = false)

theorem Flows.step {tr : List (Event (Link σ σ') (LinkAct α α') (LinkOut ο ο'))} {s t : Link σ σ'}
    {a : LinkAct α α'} {o : LinkOut ο ο'} (h : Flows A B tr s) (hr : Rule A B s a o t) :
    Flows A B (tr ++ [⟨s, a, o, t⟩]) t := by
  cases hr with
  | left he =>
    refine ⟨?_, ?_⟩
    · rw [leftHist_left, rightHist_left]
      exact flow_send A h.toRight he
    · rw [leftHist_left, rightHist_left]
      exact flow_recv A h.toLeft he
  | right he =>
    refine ⟨?_, ?_⟩
    · rw [leftHist_right, rightHist_right]
      exact flow_recv B h.toRight he
    · rw [leftHist_right, rightHist_right]
      exact flow_send B h.toLeft he
  | brk n m =>
    refine ⟨?_, ?_⟩
    · rw [leftHist_brk, rightHist_brk]
      exact h.toRight.cut n fun hl => absurd hl.1 (by simp)
    · rw [leftHist_brk, rightHist_brk]
      exact h.toLeft.cut m fun hl => absurd hl.1 (by simp)

/-- **What arrives is what was sent**: in every run of a new link the messages that one endpoint
received are the first of those that the other one built. -/
theorem flow_of_run {l : σ} {r : σ'} (hl : A.pending l = []) (hr : B.pending r = [])
    {tr : List (Event (Link σ σ') (LinkAct α α') (LinkOut ο ο'))} {s : Link σ σ'}
    (h : (machine A B).Run (start l r) tr s) : Flows A B tr s := by
  refine h.induct (Flows A B) ?_ fun tr t a t' o _ ih hs => ih.step (rule_of_step hs)
  constructor
  · show Flow D [] [] [] (A.pending l) _
    rw [hl]
    exact .start D _
  · show Flow D [] [] [] (B.pending r) _
    rw [hr]
    exact .start D _

end Link

end ObfsWs
