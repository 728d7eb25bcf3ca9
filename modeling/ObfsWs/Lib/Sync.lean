import ObfsWs.Lib.Machine

/-!
# Two machines that take steps together

Two machines run side by side. A joint step is a step of one of them, or a step of both at once,
where each may see what the other one does. A run of both is then a run of each of them, so what
holds of every run of one machine holds of its part of every joint run.

## Main definitions

* `Joint` — which steps are taken together, and when
* `Machine.sync` — the two machines as one
* `Joint.leftOf`, `Joint.rightOf` — the parts of a joint run

## Main results

* `Machine.Run.left`, `Machine.Run.right` — the parts of a joint run are runs

## How a joint is used

A `Joint` gives for every joint action what each machine does in it, and a check that may look at
both states before the step and at both outcomes. The check is where the two machines exchange
something: one outputs a value that the other one takes as an argument of its action. So an action
of the right machine may carry data that only the left machine can justify, and `agree` is the
justification.

Neither machine knows of the other one. That `leftOf` and `rightOf` are runs is therefore all that
has to be proved before every theorem about the one machine holds inside the other's company. What
holds because they are together is proved of the joint runs, from `agree`.
-/

namespace ObfsWs

variable {σ σ' α α' ω ω' γ : Type}

/-- How two machines take their steps. -/
structure Joint (σ σ' α α' ω ω' γ : Type) where
  /-- What the left machine does in a joint step, if anything. -/
  left : γ → Option α
  /-- What the right machine does. -/
  right : γ → Option α'
  /-- The step is allowed from these states, with these outcomes. -/
  agree : γ → σ → σ' → Option ω → Option ω' → Bool

/-- A recorded step of two machines. -/
abbrev JointEvent (σ σ' γ ω ω' : Type) := Event (σ × σ') γ (Option ω × Option ω')

namespace Machine

/-- A step, or none. -/
def stepOr (M : Machine σ α ω) (s : σ) : Option α → Option (σ × Option ω)
  | none => some (s, none)
  | some a => (M.step s a).map fun r => (r.1, some r.2)

/-- Both machines. -/
def sync (M : Machine σ α ω) (N : Machine σ' α' ω') (J : Joint σ σ' α α' ω ω' γ) :
    Machine (σ × σ') γ (Option ω × Option ω') where
  step s c :=
    match M.stepOr s.1 (J.left c), N.stepOr s.2 (J.right c) with
    | some (t, o), some (t', o') =>
      if J.agree c s.1 s.2 o o' then some ((t, t'), (o, o')) else none
    | _, _ => none

end Machine

namespace Joint

variable (J : Joint σ σ' α α' ω ω' γ)

/-- What the left machine does in a recorded step. -/
def leftEvent (e : JointEvent σ σ' γ ω ω') : List (Event σ α ω) :=
  match J.left e.act, e.out.1 with
  | some a, some o => [⟨e.pre.1, a, o, e.post.1⟩]
  | _, _ => []

/-- What the right machine does in a recorded step. -/
def rightEvent (e : JointEvent σ σ' γ ω ω') : List (Event σ' α' ω') :=
  match J.right e.act, e.out.2 with
  | some a, some o => [⟨e.pre.2, a, o, e.post.2⟩]
  | _, _ => []

/-- The steps of the left machine. -/
def leftOf (tr : List (JointEvent σ σ' γ ω ω')) : List (Event σ α ω) := tr.flatMap J.leftEvent

/-- The steps of the right machine. -/
def rightOf (tr : List (JointEvent σ σ' γ ω ω')) : List (Event σ' α' ω') := tr.flatMap J.rightEvent

theorem leftOf_snoc (tr : List (JointEvent σ σ' γ ω ω')) (e : JointEvent σ σ' γ ω ω') :
    J.leftOf (tr ++ [e]) = J.leftOf tr ++ J.leftEvent e := by
  rw [leftOf, List.flatMap_append, List.flatMap_singleton, leftOf]

theorem rightOf_snoc (tr : List (JointEvent σ σ' γ ω ω')) (e : JointEvent σ σ' γ ω ω') :
    J.rightOf (tr ++ [e]) = J.rightOf tr ++ J.rightEvent e := by
  rw [rightOf, List.flatMap_append, List.flatMap_singleton, rightOf]

/-- A step of the left machine is part of a joint step. -/
theorem exists_of_mem_leftOf {tr : List (JointEvent σ σ' γ ω ω')} {e : Event σ α ω}
    (h : e ∈ J.leftOf tr) : ∃ f ∈ tr, J.left f.act = some e.act := by
  obtain ⟨f, hf, he⟩ := List.mem_flatMap.mp h
  refine ⟨f, hf, ?_⟩
  unfold leftEvent at he
  split at he
  · rename_i a o ha _
    obtain rfl := List.mem_singleton.mp he
    exact ha
  · cases he

/-- The left machine was where the joint step started from. -/
theorem pre_of_mem_leftOf {tr : List (JointEvent σ σ' γ ω ω')} {e : Event σ α ω}
    (h : e ∈ J.leftOf tr) : ∃ f ∈ tr, f.pre.1 = e.pre := by
  obtain ⟨f, hf, he⟩ := List.mem_flatMap.mp h
  refine ⟨f, hf, ?_⟩
  unfold leftEvent at he
  split at he
  · obtain rfl := List.mem_singleton.mp he
    rfl
  · cases he

/-- What the right machine did in a joint step. -/
theorem eq_of_mem_rightEvent {f : JointEvent σ σ' γ ω ω'} {e : Event σ' α' ω'}
    (h : e ∈ J.rightEvent f) : J.right f.act = some e.act ∧ f.out.2 = some e.out ∧
      f.pre.2 = e.pre ∧ f.post.2 = e.post := by
  unfold rightEvent at h
  split at h
  · rename_i ha ho
    obtain rfl := List.mem_singleton.mp h
    exact ⟨ha, ho, rfl, rfl⟩
  · cases h

/-- A step of the right machine is part of a joint step. -/
theorem exists_of_mem_rightOf {tr : List (JointEvent σ σ' γ ω ω')} {e : Event σ' α' ω'}
    (h : e ∈ J.rightOf tr) : ∃ f ∈ tr, J.right f.act = some e.act := by
  obtain ⟨f, hf, he⟩ := List.mem_flatMap.mp h
  exact ⟨f, hf, (J.eq_of_mem_rightEvent he).1⟩

end Joint

namespace Machine

variable {M : Machine σ α ω} {N : Machine σ' α' ω'} {J : Joint σ σ' α α' ω ω' γ}
  {s t : σ × σ'} {c : γ} {o : Option ω × Option ω'}

theorem sync_step_iff : (sync M N J).step s c = some (t, o) ↔
    M.stepOr s.1 (J.left c) = some (t.1, o.1) ∧ N.stepOr s.2 (J.right c) = some (t.2, o.2) ∧
      J.agree c s.1 s.2 o.1 o.2 = true := by
  obtain ⟨t, t'⟩ := t
  obtain ⟨o, o'⟩ := o
  simp only [sync]
  constructor
  · intro h
    split at h
    · rename_i hl hr
      split at h
      · rename_i hagree
        obtain ⟨ht, ho⟩ := Machine.next_inj h
        obtain ⟨rfl, rfl⟩ := Prod.mk.inj ht
        obtain ⟨rfl, rfl⟩ := Prod.mk.inj ho
        exact ⟨hl, hr, hagree⟩
      · cases h
    · cases h
  · rintro ⟨hl, hr, hagree⟩
    simp only [hl, hr, hagree, if_true]

/-- What a joint step is to one of the machines: nothing, or a step. -/
theorem stepOr_cases {s t : σ} {a : Option α} {o : Option ω} (h : M.stepOr s a = some (t, o)) :
    (a = none ∧ o = none ∧ t = s) ∨ ∃ b p, a = some b ∧ o = some p ∧ M.step s b = some (t, p) := by
  cases a with
  | none =>
    obtain ⟨rfl, rfl⟩ := Machine.next_inj h
    exact .inl ⟨rfl, rfl, rfl⟩
  | some b =>
    obtain ⟨⟨t', p⟩, hstep, heq⟩ := Option.map_eq_some_iff.mp h
    obtain ⟨rfl, rfl⟩ := Prod.mk.inj heq
    exact .inr ⟨b, p, rfl, rfl, hstep⟩

/-- A step of the left machine alone. -/
theorem sync_left {a : α} {u : σ} {p : ω} (hl : J.left c = some a) (hr : J.right c = none)
    (hstep : M.step s.1 a = some (u, p)) (hagree : J.agree c s.1 s.2 (some p) none = true) :
    (sync M N J).step s c = some ((u, s.2), (some p, none)) := by
  refine sync_step_iff.mpr ⟨?_, ?_, hagree⟩
  · rw [hl, stepOr, hstep]
    rfl
  · rw [hr, stepOr]

/-- A step of the right machine alone. -/
theorem sync_right {a : α'} {u : σ'} {p : ω'} (hl : J.left c = none) (hr : J.right c = some a)
    (hstep : N.step s.2 a = some (u, p)) (hagree : J.agree c s.1 s.2 none (some p) = true) :
    (sync M N J).step s c = some ((s.1, u), (none, some p)) := by
  refine sync_step_iff.mpr ⟨?_, ?_, hagree⟩
  · rw [hl, stepOr]
  · rw [hr, stepOr, hstep]
    rfl

/-- A step of both. -/
theorem sync_both {a : α} {a' : α'} {u : σ} {u' : σ'} {p : ω} {p' : ω'} (hl : J.left c = some a)
    (hr : J.right c = some a') (hstep : M.step s.1 a = some (u, p))
    (hstep' : N.step s.2 a' = some (u', p'))
    (hagree : J.agree c s.1 s.2 (some p) (some p') = true) :
    (sync M N J).step s c = some ((u, u'), (some p, some p')) := by
  refine sync_step_iff.mpr ⟨?_, ?_, hagree⟩
  · rw [hl, stepOr, hstep]
    rfl
  · rw [hr, stepOr, hstep']
    rfl

/-- **The left part of a joint run is a run.** -/
theorem Run.left {tr : List (JointEvent σ σ' γ ω ω')} (h : (sync M N J).Run s tr t) :
    M.Run s.1 (J.leftOf tr) t.1 := by
  induction h with
  | nil => exact .nil
  | snoc _ hs ih =>
    obtain ⟨hl, -, -⟩ := sync_step_iff.mp hs
    rw [J.leftOf_snoc]
    rcases stepOr_cases hl with ⟨ha, -, ht⟩ | ⟨b, p, ha, ho, hstep⟩
    · rw [ht, Joint.leftEvent, ha, List.append_nil]
      exact ih
    · simp only [Joint.leftEvent, ha, ho]
      exact ih.snoc hstep

/-- **The right part of a joint run is a run.** -/
theorem Run.right {tr : List (JointEvent σ σ' γ ω ω')} (h : (sync M N J).Run s tr t) :
    N.Run s.2 (J.rightOf tr) t.2 := by
  induction h with
  | nil => exact .nil
  | snoc _ hs ih =>
    obtain ⟨-, hr, -⟩ := sync_step_iff.mp hs
    rw [J.rightOf_snoc]
    rcases stepOr_cases hr with ⟨ha, -, ht⟩ | ⟨b, p, ha, ho, hstep⟩
    · rw [ht, Joint.rightEvent, ha, List.append_nil]
      exact ih
    · simp only [Joint.rightEvent, ha, ho]
      exact ih.snoc hstep

end Machine

end ObfsWs
