import ObfsWs.Wsocks.Served

/-!
# Sessions that outlive their deadline

A session releases its mux when its manager has declared it dead and its accept loop has returned.
The accept loop returns when `accept_conn` fails, or when it is the first of all tasks of the
session to check the deadline. When a forwarder checks first, the accept loop does not hear of the
deadline any more, the mux stays alive, and all later pipes of its client are attached to it.

The session of a mux is part of the server: its steps in a run of the server are a run of the
session by itself.

## The two directions

`dead_iff_of_run` is an equivalence at every moment of every run, so it also says what keeps a mux
alive: a reference in the hand of the server's loop, a manager that has not yet declared the
session dead, or an accept loop that has neither failed nor been the first to check. `outlives`
takes the last of these and looks at all continuations. A forwarder that checks first is enough,
and nothing that happens later undoes it, short of an error of `accept_conn`: later pipes of the
same client keep finding the entry of a session that should be gone, and are attached to it.

## Main definitions

* `Wpl.sessionTrace` — the steps of the session of a mux

## Main results

* `Wpl.session_of_run` — they are a run
* `Wpl.dead_iff_of_run` — when the mux of a session is released
* `Wpl.outlives` — a session whose deadline was taken by a forwarder

## Implementation notes

A step of the server that is a step of one session is cut out of the run by `sessionTrace`. The
theorems on sessions of `Deadline` then hold of it as they stand.
-/

namespace ObfsWs

namespace Session

variable {s s' : Session} {tr : Trace}

/-! ### When the accept loop has returned

For a session by itself. The accept loop returns on its own check or on a failure of
`accept_conn`, and its own check makes it return only if it is the first after the declaration. -/

/-- A step from which the accept loop does not go on: it observes the deadline, or `accept_conn`
fails. -/
theorem act_of_returned {a : SessionAct} {o : SessionOut} (h : machine.step s a = some (s', o))
    (hs : s.acceptLoop ≠ .returned) (hret : s'.acceptLoop = .returned) :
    a = .acceptFail ∨ o = .checked .acceptLoop true := by
  have hframe := frame_of_step h
  replace h : s.step a = some (s', o) := h
  cases a with
  | acceptFail => exact .inl rfl
  | check =>
    simp only [step] at h
    split at h
    · obtain ⟨rfl, rfl⟩ := Machine.next_inj h
      cases hr : s.tryDeadline.1 with
      | true => exact .inr rfl
      | false => simp [hr] at hret
    · cases h
  | idle | accept =>
    simp only [step] at h
    split at h
    · obtain ⟨rfl, -⟩ := Machine.next_inj h
      cases hret
    · cases h
  | declare | forward | forwardStart | handlerEnd =>
    rw [hframe.acceptLoop (by simp) (by simp) (by simp) (by simp)] at hret
    exact absurd hret hs

theorem any_declares_of_head? {who : Checker} (h : (lateCheckers tr).head? = some who) :
    tr.any declares = true := by
  refine any_declares_of_lateCheckers fun hnil => ?_
  rw [hnil] at h
  cases h

/-- Who checks first after the declaration stays the first one. -/
theorem head?_lateCheckers_append {who : Checker} (h : (lateCheckers tr).head? = some who)
    (tr' : Trace) : (lateCheckers (tr ++ tr')).head? = some who := by
  rw [lateCheckers_append (any_declares_of_head? h), List.head?_append, h, Option.some_or]

/-- **When the accept loop has returned**: when `accept_conn` has failed, or when the first check
after the declaration was its own. -/
theorem returned_iff_of_run (h : machine.Run new tr s) : s.acceptLoop = .returned ↔
    (∃ e ∈ tr, e.act = .acceptFail) ∨ (lateCheckers tr).head? = some .acceptLoop := by
  constructor
  · refine h.induct (fun tr s => s.acceptLoop = .returned →
      (∃ e ∈ tr, e.act = .acceptFail) ∨ (lateCheckers tr).head? = some .acceptLoop)
      (fun hret => by cases hret) ?_
    intro tr s a s' o hr ih hs hret
    by_cases hold : s.acceptLoop = .returned
    · rcases ih hold with ⟨e, he, hact⟩ | hhead
      · exact .inl ⟨e, List.mem_append_left _ he, hact⟩
      · exact .inr (head?_lateCheckers_append hhead _)
    · rcases act_of_returned hs hold hret with rfl | rfl
      · exact .inl ⟨_, List.mem_append_right _ (List.mem_singleton_self _), rfl⟩
      · -- the value is there, so nobody has checked since the declaration
        cases rule_of_step hs with
        | observed hq _ _ =>
          cases late_of_run hr with
          | before _ hempty | taken _ _ _ _ _ _ hempty =>
            rw [hempty] at hq
            cases hq
          | sent hd _ hnone _ =>
            right
            rw [lateCheckers, lateChecks_snoc hd, hnone]
            rfl
  · rintro (⟨e, he, hact⟩ | hhead)
    · obtain ⟨tr₁, tr₂, rfl⟩ := List.append_of_mem he
      obtain ⟨hstep, hrest⟩ := h.after
      refine returned_of_run hrest ?_
      rw [hact] at hstep
      replace hstep : e.pre.step .acceptFail = some (e.post, e.out) := hstep
      simp only [step] at hstep
      split at hstep
      · obtain ⟨hpost, -⟩ := Machine.next_inj hstep
        rw [← hpost]
      · cases hstep
    · rcases lateChecks_of_run h with hnone | ⟨who, rest, hlate, -⟩
      · rw [lateCheckers, hnone] at hhead
        cases hhead
      · rw [lateCheckers, hlate] at hhead
        obtain rfl : who = .acceptLoop := Option.some.inj hhead
        -- the check that observed the deadline
        have hmem : (Checker.acceptLoop, true) ∈ lateChecks tr := hlate ▸ List.mem_cons_self
        obtain ⟨e, he, hcheck⟩ := List.mem_flatMap.mp hmem
        obtain ⟨tr₁, tr₂, rfl⟩ := List.append_of_mem ((List.dropWhile_suffix _).subset he)
        rw [checksOf] at hcheck
        split at hcheck
        · obtain ⟨rfl, hboth⟩ := Prod.mk.inj (List.mem_singleton.mp hcheck)
          have hended := (Bool.and_eq_true_iff.mp hboth.symm).2
          exact returned_of_run h.after.2 (of_decide_eq_true hended)
        · cases hcheck

/-- The manager watches until it declares the session dead. -/
theorem watch_iff_of_run (h : machine.Run new tr s) :
    s.manager = .watch ↔ ∀ e ∈ tr, e.act ≠ .declare := by
  refine h.induct (fun tr s => s.manager = .watch ↔ ∀ e ∈ tr, e.act ≠ .declare) (by simp [new]) ?_
  intro tr s a s' o _ ih hs
  have hsnoc : (∀ e ∈ tr ++ [⟨s, a, o, s'⟩], e.act ≠ .declare) ↔
      (∀ e ∈ tr, e.act ≠ .declare) ∧ a ≠ .declare := by
    simp [or_imp, forall_and]
  rw [hsnoc, ← ih]
  have hframe := frame_of_step hs
  replace hs : s.step a = some (s', o) := hs
  cases a with
  | declare =>
    simp only [step] at hs
    split at hs
    · split at hs
      · obtain ⟨rfl, rfl⟩ := Machine.next_inj hs
        simp
      · obtain ⟨rfl, rfl⟩ := Machine.next_inj hs
        simp
      · cases hs
    · cases hs
  | _ =>
    rw [hframe.manager (by simp)]
    simp

end Session

namespace Wpl

variable {lib : Primitives} {pk : MuxPublic} {s s' : Wpl} {a : WplAct} {o : WplOut} {tr : Trace}

/-! ### The session of a mux

The server creates a session with its mux, and afterwards only lets it take its steps. So what the
session has done in a run of the server, cut out of it, is a run of a session from its start. -/

/-- What the session of a mux does in a step of the server. -/
def sessionEvents (m : ℕ) (e : Event Wpl WplAct WplOut) : Session.Trace :=
  match e.act with
  | .session m' a =>
    if m' = m then
      match e.pre.muxes[m]? with
      | some x =>
        match x.session.step a with
        | some (session, o) => [⟨x.session, a, o, session⟩]
        | none => []
      | none => []
    else []
  | _ => []

/-- The steps of the session of a mux. -/
def sessionTrace (m : ℕ) (tr : Trace) : Session.Trace := tr.flatMap (sessionEvents m)

theorem sessionTrace_append (m : ℕ) (tr tr' : Trace) :
    sessionTrace m (tr ++ tr') = sessionTrace m tr ++ sessionTrace m tr' :=
  List.flatMap_append

theorem sessionTrace_snoc (m : ℕ) (tr : Trace) (e : Event Wpl WplAct WplOut) :
    sessionTrace m (tr ++ [e]) = sessionTrace m tr ++ sessionEvents m e := by
  rw [sessionTrace_append]
  exact congrArg _ (List.flatMap_singleton ..)

/-- A step of the session is one of the server. -/
theorem exists_of_mem_sessionTrace {m : ℕ} {f : Event Session SessionAct SessionOut}
    (h : f ∈ sessionTrace m tr) : ∃ e ∈ tr, e.act = .session m f.act := by
  obtain ⟨e, he, hf⟩ := List.mem_flatMap.mp h
  refine ⟨e, he, ?_⟩
  rw [sessionEvents] at hf
  split at hf
  · rename_i hact
    split at hf
    · rename_i hm
      subst hm
      split at hf
      · split at hf
        · obtain rfl := List.mem_singleton.mp hf
          exact hact
        · cases hf
      · cases hf
    · cases hf
  · cases hf

/-- Only its own steps change the session of a mux, which begins with it. -/
theorem Rule.session_eq (h : Rule lib pk s a o s') {m : ℕ} {x' : Mux}
    (hx' : s'.muxes[m]? = some x') (ha : ∀ b, a ≠ .session m b) :
    (∃ x, s.muxes[m]? = some x ∧ x'.session = x.session) ∨
      (s.muxes[m]? = none ∧ x'.session = .new) := by
  have hset {i : ℕ} {y y' : Mux} {pc : WplPc} (hx' : (s.setMux i y' pc).muxes[m]? = some x')
      (hy : s.muxes[i]? = some y) (hsame : i = m → y'.session = y.session) :
      ∃ x, s.muxes[m]? = some x ∧ x'.session = x.session := by
    by_cases him : i = m
    · subst him
      have hlt := (List.getElem?_eq_some_iff.mp hy).1
      obtain rfl := Option.some.inj ((List.getElem?_set_self hlt).symm.trans hx')
      exact ⟨y, hy, hsame rfl⟩
    · exact ⟨x', (List.getElem?_set_ne him).symm.trans hx', rfl⟩
  cases h with
  | visit | pruned | accepted | stopped | found | dropped => exact .inl ⟨x', hx', rfl⟩
  | created =>
    rcases Nat.lt_or_ge m s.muxes.length with hlt | hge
    · rw [List.getElem?_append_left hlt] at hx'
      exact .inl ⟨x', hx', rfl⟩
    · rw [List.getElem?_append_right hge, List.getElem?_singleton] at hx'
      split at hx'
      · obtain rfl := Option.some.inj hx'
        exact .inr ⟨List.getElem?_eq_none hge, rfl⟩
      · cases hx'
  | released _ hy | upgraded _ hy _ | attached _ hy => exact .inl (hset hx' hy fun _ => rfl)
  | @session i b y session _ hy _ =>
    exact .inl (hset hx' hy fun him => absurd (him ▸ rfl) (ha b))

/-- **The session of a mux runs by itself.** -/
theorem session_of_run (h : (machine lib pk).Run new tr s) {m : ℕ} {x : Mux}
    (hx : s.muxes[m]? = some x) : Session.machine.Run .new (sessionTrace m tr) x.session := by
  refine (h.induct (fun tr s => ∀ m, (s.muxes[m]? = none → sessionTrace m tr = []) ∧
    ∀ x, s.muxes[m]? = some x → Session.machine.Run .new (sessionTrace m tr) x.session)
    (fun m => ⟨fun _ => rfl, fun x hx => by cases hx⟩) ?_ m).2 x hx
  intro tr s a s' o _ ih hs m
  have hrule := rule_of_step hs
  rw [sessionTrace_snoc]
  by_cases ha : ∃ b, a = .session m b
  · obtain ⟨b, rfl⟩ := ha
    cases hrule with
    | @session _ _ x session p hx hstep =>
      have hlt := (List.getElem?_eq_some_iff.mp hx).1
      have hnew : (s.setMux m { x with session } s.pc).muxes[m]? = some { x with session } :=
        List.getElem?_set_self hlt
      refine ⟨fun hnone => ?_, fun x' hx' => ?_⟩
      · rw [hnew] at hnone
        cases hnone
      · obtain rfl := Option.some.inj (hnew.symm.trans hx')
        have hevents : sessionEvents m ⟨s, .session m b, .tau, s.setMux m { x with session } s.pc⟩ =
            [⟨x.session, b, p, session⟩] := by
          simp only [sessionEvents, if_true, hx, hstep]
        rw [hevents]
        exact ((ih m).2 x hx).snoc hstep
  · have hquiet : sessionEvents m ⟨s, a, o, s'⟩ = [] := by
      cases a with
      | session m' b =>
        refine if_neg ?_
        rintro rfl
        exact ha ⟨b, rfl⟩
      | _ => rfl
    rw [hquiet, List.append_nil]
    refine ⟨fun hnone => (ih m).1 ?_, fun x' hx' => ?_⟩
    · rw [List.getElem?_eq_none_iff] at hnone ⊢
      exact hrule.length_le.trans hnone
    · rcases hrule.session_eq hx' fun b hb => ha ⟨b, hb⟩ with ⟨x, hx, hsame⟩ | ⟨hnone, hsame⟩
      · rw [hsame]
        exact (ih m).2 x hx
      · rw [hsame, (ih m).1 hnone]
        exact .nil

/-! ### When a mux is released -/

/-- **When a mux is released**: when the loop does not hold it, the manager has declared its session
dead, and its accept loop has heard of it first, or `accept_conn` has failed. -/
theorem dead_iff_of_run (h : (machine lib pk).Run new tr s) {m : ℕ} {x : Mux}
    (hx : s.muxes[m]? = some x) : s.alive m = false ↔
      x.creator = false ∧ x.upgraded = false ∧
      (∃ e ∈ sessionTrace m tr, e.act = .declare) ∧
      ((∃ e ∈ sessionTrace m tr, e.act = .acceptFail) ∨
        (Session.lateCheckers (sessionTrace m tr)).head? = some .acceptLoop) := by
  have hrun := session_of_run h hx
  have hman : (∃ e ∈ sessionTrace m tr, e.act = .declare) ↔ x.session.manager ≠ .watch := by
    rw [Ne, Session.watch_iff_of_run hrun]
    simp
  rw [hman, ← Session.returned_iff_of_run hrun, alive_of_getElem? hx, decide_eq_false_iff_not,
    Mux.strongCount, Session.refs]
  cases x.creator <;> cases x.upgraded <;> simp [and_comm]

/-- The accept loop checks first. -/
theorem dead_iff_of_run_heard :
    ∃ tr s, (machine .null .zero).Run new tr s ∧
      tr.map Event.act = [.pruned, .accept (.zero 0), .entry, .created, .upgrade, .addPipe,
        .session 0 .declare, .session 0 .check] ∧
      (Session.lateCheckers (sessionTrace 0 tr)).head? = some .acceptLoop ∧ s.alive 0 = false := by
  obtain ⟨tr, s, hrun, hacts, hlate, hheld, hdeclared⟩ :=
    Machine.exists_run_of_exec (machine .null .zero) new
      [.pruned, .accept (.zero 0), .entry, .created, .upgrade, .addPipe, .session 0 .declare,
        .session 0 .check]
      (P := fun tr s => (Session.lateCheckers (sessionTrace 0 tr)).head? = some .acceptLoop ∧
        s.muxes.map (fun x => (x.creator, x.upgraded)) = [(false, false)] ∧
        (sessionTrace 0 tr).any Session.declares = true) (by decide)
  have hget : s.muxes[0]?.map (fun x => (x.creator, x.upgraded)) = some (false, false) := by
    rw [← List.getElem?_map, hheld]
    rfl
  obtain ⟨x, hx, hxheld⟩ := Option.map_eq_some_iff.mp hget
  obtain ⟨hcreator, hupgraded⟩ := Prod.mk.inj hxheld
  have hdeclare : ∃ e ∈ sessionTrace 0 tr, e.act = .declare := by
    by_contra hno
    have hwatch := (Session.watch_iff_of_run (session_of_run hrun hx)).mpr fun e he hact =>
      hno ⟨e, he, hact⟩
    cases Session.late_of_run (session_of_run hrun hx) with
    | before hnone => exact absurd hdeclared (by simp [hnone])
    | sent _ hman | taken _ _ _ hman => exact hman hwatch
  exact ⟨tr, s, hrun, hacts, hlate,
    (dead_iff_of_run hrun hx).mpr ⟨hcreator, hupgraded, hdeclare, .inr hlate⟩⟩

/-- What does not change with a mux. -/
theorem hashOf_of_step (h : Rule lib pk s a o s') {m : ℕ} {hash : UInt64}
    (hm : s.hashOf m = some hash) : s'.hashOf m = some hash := by
  cases h with
  | visit | pruned | accepted | stopped | found | dropped => exact hm
  | created =>
    rw [hashOf_created]
    · exact hm
    · rintro rfl
      rw [hashOf, List.getElem?_eq_none le_rfl] at hm
      cases hm
  | released _ hx | upgraded _ hx _ | attached _ hx | session hx _ =>
    exact Eq.trans (hashOf_setMux hx (by rfl) m) hm

theorem hashOf_of_run (h : (machine lib pk).Run s tr s') {m : ℕ} {hash : UInt64}
    (hm : s.hashOf m = some hash) : s'.hashOf m = some hash :=
  h.invariant (fun t => t.hashOf m = some hash) hm fun _ _ _ _ ht hs =>
    hashOf_of_step (rule_of_step hs) ht

/-- `accept_conn` fails in some session. -/
def isAcceptFail : WplAct → Bool
  | .session _ .acceptFail => true
  | _ => false

/-- A session whose deadline was taken by a forwarder, as long as `accept_conn` works. -/
theorem alive_of_taken (h : (machine lib pk).Run new tr s) {m : ℕ} {who : Checker}
    (hlate : (Session.lateCheckers (sessionTrace m tr)).head? = some who)
    (hwho : who ≠ .acceptLoop) (hfail : ∀ e ∈ tr, e.act ≠ .session m .acceptFail)
    {hash : UInt64} (hm : s.hashOf m = some hash) : s.alive m = true := by
  obtain ⟨x, hx, -⟩ := Option.map_eq_some_iff.mp hm
  by_contra hdead
  obtain ⟨-, -, -, hend⟩ := (dead_iff_of_run h hx).mp (Bool.eq_false_iff.mpr hdead)
  rcases hend with ⟨f, hf, hact⟩ | hhead
  · obtain ⟨e, he, heact⟩ := exists_of_mem_sessionTrace hf
    rw [hact] at heact
    exact hfail e he heact
  · exact hwho (Option.some.inj (hlate.symm.trans hhead))

/-- **A session that outlives its deadline.** Once a forwarder has taken the deadline of a session,
then in every continuation in which `accept_conn` does not fail: its mux is never released, the map
keeps it, every pipe of its hash that is attached is attached to it, and none is dropped. -/
theorem outlives (h : (machine lib pk).Run new tr s) {m : ℕ} {hash : UInt64} {who : Checker}
    (hm : s.hashOf m = some hash)
    (hlate : (Session.lateCheckers (sessionTrace m tr)).head? = some who)
    (hwho : who ≠ .acceptLoop) {tr' : Trace} {t : Wpl} (h' : (machine lib pk).Run s tr' t)
    (hfail : ∀ e ∈ tr ++ tr', e.act ≠ .session m .acceptFail) :
    t.alive m = true ∧ t.muxSessions.lookup hash = some m ∧
      ∀ e ∈ tr', ∀ pipe, Etag.fromKey lib pk pipe.peerMetadata = some (.ok hash) →
        e.out ≠ .dropped pipe ∧ ∀ m', e.out = .attached pipe m' → m' = m := by
  -- at every moment of the continuation the mux is alive and registered
  have hlive : ∀ {tr₁ t₁}, (machine lib pk).Run s tr₁ t₁ → tr₁ ⊆ tr' →
      t₁.alive m = true ∧ t₁.muxSessions.lookup hash = some m := by
    intro tr₁ t₁ h₁ hsub
    have hrun := h.append h₁
    have hkey := hashOf_of_run h₁ hm
    have hhead := Session.head?_lateCheckers_append hlate (sessionTrace m tr₁)
    rw [← sessionTrace_append] at hhead
    have hal : t₁.alive m = true := by
      refine alive_of_taken hrun hhead hwho (fun e he => hfail e ?_) hkey
      rcases List.mem_append.mp he with he | he
      · exact List.mem_append_left _ he
      · exact List.mem_append_right _ (hsub he)
    exact ⟨hal, (inv_of_run hrun).tracks.registered m hash hal hkey⟩
  obtain ⟨hal, hlookup⟩ := hlive h' (List.Subset.refl _)
  refine ⟨hal, hlookup, ?_⟩
  rintro ⟨pre, act, out, post⟩ he pipe hpipe
  obtain ⟨tr₁, tr₂, rfl⟩ := List.append_of_mem he
  have hi : Inv lib pk pre := inv_of_run (h.append h'.before)
  have hrule : Rule lib pk pre act out post := rule_of_step h'.after.1
  obtain ⟨hpre, hpreLookup⟩ : pre.alive m = true ∧ pre.muxSessions.lookup hash = some m :=
    hlive h'.before (List.subset_append_left _ _)
  constructor
  · rintro rfl
    cases hrule with
    | dropped hpc hdead =>
      have hknows := hi.knows
      rw [hpc] at hknows
      obtain rfl := Except.ok.inj (Option.some.inj (hknows.1.symm.trans hpipe))
      obtain rfl := Option.some.inj (hknows.2.symm.trans hpreLookup)
      rw [hpre] at hdead
      cases hdead
  · rintro m' rfl
    obtain ⟨hash', hhash', -, hlookup'⟩ := hrule.toLive hi
    obtain rfl := Except.ok.inj (Option.some.inj (hhash'.symm.trans hpipe))
    exact Option.some.inj (hlookup'.symm.trans hpreLookup)

/-- A forwarder checks before the accept loop does, and the client comes again. -/
theorem outlives_taken :
    ∃ tr tr' t, (machine .null .zero).Run new (tr ++ tr') t ∧
      (Session.lateCheckers (sessionTrace 0 tr)).head? = some (.up 0) ∧
      attachedPipes tr' = [.zero 1] ∧ t.alive 0 = true ∧ t.muxes.length = 1 := by
  obtain ⟨tr, s, tr', t, hrun, hrun', hlate, hhash, hone, hatt, hlength⟩ :=
    Machine.exists_runs_of_exec (machine .null .zero) new
      [.pruned, .accept (.zero 0), .entry, .created, .upgrade, .addPipe, .session 0 .check,
        .session 0 .accept, .session 0 (.forwardStart 0 7), .session 0 .declare,
        .session 0 (.forward 0 (.upCheck true) false [])]
      [.session 0 .check, .session 0 .idle, .visit 0, .pruned, .accept (.zero 1), .entry, .upgrade,
        .addPipe]
      (P := fun tr s tr' t => (Session.lateCheckers (sessionTrace 0 tr)).head? = some (.up 0) ∧
        s.hashOf 0 = some 0 ∧ (∀ e ∈ tr ++ tr', isAcceptFail e.act = false) ∧
        attachedPipes tr' = [.zero 1] ∧ t.muxes.length = 1) (by decide)
  have hfail : ∀ e ∈ tr ++ tr', e.act ≠ .session 0 .acceptFail := by
    intro e he hact
    have := hone e he
    rw [hact] at this
    cases this
  exact ⟨tr, tr', t, hrun.append hrun', hlate, hatt,
    (outlives hrun hhash hlate (by decide) hrun' hfail).1, hlength⟩

end Wpl

end ObfsWs
