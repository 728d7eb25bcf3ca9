import ObfsWs.Wsocks.MuxSessions

/-!
# Are accepted pipes served?

Each pipe that `accept_pipe` returns should be added to the live mux of its hash. The loop looks
the mux up in a map of weak references, and that entry may be stale: `retain` has seen the mux
alive, and its session has expired while the loop waited for the pipe. Then `upgrade` fails and the
pipe is dropped, although the log says that it was accepted. This is the only way to lose a pipe.

## When an entry goes stale

Three things happen to an entry: it is visited by `retain`, it is looked up, and its mux dies. The
first two are steps of the loop, in this order; the third is a step of the session. If the mux
dies after the visit and before the lookup, the pipe that was accepted is dropped, and so is every
pipe that the client sends in such a gap. If it dies before the visit, the entry is removed, and a
new session is made.

The condition of `served_iff` is about the run before a lookup and not about the map: the mux has
expired since the last visit of its entry. `expired_iff_of_run` is the bridge between the two.

## Main definitions

* `Wpl.Served` — accepted pipes are attached or in the loop's hand
* `Wpl.expired` — the muxes that have expired since `retain` last visited their entry
* `Wpl.OnTime` — a pipe is not looked up in such an entry

## Main results

* `Wpl.expired_iff_of_run` — the stale entries of the map are those of the muxes that have expired
* `Wpl.served_iff` — every accepted pipe is served exactly when every lookup is on time

## What is left open

That a pipe that was added is any good. It may be closed in the same moment, and the mux will find
out when it uses it.
-/

namespace ObfsWs

namespace Wpl

variable {lib : Primitives} {pk : MuxPublic} {s s' : Wpl} {a : WplAct} {o : WplOut} {tr : Trace}

/-! ### Accepted and attached pipes -/

/-- The pipe that `accept_pipe` has returned in a step. -/
def acceptedOf : WplOut → List WsPipe
  | .accepted pipe => [pipe]
  | _ => []

/-- The pipe that was added to a mux in a step. -/
def attachedOf : WplOut → List WsPipe
  | .attached pipe _ => [pipe]
  | _ => []

/-- The pipes that `accept_pipe` has returned. -/
def acceptedPipes (tr : Trace) : List WsPipe := tr.flatMap fun e => acceptedOf e.out

/-- The pipes that were added to a mux. -/
def attachedPipes (tr : Trace) : List WsPipe := tr.flatMap fun e => attachedOf e.out

theorem acceptedPipes_snoc (tr : Trace) (e : Event Wpl WplAct WplOut) :
    acceptedPipes (tr ++ [e]) = acceptedPipes tr ++ acceptedOf e.out := by
  rw [acceptedPipes, List.flatMap_append, List.flatMap_singleton, acceptedPipes]

theorem attachedPipes_snoc (tr : Trace) (e : Event Wpl WplAct WplOut) :
    attachedPipes (tr ++ [e]) = attachedPipes tr ++ attachedOf e.out := by
  rw [attachedPipes, List.flatMap_append, List.flatMap_singleton, attachedPipes]

/-- The loop's own steps with a pipe in hand. -/
def serving : List WplAct := [.entry, .created, .upgrade, .addPipe]

/-- No accepted pipe is dropped. -/
structure Served (lib : Primitives) (pk : MuxPublic) (tr : Trace) (s : Wpl) : Prop where
  /-- An accepted pipe is attached, or in the loop's hand. -/
  account : acceptedPipes tr = attachedPipes tr ++ s.pc.inHand
  /-- With a pipe in hand the loop can go on. -/
  moves : s.pc.inHand ≠ [] →
    ∃ a ∈ serving, ((machine lib pk).step s a).isSome = true
  /-- It is attached to the live mux that is registered under its hash. -/
  live : ∀ e ∈ tr, ∀ pipe m, e.out = .attached pipe m →
    ∃ hash, Etag.fromKey lib pk pipe.peerMetadata = some (.ok hash) ∧ e.pre.alive m = true ∧
      e.pre.muxSessions.lookup hash = some m

/-- What is registered is there. -/
theorem Inv.exists_getElem? (hi : Inv lib pk s) {hash : UInt64} {m : ℕ}
    (h : s.muxSessions.lookup hash = some m) : ∃ x, s.muxes[m]? = some x := by
  obtain ⟨x, hx, -⟩ := Option.map_eq_some_iff.mp (hi.tracks.keyed hash m h)
  exact ⟨x, hx⟩

/-- With a pipe in hand the loop can go on. -/
theorem Inv.moves (hi : Inv lib pk s) (h : s.pc.inHand ≠ []) :
    ∃ a ∈ serving, ((machine lib pk).step s a).isSome = true := by
  have hknows := hi.knows
  cases hpc : s.pc with
  | entry pipe hash =>
    refine ⟨.entry, by simp [serving], ?_⟩
    show (Wpl.step lib pk s .entry).isSome = true
    simp only [Wpl.step, hpc]
    split
    · rfl
    · rfl
  | created pipe hash m =>
    rw [hpc] at hknows
    obtain ⟨x, hx⟩ := hi.exists_getElem? hknows.2
    refine ⟨.created, by simp [serving], ?_⟩
    show (Wpl.step lib pk s .created).isSome = true
    simp only [Wpl.step, hpc, hx]
    rfl
  | upgrade pipe hash m =>
    rw [hpc] at hknows
    obtain ⟨x, hx⟩ := hi.exists_getElem? hknows.2
    refine ⟨.upgrade, by simp [serving], ?_⟩
    show (Wpl.step lib pk s .upgrade).isSome = true
    simp only [Wpl.step, hpc, hx]
    split
    · rfl
    · rfl
  | addPipe pipe hash m =>
    rw [hpc] at hknows
    obtain ⟨x, hx⟩ := hi.exists_getElem? hknows.2.1
    refine ⟨.addPipe, by simp [serving], ?_⟩
    show (Wpl.step lib pk s .addPipe).isSome = true
    simp only [Wpl.step, hpc, hx]
    rfl
  | retain | accept | returned | panicked =>
    rw [hpc] at h
    exact absurd rfl h

/-! ### Expired sessions

A mux has expired when it has died and its entry has not been visited since. The definition reads
the run from its end, and the invariant says that the entries with dead muxes are exactly these. -/

/-- The mux dies in this step. -/
def expires (e : Event Wpl WplAct WplOut) (m : ℕ) : Bool := e.pre.alive m && !e.post.alive m

/-- `retain` visits the entry of the mux's hash in this step. -/
def visits (e : Event Wpl WplAct WplOut) (m : ℕ) : Bool :=
  match e.act with
  | .visit hash => e.pre.hashOf m == some hash
  | _ => false

/-- The mux has expired since `retain` last visited the entry of its hash. -/
def expired (tr : Trace) (m : ℕ) : Bool :=
  tr.foldl (fun d e => if visits e m then false else d || expires e m) false

theorem expired_snoc (tr : Trace) (e : Event Wpl WplAct WplOut) (m : ℕ) :
    expired (tr ++ [e]) m = if visits e m then false else expired tr m || expires e m := by
  rw [expired, List.foldl_append, expired]
  rfl

/-- A mux that is not alive does not come alive again. -/
theorem Rule.alive_of_alive (h : Rule lib pk s a o s') {m : ℕ} (hlt : m < s.muxes.length)
    (hm : s'.alive m = true) : s.alive m = true := by
  cases h with
  | visit | pruned | accepted | stopped | found | dropped => exact hm
  | created => rwa [alive_created (Nat.ne_of_lt hlt)] at hm
  | released _ hx => exact alive_setMux hx pos_of_released hm
  | upgraded _ hx hpos => exact alive_setMux hx (fun _ => hpos) hm
  | attached _ hx => exact alive_setMux hx pos_of_attached hm
  | session hx hstep => exact alive_setMux hx (pos_of_session hstep) hm

theorem Rule.length_le (h : Rule lib pk s a o s') : s.muxes.length ≤ s'.muxes.length := by
  cases h with
  | visit | pruned | accepted | stopped | found | dropped => exact le_rfl
  | created =>
    rw [List.length_append]
    exact Nat.le_add_right _ _
  | released | upgraded | attached | session => exact (List.length_set ..).ge

theorem lt_of_alive {m : ℕ} (h : s.alive m = true) : m < s.muxes.length := by
  rw [alive] at h
  rcases Nat.lt_or_ge m s.muxes.length with hlt | hge
  · exact hlt
  · rw [List.getElem?_eq_none hge] at h
    cases h

/-- **What has expired is dead.** -/
theorem dead_of_expired (h : (machine lib pk).Run new tr s) (m : ℕ) (hm : expired tr m = true) :
    m < s.muxes.length ∧ s.alive m = false := by
  revert m
  refine h.induct (fun tr s => ∀ m, expired tr m = true → m < s.muxes.length ∧ s.alive m = false)
    (fun m hm => by cases hm) ?_
  intro tr s a s' o hr ih hs m hm
  have hrule := rule_of_step hs
  rw [expired_snoc] at hm
  split at hm
  · cases hm
  · rcases Bool.or_eq_true_iff.mp hm with hd | hd
    · obtain ⟨hlt, hdead⟩ := ih m hd
      refine ⟨hlt.trans_le hrule.length_le, Bool.eq_false_iff.mpr fun hlive => ?_⟩
      rw [hrule.alive_of_alive hlt hlive] at hdead
      cases hdead
    · obtain ⟨hlive, hdead⟩ := Bool.and_eq_true_iff.mp hd
      refine ⟨(lt_of_alive hlive).trans_le hrule.length_le, ?_⟩
      rwa [Bool.not_eq_true'] at hdead

/-- A dead mux that is registered was registered before the step. -/
theorem Rule.lookup_of_dead (h : Rule lib pk s a o s') {hash : UInt64} {m : ℕ}
    (hm : s'.muxSessions.lookup hash = some m) (hdead : s'.alive m = false) :
    s.muxSessions.lookup hash = some m := by
  cases h with
  | @visit todo hash' =>
    by_cases hh : hash = hash'
    · subst hh
      exact (WeakMap.lookup_visit_eq_some.mp hm).1
    · rwa [WeakMap.lookup_visit_ne hh] at hm
  | @created pipe hash' =>
    by_cases hh : hash = hash'
    · subst hh
      rw [AList.lookup_insert] at hm
      obtain rfl := Option.some.inj hm
      -- the new mux is alive
      rw [alive, List.getElem?_append_right le_rfl, Nat.sub_self] at hdead
      cases hdead
    · rwa [AList.lookup_insert_ne hh] at hm
  | pruned | accepted | stopped | found | released | upgraded | dropped | attached | session =>
    exact hm

/-- `retain` leaves no dead mux behind in the entry that it visits. -/
theorem Rule.not_visits_of_dead (h : Rule lib pk s a o s') (hi : Inv lib pk s) {hash : UInt64}
    {m : ℕ} (hm : s'.muxSessions.lookup hash = some m) (hdead : s'.alive m = false) :
    visits ⟨s, a, o, s'⟩ m = false := by
  have hkey := hi.tracks.keyed hash m (h.lookup_of_dead hm hdead)
  cases h with
  | @visit todo hash' =>
    refine Bool.eq_false_iff.mpr fun hv => ?_
    have hv : s.hashOf m = some hash' := beq_iff_eq.mp hv
    obtain rfl := Option.some.inj (hkey.symm.trans hv)
    have hlive : s.alive m = true := (WeakMap.lookup_visit_eq_some.mp hm).2
    have hdead : s.alive m = false := hdead
    rw [hlive] at hdead
    cases hdead
  | pruned | accepted | stopped | found | created | released | upgraded | dropped | attached
    | session => rfl

/-- **A stale entry is that of a mux that has expired.** -/
theorem expired_of_dead (h : (machine lib pk).Run new tr s) (hash : UInt64) (m : ℕ)
    (hm : s.muxSessions.lookup hash = some m) (hdead : s.alive m = false) :
    expired tr m = true := by
  revert hash m
  refine h.induct (fun tr s => ∀ hash m, s.muxSessions.lookup hash = some m →
    s.alive m = false → expired tr m = true) (fun hash m hm => by cases hm) ?_
  intro tr s a s' o hr ih hs hash m hm hdead
  have hrule := rule_of_step hs
  rw [expired_snoc, hrule.not_visits_of_dead (inv_of_run hr) hm hdead]
  by_cases hlive : s.alive m = true
  · simp [expires, hlive, hdead]
  · have hd := ih hash m (hrule.lookup_of_dead hm hdead) (Bool.eq_false_iff.mpr hlive)
    simp [hd]

/-- For the muxes in the map, having expired is being dead. -/
theorem expired_iff_of_run (h : (machine lib pk).Run new tr s) {hash : UInt64} {m : ℕ}
    (hm : s.muxSessions.lookup hash = some m) : expired tr m = true ↔ s.alive m = false :=
  ⟨fun he => (dead_of_expired h m he).2, expired_of_dead h hash m hm⟩

/-! ### When every pipe is served -/

/-- The mux whose weak reference the loop is about to upgrade. -/
def lookedUp : WplPc → Option ℕ
  | .upgrade _ _ m => some m
  | _ => none

/-- The pipe in hand is not looked up in an entry whose mux has expired since `retain` visited
it. -/
def OnTime (tr : Trace) (e : Event Wpl WplAct WplOut) : Prop :=
  ∀ m, e.act = .upgrade → lookedUp e.pre.pc = some m → expired tr m = false

/-- The books after a step, unless it drops a pipe. -/
theorem Rule.account (h : Rule lib pk s a o s')
    (hacc : acceptedPipes tr = attachedPipes tr ++ s.pc.inHand) (ho : ∀ pipe, o ≠ .dropped pipe) :
    acceptedPipes (tr ++ [⟨s, a, o, s'⟩]) =
      attachedPipes (tr ++ [⟨s, a, o, s'⟩]) ++ s'.pc.inHand := by
  rw [acceptedPipes_snoc, attachedPipes_snoc, hacc]
  cases h with
  | dropped => exact absurd rfl (ho _)
  | visit hpc | pruned hpc | accepted hpc | stopped hpc | found hpc | created hpc | released hpc
    | upgraded hpc | attached hpc =>
    simp [hpc, acceptedOf, attachedOf, WplPc.inHand, setMux, round]
  | session hx hstep => simp [acceptedOf, attachedOf, setMux]

/-- **One step serves** exactly when it is on time. -/
theorem served_step (hr : (machine lib pk).Run new tr s) (h : Served lib pk tr s)
    (hs : (machine lib pk).step s a = some (s', o)) :
    Served lib pk (tr ++ [⟨s, a, o, s'⟩]) s' ↔ OnTime tr ⟨s, a, o, s'⟩ := by
  have hrule := rule_of_step hs
  have hi := inv_of_run hr
  constructor
  · rintro hserved m rfl hm
    refine Bool.eq_false_iff.mpr fun he => ?_
    have hdead := (dead_of_expired hr m he).2
    cases hrule with
    | upgraded hpc hx hpos =>
      have hm : lookedUp s.pc = some m := hm
      rw [hpc] at hm
      obtain rfl := Option.some.inj hm
      rw [alive_of_getElem? hx, decide_eq_false_iff_not] at hdead
      exact hdead hpos
    | dropped hpc =>
      -- the pipe was in hand and is neither attached nor in hand now
      have hacc := hserved.account
      rw [acceptedPipes_snoc, attachedPipes_snoc, h.account, hpc] at hacc
      simp [acceptedOf, attachedOf, WplPc.inHand, round] at hacc
  · intro hon
    have hnot : ∀ pipe, o ≠ .dropped pipe := by
      rintro pipe rfl
      cases hrule with
      | @dropped _ hash m hpc hdead =>
        have hknows := hi.knows
        rw [hpc] at hknows
        have he := expired_of_dead hr hash m hknows.2 hdead
        rw [hon m rfl (congrArg lookedUp hpc)] at he
        cases he
    refine ⟨hrule.account h.account hnot, (hi.step hrule).moves, ?_⟩
    intro e he pipe m hout
    rcases List.mem_append.mp he with he | he
    · exact h.live e he pipe m hout
    · obtain rfl := List.mem_singleton.mp he
      obtain rfl : o = .attached pipe m := hout
      exact hrule.toLive hi

theorem served_new : Served lib pk [] new :=
  ⟨rfl, fun h => absurd rfl h, fun _ he => absurd he List.not_mem_nil⟩

/-- **When every accepted pipe is served.** At every moment of a run every accepted pipe is
attached to the live mux of its hash, or about to be, exactly when no pipe is looked up in an entry
whose mux has expired since `retain` last visited it. -/
theorem served_iff (h : (machine lib pk).Run new tr s) :
    (machine lib pk).Always new (Served lib pk) tr ↔
      ∀ tr₁ e tr₂, tr = tr₁ ++ e :: tr₂ → OnTime tr₁ e :=
  h.always_iff_history served_new fun _ _ _ _ _ hr hserved hs => served_step hr hserved hs

/-- A client comes twice while its session is alive: both pipes are served. -/
theorem served_iff_twice :
    ∃ tr s, (machine .null .zero).Run new tr s ∧
      tr.map Event.act = [.pruned, .accept (.zero 0), .entry, .created, .upgrade, .addPipe,
        .visit 0, .pruned, .accept (.zero 1), .entry, .upgrade, .addPipe] ∧
      attachedPipes tr = [.zero 0, .zero 1] ∧
      (machine .null .zero).Always new (Served .null .zero) tr := by
  obtain ⟨tr, s, hr, hacts, hatt, hlive⟩ :=
    Machine.exists_run_of_exec (machine .null .zero) new
      [.pruned, .accept (.zero 0), .entry, .created, .upgrade, .addPipe,
        .visit 0, .pruned, .accept (.zero 1), .entry, .upgrade, .addPipe]
      (P := fun tr _ => attachedPipes tr = [.zero 0, .zero 1] ∧
        ∀ e ∈ tr, (lookedUp e.pre.pc).all e.pre.alive = true)
      (by decide)
  refine ⟨tr, s, hr, hacts, hatt, (served_iff hr).mpr ?_⟩
  rintro tr₁ e tr₂ rfl m - hm
  have hall := hlive e (by simp)
  rw [hm, Option.all_some] at hall
  refine Bool.eq_false_iff.mpr fun he => ?_
  rw [(dead_of_expired hr.before m he).2] at hall
  cases hall

/-- The client comes again after its session has expired while the loop waited: its pipe is
dropped. -/
theorem served_fails :
    ∃ tr s, (machine .null .zero).Run new tr s ∧
      tr.map Event.act = [.pruned, .accept (.zero 0), .entry, .created, .upgrade, .addPipe,
        .visit 0, .pruned, .session 0 .declare, .session 0 .check,
        .accept (.zero 1), .entry, .upgrade] ∧
      acceptedPipes tr = [.zero 0, .zero 1] ∧ attachedPipes tr = [.zero 0] ∧
      s.pc.inHand = [] ∧ ¬ Served .null .zero tr s := by
  obtain ⟨tr, s, hr, hacts, hacc, hatt, hhand⟩ :=
    Machine.exists_run_of_exec (machine .null .zero) new
      [.pruned, .accept (.zero 0), .entry, .created, .upgrade, .addPipe,
        .visit 0, .pruned, .session 0 .declare, .session 0 .check,
        .accept (.zero 1), .entry, .upgrade]
      (P := fun tr s => acceptedPipes tr = [.zero 0, .zero 1] ∧
        attachedPipes tr = [.zero 0] ∧ s.pc.inHand = [])
      (by decide)
  refine ⟨tr, s, hr, hacts, hacc, hatt, hhand, fun h => ?_⟩
  have := h.account
  rw [hacc, hatt, hhand] at this
  cases this

end Wpl

end ObfsWs
