import ObfsWs.Lib.WeakMap
import ObfsWs.Wsocks.Deadline
import ObfsWs.Wsocks.Etag

/-!
# The sessions of a server

The accept loop of the server (`wpl_fut`) with the map of its sessions, and the sessions. The map
holds weak references: a `Multiplex` is alive as long as a task of its session, or the loop itself
for a moment, holds it. In every round the loop removes what is dead, waits for a pipe, and gives
the pipe to the session of its hash, which it creates when there is none.

`retain` looks at one entry at a time and the loop waits for the next pipe as long as it takes, so
sessions die between any two of its steps.

## Who holds a mux

A `Multiplex` is counted: by the loop that has just created it, by the loop that has just looked
it up, by the pipe manager of its session, and by the accept loop of its session.
`Mux.strongCount` adds these up from the positions of the tasks, so there is no count that could
go wrong: an `Arc` that is dropped twice or never cannot be written down. A mux is alive while its
count is positive, and once it is not it never is again.

The map does not count. An entry whose mux is dead is the ordinary state of affairs between the
end of a session and the next round of `retain`, and the loop may wait for a pipe in between as
long as it takes. So `upgrade` can fail, and the source has no `else` for it.

## Main definitions

* `WsPipe` — a pipe that `accept_pipe` returns; that its key was accepted is a field
* `Mux`, `Wpl`, `Wpl.machine` — sessions, and the server
* `Wpl.OneLive`, `Wpl.Served` — sessions are not split, and pipes are not dropped

## Main results

* `Wpl.one_live` — at most one session of each hash is alive, and it gets all pipes of that hash
* `Wpl.served_iff` — no pipe is dropped exactly as long as no session expires behind the loop's back

## What is assumed

`accept_pipe` returns any pipes, each of which has an accepted key as its metadata (`FrontDoor`
discharges this against the listener), and may fail. The tasks of a session are those of
`Deadline`. `add_pipe` always succeeds; how many pipes a mux keeps is a matter of the mux and is
not looked at here: the record of a mux lists the pipes that were added to it. The primitives of
`Etag` are parameters. `or_insert_with` inserts the entry and then drops the closure's reference,
in two steps.
-/

namespace ObfsWs

/-- A pipe that `accept_pipe` returns, by its number and its metadata. -/
structure WsPipe where
  id : ℕ
  peerMetadata : String
  /-- The listener has accepted the metadata. -/
  accepted : IsKey (utf8 peerMetadata)
  deriving DecidableEq

/-- For concrete runs: pipe number `id` of a client whose key is the base64 of 16 zeros. -/
def WsPipe.zero (id : ℕ) : WsPipe where
  id := id
  peerMetadata := "AAAAAAAAAAAAAAAAAAAAAA=="
  accepted := isKey_iff.mpr ⟨.replicate 16 0, rfl, by decide⟩

/-- The references of a session's tasks to its mux: that of the accept loop and that of the
manager. The first also stands for the manager's until the session has started it. -/
def Session.refs (s : Session) : ℕ :=
  (s.acceptLoop ≠ .returned : Bool).toNat + (s.manager = .watch : Bool).toNat

/-- A `Multiplex` that the server has created. -/
structure Mux where
  /-- The hash that it was created for. -/
  hash : UInt64
  /-- The closure that creates it holds a reference. -/
  creator : Bool
  /-- The accept loop holds a reference, after `upgrade`. -/
  upgraded : Bool
  /-- `server_session_loop`. -/
  session : Session
  /-- The pipes that it was given. -/
  pipes : List WsPipe

/-- `Weak::strong_count`. -/
def Mux.strongCount (x : Mux) : ℕ := x.creator.toNat + x.upgraded.toNat + x.session.refs

/-- `Multiplex::new`, with its session spawned. -/
def Mux.new (hash : UInt64) : Mux := ⟨hash, true, false, .new, []⟩

/-- Where the accept loop stands. -/
inductive WplPc
  /-- In `retain`, which has yet to visit these entries. -/
  | retain (todo : List UInt64)
  /-- In `wpl.accept_pipe().await`. -/
  | accept
  /-- At `mux_sessions.entry(hash)`. -/
  | entry (pipe : WsPipe) (hash : UInt64)
  /-- At the end of the closure that has created a mux. -/
  | created (pipe : WsPipe) (hash : UInt64) (m : ℕ)
  /-- At `mux.upgrade()`. -/
  | upgrade (pipe : WsPipe) (hash : UInt64) (m : ℕ)
  /-- At `mux.add_pipe(pipe)`. -/
  | addPipe (pipe : WsPipe) (hash : UInt64) (m : ℕ)
  /-- It has returned an error. -/
  | returned
  | panicked

/-- The pipe that the loop has accepted and is not done with. -/
def WplPc.inHand : WplPc → List WsPipe
  | .entry pipe _ | .created pipe _ _ | .upgrade pipe _ _ | .addPipe pipe _ _ => [pipe]
  | _ => []

/-- The server. -/
structure Wpl where
  pc : WplPc
  muxSessions : WeakMap UInt64 ℕ
  /-- The muxes created so far, dead ones included. -/
  muxes : List Mux

/-- The steps. -/
inductive WplAct
  /-- `retain` visits an entry. -/
  | visit (hash : UInt64)
  /-- `retain` is through. -/
  | pruned
  /-- `accept_pipe` returns a pipe, and its metadata is decoded. -/
  | accept (pipe : WsPipe)
  /-- `accept_pipe` fails. -/
  | acceptError
  /-- The entry is looked up, or created with a new mux. -/
  | entry
  /-- The closure that has created the mux drops its reference. -/
  | created
  | upgrade
  | addPipe
  /-- A step of the session of a mux. -/
  | session (m : ℕ) (a : SessionAct)

/-- What is observed. -/
inductive WplOut
  | tau
  /-- `accept_pipe` has returned a pipe. -/
  | accepted (pipe : WsPipe)
  /-- The pipe is added to a mux. -/
  | attached (pipe : WsPipe) (m : ℕ)
  /-- The pipe is dropped; the log says that it was accepted. -/
  | dropped (pipe : WsPipe)
  deriving DecidableEq

namespace Wpl

/-- A new server. -/
def new : Wpl := ⟨.retain [], ∅, []⟩

/-- The mux is alive. -/
def alive (s : Wpl) (m : ℕ) : Bool := s.muxes[m]?.any fun x => 0 < x.strongCount

/-- The hash that a mux was created for. -/
def hashOf (s : Wpl) (m : ℕ) : Option UInt64 := s.muxes[m]?.map Mux.hash

def setMux (s : Wpl) (m : ℕ) (x : Mux) (pc : WplPc) : Wpl :=
  { s with muxes := s.muxes.set m x, pc }

/-- Another round of the loop begins with `retain`. -/
def round (s : Wpl) : WplPc := .retain s.muxSessions.keys

/-- One step. -/
def step (lib : Primitives) (pk : MuxPublic) (s : Wpl) : WplAct → Option (Wpl × WplOut)
  | .visit hash =>
    match s.pc with
    | .retain todo =>
      if hash ∈ todo then
        some ({ s with
          muxSessions := s.muxSessions.visit s.alive hash
          pc := .retain (todo.erase hash) }, .tau)
      else none
    | _ => none
  | .pruned =>
    match s.pc with
    | .retain [] => some ({ s with pc := .accept }, .tau)
    | _ => none
  | .accept pipe =>
    match s.pc with
    | .accept =>
      match Etag.fromKey lib pk pipe.peerMetadata with
      | some (.ok hash) => some ({ s with pc := .entry pipe hash }, .accepted pipe)
      -- the `?`
      | some (.error _) => some ({ s with pc := .returned }, .accepted pipe)
      | none => some ({ s with pc := .panicked }, .accepted pipe)
    | _ => none
  | .acceptError =>
    match s.pc with
    | .accept => some ({ s with pc := .returned }, .tau)
    | _ => none
  | .entry =>
    match s.pc with
    | .entry pipe hash =>
      match s.muxSessions.lookup hash with
      | some m => some ({ s with pc := .upgrade pipe hash m }, .tau)
      -- `or_insert_with` holds the map until the closure is through
      | none =>
        some ({ s with
          muxes := s.muxes ++ [.new hash]
          muxSessions := s.muxSessions.insert hash s.muxes.length
          pc := .created pipe hash s.muxes.length }, .tau)
    | _ => none
  | .created =>
    match s.pc with
    | .created pipe hash m =>
      match s.muxes[m]? with
      | some x => some (s.setMux m { x with creator := false } (.upgrade pipe hash m), .tau)
      | none => none
    | _ => none
  | .upgrade =>
    match s.pc with
    | .upgrade pipe hash m =>
      match s.muxes[m]? with
      | some x =>
        if 0 < x.strongCount then
          some (s.setMux m { x with upgraded := true } (.addPipe pipe hash m), .tau)
        else some ({ s with pc := s.round }, .dropped pipe)
      | none => none
    | _ => none
  | .addPipe =>
    match s.pc with
    | .addPipe pipe _ m =>
      match s.muxes[m]? with
      | some x =>
        some (s.setMux m { x with pipes := x.pipes ++ [pipe], upgraded := false } s.round,
          .attached pipe m)
      | none => none
    | _ => none
  | .session m a =>
    match s.muxes[m]? with
    | some x =>
      match x.session.step a with
      | some (session, _) => some (s.setMux m { x with session } s.pc, .tau)
      | none => none
    | none => none

/-- The server as a machine. -/
def machine (lib : Primitives) (pk : MuxPublic) : Machine Wpl WplAct WplOut := ⟨step lib pk⟩

/-! ### The rules

One constructor for each branch of the loop, and one for the steps of a session. The latter needs
no case analysis here: what the session does to its references is all that the map can notice. -/

/-- What a step can do. -/
inductive Rule (lib : Primitives) (pk : MuxPublic) (s : Wpl) : WplAct → WplOut → Wpl → Prop
  | visit {todo hash} : s.pc = .retain todo →
      Rule lib pk s (.visit hash) .tau { s with
        muxSessions := s.muxSessions.visit s.alive hash
        pc := .retain (todo.erase hash) }
  | pruned : s.pc = .retain [] → Rule lib pk s .pruned .tau { s with pc := .accept }
  | accepted {pipe hash} : s.pc = .accept →
      Etag.fromKey lib pk pipe.peerMetadata = some (.ok hash) →
      Rule lib pk s (.accept pipe) (.accepted pipe) { s with pc := .entry pipe hash }
  | stopped : s.pc = .accept → Rule lib pk s .acceptError .tau { s with pc := .returned }
  | found {pipe hash m} : s.pc = .entry pipe hash → s.muxSessions.lookup hash = some m →
      Rule lib pk s .entry .tau { s with pc := .upgrade pipe hash m }
  | created {pipe hash} : s.pc = .entry pipe hash → s.muxSessions.lookup hash = none →
      Rule lib pk s .entry .tau { s with
        muxes := s.muxes ++ [.new hash]
        muxSessions := s.muxSessions.insert hash s.muxes.length
        pc := .created pipe hash s.muxes.length }
  | released {pipe hash m x} : s.pc = .created pipe hash m → s.muxes[m]? = some x →
      Rule lib pk s .created .tau (s.setMux m { x with creator := false } (.upgrade pipe hash m))
  | upgraded {pipe hash m x} : s.pc = .upgrade pipe hash m → s.muxes[m]? = some x →
      0 < x.strongCount →
      Rule lib pk s .upgrade .tau (s.setMux m { x with upgraded := true } (.addPipe pipe hash m))
  | dropped {pipe hash m} : s.pc = .upgrade pipe hash m → s.alive m = false →
      Rule lib pk s .upgrade (.dropped pipe) { s with pc := s.round }
  | attached {pipe hash m x} : s.pc = .addPipe pipe hash m → s.muxes[m]? = some x →
      Rule lib pk s .addPipe (.attached pipe m)
        (s.setMux m { x with pipes := x.pipes ++ [pipe], upgraded := false } s.round)
  | session {m a x session o} : s.muxes[m]? = some x → x.session.step a = some (session, o) →
      Rule lib pk s (.session m a) .tau (s.setMux m { x with session } s.pc)

variable {lib : Primitives} {pk : MuxPublic} {s s' : Wpl} {a : WplAct} {o : WplOut}

theorem alive_of_getElem? {m : ℕ} {x : Mux} (h : s.muxes[m]? = some x) :
    s.alive m = decide (0 < x.strongCount) := by
  rw [alive, h]
  rfl

theorem rule_of_step (h : (machine lib pk).step s a = some (s', o)) : Rule lib pk s a o s' := by
  replace h : step lib pk s a = some (s', o) := h
  cases a with
  | visit hash =>
    simp only [step] at h
    split at h
    · rename_i todo hpc
      split at h
      · cases h
        exact .visit hpc
      · cases h
    · cases h
  | pruned =>
    simp only [step] at h
    split at h
    · rename_i hpc
      cases h
      exact .pruned hpc
    · cases h
  | accept pipe =>
    simp only [step] at h
    split at h
    · rename_i hpc
      obtain ⟨hash, hhash⟩ := Etag.exists_fromKey lib pk pipe.accepted
      rw [hhash] at h
      cases h
      exact .accepted hpc hhash
    · cases h
  | acceptError =>
    simp only [step] at h
    split at h
    · rename_i hpc
      cases h
      exact .stopped hpc
    · cases h
  | entry =>
    simp only [step] at h
    split at h
    · rename_i pipe hash hpc
      split at h
      · rename_i m hm
        cases h
        exact .found hpc hm
      · rename_i hnone
        cases h
        exact .created hpc hnone
    · cases h
  | created =>
    simp only [step] at h
    split at h
    · rename_i hpc
      split at h
      · rename_i x hx
        cases h
        exact .released hpc hx
      · cases h
    · cases h
  | upgrade =>
    simp only [step] at h
    split at h
    · rename_i hpc
      split at h
      · rename_i x hx
        split at h
        · rename_i hpos
          cases h
          exact .upgraded hpc hx hpos
        · rename_i hzero
          cases h
          exact .dropped hpc (by rw [alive_of_getElem? hx, decide_eq_false hzero])
      · cases h
    · cases h
  | addPipe =>
    simp only [step] at h
    split at h
    · rename_i hpc
      split at h
      · rename_i x hx
        cases h
        exact .attached hpc hx
      · cases h
    · cases h
  | session m a =>
    simp only [step] at h
    split at h
    · rename_i x hx
      split at h
      · rename_i hstep
        cases h
        exact .session hx hstep
      · cases h
    · cases h

/-! ### Sessions die once

A session gives references up and never takes one. So the count of a mux is lowered by its session
and raised by the loop only, and the loop raises it only for a mux that it has found alive. -/

/-- The tasks of a session only give references up. -/
theorem refs_le_of_step {t t' : Session} {b : SessionAct} {p : SessionOut}
    (h : t.step b = some (t', p)) : t'.refs ≤ t.refs := by
  have hman : t.manager ≠ .watch → t'.manager ≠ .watch := by
    intro hm
    cases Session.rule_of_step h with
    | tau _ hm' => exact hm' hm
    | declared hw => exact absurd hw hm
    | observed _ hm' => rwa [hm']
    | missed _ _ hm' => rwa [hm']
  have hacc : t.acceptLoop = .returned → t'.acceptLoop = .returned := Session.returned_of_step h
  have h₁ : (t'.acceptLoop ≠ .returned : Bool).toNat ≤ (t.acceptLoop ≠ .returned : Bool).toNat := by
    by_cases hret : t.acceptLoop = .returned
    · simp [hret, hacc hret]
    · simpa [hret] using Bool.toNat_le _
  have h₂ : (t'.manager = .watch : Bool).toNat ≤ (t.manager = .watch : Bool).toNat := by
    by_cases hw : t.manager = .watch
    · simpa [hw] using Bool.toNat_le _
    · simp [hw, hman hw]
  exact Nat.add_le_add h₁ h₂

/-! ### Changing one mux

Every step changes one mux at most. What it means for the map is stated once, in terms of what
happens to that mux: it stays alive, or it may die. -/

/-- No reference is gained where the creator's is dropped. -/
theorem pos_of_released {x : Mux} (h : 0 < ({ x with creator := false } : Mux).strongCount) :
    0 < x.strongCount := by
  simp only [Mux.strongCount, Bool.toNat_false] at h ⊢
  omega

/-- Nor where the loop's is dropped. -/
theorem pos_of_attached {x : Mux} {pipes : List WsPipe}
    (h : 0 < ({ x with pipes, upgraded := false } : Mux).strongCount) : 0 < x.strongCount := by
  simp only [Mux.strongCount, Bool.toNat_false] at h ⊢
  omega

/-- Nor by a step of the session. -/
theorem pos_of_session {x : Mux} {session : Session} {b : SessionAct} {p : SessionOut}
    (hstep : x.session.step b = some (session, p))
    (h : 0 < ({ x with session } : Mux).strongCount) : 0 < x.strongCount := by
  have hle := refs_le_of_step hstep
  simp only [Mux.strongCount] at h ⊢
  omega

theorem hashOf_setMux {m : ℕ} {x x' : Mux} {pc : WplPc} (hx : s.muxes[m]? = some x)
    (hhash : x'.hash = x.hash) (m' : ℕ) : (s.setMux m x' pc).hashOf m' = s.hashOf m' := by
  rw [hashOf, hashOf, setMux]
  by_cases hm : m = m'
  · subst hm
    have hlt : m < s.muxes.length := (List.getElem?_eq_some_iff.mp hx).1
    rw [List.getElem?_set_self hlt, hx]
    exact congrArg some hhash
  · rw [List.getElem?_set_ne hm]

theorem alive_setMux {m : ℕ} {x x' : Mux} {pc : WplPc} (hx : s.muxes[m]? = some x)
    (hle : 0 < x'.strongCount → 0 < x.strongCount) {m' : ℕ}
    (h : (s.setMux m x' pc).alive m' = true) : s.alive m' = true := by
  by_cases hm : m = m'
  · subst hm
    have hlt : m < s.muxes.length := (List.getElem?_eq_some_iff.mp hx).1
    have hx' : (s.setMux m x' pc).muxes[m]? = some x' := List.getElem?_set_self hlt
    rw [alive_of_getElem? hx', decide_eq_true_eq] at h
    rw [alive_of_getElem? hx, decide_eq_true_eq]
    exact hle h
  · rw [alive, setMux, List.getElem?_set_ne hm] at h
    exact h

/-! ### The invariant

Three parts: the map tracks the live muxes, the loop knows of the pipe in its hand what it needs
to know at that position, and the pipes that were attached are attached to the mux of their hash. -/

/-- What the loop knows about the pipe in its hand. -/
def Knows (lib : Primitives) (pk : MuxPublic) (s : Wpl) : WplPc → Prop
  | .entry pipe hash => Etag.fromKey lib pk pipe.peerMetadata = some (.ok hash)
  | .created pipe hash m | .upgrade pipe hash m =>
    Etag.fromKey lib pk pipe.peerMetadata = some (.ok hash) ∧
      s.muxSessions.lookup hash = some m
  | .addPipe pipe hash m =>
    Etag.fromKey lib pk pipe.peerMetadata = some (.ok hash) ∧
      s.muxSessions.lookup hash = some m ∧ ∃ x, s.muxes[m]? = some x ∧ x.upgraded = true
  | _ => True

/-- The invariant of the server. -/
structure Inv (lib : Primitives) (pk : MuxPublic) (s : Wpl) : Prop where
  /-- The map tracks the muxes. -/
  tracks : s.muxSessions.Tracks s.alive s.hashOf
  knows : Knows lib pk s s.pc
  /-- A mux has the pipes of its hash only. -/
  pipes : ∀ x ∈ s.muxes, ∀ pipe ∈ x.pipes,
    Etag.fromKey lib pk pipe.peerMetadata = some (.ok x.hash)

theorem inv_new : Inv lib pk new where
  tracks := .empty fun _ => rfl
  knows := trivial
  pipes x hx := by cases hx

/-- The loop still knows it when a mux changes that it keeps its reference to. -/
theorem Knows.setMux {m : ℕ} {x x' : Mux} {pc pc' : WplPc} (h : Knows lib pk s pc)
    (hx : s.muxes[m]? = some x) (hup : x'.upgraded = x.upgraded) :
    Knows lib pk (s.setMux m x' pc') pc := by
  cases pc with
  | addPipe pipe hash m' =>
    obtain ⟨hhash, hlookup, y, hy, hyup⟩ := h
    refine ⟨hhash, hlookup, ?_⟩
    by_cases hm : m = m'
    · subst hm
      obtain rfl := Option.some.inj (hx.symm.trans hy)
      have hlt : m < s.muxes.length := (List.getElem?_eq_some_iff.mp hx).1
      exact ⟨x', List.getElem?_set_self hlt, hup.trans hyup⟩
    · exact ⟨y, (List.getElem?_set_ne hm).trans hy, hyup⟩
  | _ => exact h

/-- Changing a mux keeps the map and the pipes as long as no dead mux comes alive. -/
theorem Inv.setMux {m : ℕ} {x x' : Mux} {pc : WplPc} (hi : Inv lib pk s)
    (hx : s.muxes[m]? = some x) (hhash : x'.hash = x.hash)
    (hle : 0 < x'.strongCount → 0 < x.strongCount)
    (hpipes : ∀ pipe ∈ x'.pipes, Etag.fromKey lib pk pipe.peerMetadata = some (.ok x.hash))
    (hknows : Knows lib pk (s.setMux m x' pc) pc) : Inv lib pk (s.setMux m x' pc) where
  tracks := by
    have hkey : (s.setMux m x' pc).hashOf = s.hashOf := by
      funext m'
      exact hashOf_setMux hx hhash m'
    rw [hkey]
    exact hi.tracks.mono fun m' => alive_setMux hx hle
  knows := hknows
  pipes y hy := by
    rcases List.mem_or_eq_of_mem_set hy with hy | rfl
    · exact hi.pipes y hy
    · rwa [hhash]

/-- The pipes of a mux that is there. -/
theorem Inv.pipes_of_getElem? (hi : Inv lib pk s) {m : ℕ} {x : Mux} (hx : s.muxes[m]? = some x) :
    ∀ pipe ∈ x.pipes, Etag.fromKey lib pk pipe.peerMetadata = some (.ok x.hash) :=
  hi.pipes x (List.mem_of_getElem? hx)

theorem hashOf_created {hash : UInt64} {map : WeakMap UInt64 ℕ} {pc : WplPc} {m : ℕ}
    (hm : m ≠ s.muxes.length) :
    (⟨pc, map, s.muxes ++ [.new hash]⟩ : Wpl).hashOf m = s.hashOf m := by
  rw [hashOf, hashOf]
  rcases Nat.lt_or_gt_of_ne hm with hlt | hgt
  · rw [List.getElem?_append_left hlt]
  · rw [List.getElem?_eq_none (by simp; omega), List.getElem?_eq_none (by omega)]

theorem alive_created {hash : UInt64} {map : WeakMap UInt64 ℕ} {pc : WplPc} {m : ℕ}
    (hm : m ≠ s.muxes.length) :
    (⟨pc, map, s.muxes ++ [.new hash]⟩ : Wpl).alive m = s.alive m := by
  rw [alive, alive]
  rcases Nat.lt_or_gt_of_ne hm with hlt | hgt
  · rw [List.getElem?_append_left hlt]
  · rw [List.getElem?_eq_none (by simp; omega), List.getElem?_eq_none (by omega)]

/-- **Each step keeps the invariant.** -/
theorem Inv.step (hi : Inv lib pk s) (h : Rule lib pk s a o s') : Inv lib pk s' := by
  cases h with
  | visit hpc => exact ⟨hi.tracks.visit _, trivial, hi.pipes⟩
  | pruned hpc => exact ⟨hi.tracks, trivial, hi.pipes⟩
  | accepted hpc hhash => exact ⟨hi.tracks, hhash, hi.pipes⟩
  | stopped hpc => exact ⟨hi.tracks, trivial, hi.pipes⟩
  | found hpc hm =>
    have hknows := hi.knows
    rw [hpc] at hknows
    exact ⟨hi.tracks, ⟨hknows, hm⟩, hi.pipes⟩
  | @created pipe hash hpc hnone =>
    have hknows := hi.knows
    rw [hpc] at hknows
    refine ⟨?_, ⟨hknows, AList.lookup_insert _⟩, ?_⟩
    · refine hi.tracks.insert hnone ?_ ?_ (fun m hm => hashOf_created hm) fun m hm hl => ?_
      · rw [hashOf, List.getElem?_eq_none le_rfl]
        rfl
      · rw [hashOf, List.getElem?_append_right le_rfl, Nat.sub_self]
        rfl
      · rwa [alive_created hm] at hl
    · intro x hx
      rcases List.mem_append.mp hx with hx | hx
      · exact hi.pipes x hx
      · rw [List.mem_singleton.mp hx]
        intro p hp
        cases hp
  | @released pipe hash m x hpc hx =>
    have hpipes := hi.pipes_of_getElem? hx
    have hknows := hi.knows
    rw [hpc] at hknows
    exact hi.setMux hx rfl pos_of_released hpipes hknows
  | @upgraded pipe hash m x hpc hx hpos =>
    have hpipes := hi.pipes_of_getElem? hx
    have hknows := hi.knows
    rw [hpc] at hknows
    have hlt : m < s.muxes.length := (List.getElem?_eq_some_iff.mp hx).1
    refine hi.setMux hx rfl (fun _ => hpos) hpipes ?_
    exact ⟨hknows.1, hknows.2, _, List.getElem?_set_self hlt, rfl⟩
  | dropped hpc hdead => exact ⟨hi.tracks, trivial, hi.pipes⟩
  | @attached pipe hash m x hpc hx =>
    have hknows := hi.knows
    rw [hpc] at hknows
    obtain ⟨hhash, hlookup, -⟩ := hknows
    have hkey : s.hashOf m = some hash := hi.tracks.keyed hash m hlookup
    have hxhash : x.hash = hash := by
      rw [hashOf, hx] at hkey
      exact Option.some.inj hkey
    refine hi.setMux hx rfl pos_of_attached ?_ trivial
    intro p hp
    rcases List.mem_append.mp hp with hp | hp
    · exact hi.pipes_of_getElem? hx p hp
    · rw [List.mem_singleton.mp hp, hhash, hxhash]
  | @session m b x session p hx hstep =>
    have hpipes := hi.pipes_of_getElem? hx
    exact hi.setMux hx rfl (pos_of_session hstep) hpipes (hi.knows.setMux hx rfl)

theorem inv_of_run {tr : List (Event Wpl WplAct WplOut)} (h : (machine lib pk).Run new tr s) :
    Inv lib pk s :=
  h.invariant (Inv lib pk) inv_new fun _ _ _ _ hi hs => hi.step (rule_of_step hs)

/-! ### One live session for each hash -/

/-- A recorded run of the server. -/
abbrev Trace := List (Event Wpl WplAct WplOut)

/-- The pipe that is attached goes to the live mux that is registered under its hash. -/
theorem Rule.toLive {pipe : WsPipe} {m : ℕ} (h : Rule lib pk s a (.attached pipe m) s')
    (hi : Inv lib pk s) :
    ∃ hash, Etag.fromKey lib pk pipe.peerMetadata = some (.ok hash) ∧ s.alive m = true ∧
      s.muxSessions.lookup hash = some m := by
  cases h with
  | @attached _ hash _ x hpc hx =>
    have hknows := hi.knows
    rw [hpc] at hknows
    obtain ⟨hhash, hlookup, y, hy, hup⟩ := hknows
    refine ⟨hash, hhash, ?_, hlookup⟩
    rw [alive_of_getElem? hy, decide_eq_true_eq]
    simp only [Mux.strongCount, hup, Bool.toNat_true]
    omega

/-- Sessions are not split. -/
structure OneLive (lib : Primitives) (pk : MuxPublic) (tr : Trace) (s : Wpl) : Prop where
  /-- At most one mux of each hash is alive. -/
  unique : ∀ m m' hash, s.alive m = true → s.alive m' = true → s.hashOf m = some hash →
    s.hashOf m' = some hash → m = m'
  /-- It is the one that the map has for the hash. -/
  registered : ∀ m hash, s.alive m = true → s.hashOf m = some hash →
    s.muxSessions.lookup hash = some m
  /-- A pipe that was attached while a mux of its hash was alive was attached to that one. -/
  attached : ∀ e ∈ tr, ∀ pipe m hash m', e.out = .attached pipe m →
    Etag.fromKey lib pk pipe.peerMetadata = some (.ok hash) → e.pre.alive m' = true →
    e.pre.hashOf m' = some hash → m' = m
  /-- Two live muxes do not share the pipes of one client. -/
  together : ∀ (m m' : ℕ) (x x' : Mux) (pipe pipe' : WsPipe) (hash : UInt64),
    s.muxes[m]? = some x → s.muxes[m']? = some x' → s.alive m = true → s.alive m' = true →
    pipe ∈ x.pipes → pipe' ∈ x'.pipes →
    Etag.fromKey lib pk pipe.peerMetadata = some (.ok hash) →
    Etag.fromKey lib pk pipe'.peerMetadata = some (.ok hash) → m = m'

/-- In one state, only the live mux of a pipe's hash has that pipe. -/
theorem Inv.hashOf_of_pipe (hi : Inv lib pk s) {m : ℕ} {x : Mux} {pipe : WsPipe} {hash : UInt64}
    (hx : s.muxes[m]? = some x) (hp : pipe ∈ x.pipes)
    (hhash : Etag.fromKey lib pk pipe.peerMetadata = some (.ok hash)) :
    s.hashOf m = some hash := by
  have hxhash := (hi.pipes_of_getElem? hx pipe hp).symm.trans hhash
  rw [hashOf, hx]
  exact congrArg some (Except.ok.inj (Option.some.inj hxhash))

/-- **One live session for each hash.** Whatever pipes come in, and whenever sessions die: at most
one mux of each hash is alive, the map has it, and the pipes of its hash go to it. -/
theorem one_live {tr : Trace} (h : (machine lib pk).Run new tr s) : OneLive lib pk tr s := by
  have hi := inv_of_run h
  refine ⟨fun m m' hash => hi.tracks.unique, fun m hash => hi.tracks.registered m hash, ?_, ?_⟩
  · refine h.induct (fun tr _ => ∀ e ∈ tr, ∀ pipe m hash m', e.out = .attached pipe m →
      Etag.fromKey lib pk pipe.peerMetadata = some (.ok hash) → e.pre.alive m' = true →
      e.pre.hashOf m' = some hash → m' = m) (fun _ he => absurd he List.not_mem_nil) ?_
    intro tr t a t' o hr ih hs e he pipe m hash m' hout hhash hlive hkey
    rcases List.mem_append.mp he with he | he
    · exact ih e he pipe m hash m' hout hhash hlive hkey
    · obtain rfl := List.mem_singleton.mp he
      obtain rfl : o = .attached pipe m := hout
      have hit := inv_of_run hr
      obtain ⟨hash', hhash', -, hlookup⟩ := (rule_of_step hs).toLive hit
      obtain rfl := Except.ok.inj (Option.some.inj (hhash'.symm.trans hhash))
      exact Option.some.inj ((hit.tracks.registered m' hash' hlive hkey).symm.trans hlookup)
  · intro m m' x x' pipe pipe' hash hx hx' hm hm' hp hp' hhash hhash'
    exact hi.tracks.unique hm hm' (hi.hashOf_of_pipe hx hp hhash)
      (hi.hashOf_of_pipe hx' hp' hhash')

/-- A client comes a second time, while its session is alive and again after it has expired. -/
theorem one_live_expired :
    ∃ tr s, (machine .null .zero).Run new tr s ∧
      tr.map Event.act = [.pruned, .accept (.zero 0), .entry, .created, .upgrade, .addPipe,
        .visit 0, .pruned, .accept (.zero 1), .entry, .upgrade, .addPipe,
        .session 0 .declare, .session 0 .check, .visit 0, .pruned,
        .accept (.zero 2), .entry, .created, .upgrade, .addPipe] ∧
      s.muxes.map Mux.pipes = [[.zero 0, .zero 1], [.zero 2]] ∧ s.alive 0 = false ∧
      s.alive 1 = true ∧ OneLive .null .zero tr s := by
  obtain ⟨tr, s, hr, hacts, hpipes, hdead, hlive⟩ :=
    Machine.exists_run_of_exec (machine .null .zero) new
      [.pruned, .accept (.zero 0), .entry, .created, .upgrade, .addPipe,
        .visit 0, .pruned, .accept (.zero 1), .entry, .upgrade, .addPipe,
        .session 0 .declare, .session 0 .check, .visit 0, .pruned,
        .accept (.zero 2), .entry, .created, .upgrade, .addPipe]
      (P := fun _ s => s.muxes.map Mux.pipes = [[.zero 0, .zero 1], [.zero 2]] ∧
        s.alive 0 = false ∧ s.alive 1 = true)
      (by decide)
  exact ⟨tr, s, hr, hacts, hpipes, hdead, hlive, one_live hr⟩

end Wpl

end ObfsWs
