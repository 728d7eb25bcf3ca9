import ObfsWs.Lib.Machine
import ObfsWs.Wsocks.Etag

/-!
# The long-term key of the server

`server` begins by reading its key file. The secret key is a hash of what it reads; when it cannot
read the file, it writes random bytes to it and tries again, nine times at most. A write first
empties the file and then appends to it, so a server that crashes or that fails to write leaves a
part of the bytes behind.

The file outlives the server, which may be started again at any time. A read may fail although the
file is there.

## What a file can contain

Only servers write it, and a write replaces everything. So at any moment the file is missing, or
it is an initial part of the bytes that some start has drawn, the empty one included. A server
that finds an initial part takes it for a key like any other: the hash is computed of what is
there, and its length is not checked. `origin` says so, and says when it is the whole.

The loop reads again after it has written, and does not use what it has drawn. So the key of a
start is always one that was read, and `stable` is about reads: two reads with no write in between
give the same, and a write happens only after a read that failed.

## Main definitions

* `KeyFile`, `KeyFile.machine` — the file and the server that loads its key from it

## Main results

* `KeyFile.reads_le_of_run` — a start reads at most nine times
* `KeyFile.stable` — as long as no read fails, every start gives the same key
* `KeyFile.origin` — where the key of a server comes from that had no file

## What is assumed

A crash is at any moment and leaves the file as it is. `smol::fs::write` creates or empties the
file, appends, and may fail in between; the pieces in which it appends are any. Nobody else
touches the file, and only one server runs at a time. The random bytes are any bytes, of a length
that the source draws between 2048 and 8192. That they are unpredictable is neither used nor
proved.
-/

namespace ObfsWs

/-- `NS_WSOCKS_SERVER_SECRET`. -/
def nsWsocksServerSecret : ByteArr 32 :=
  ⟨[0xb6, 0xae, 0xa3, 0x98, 0xc4, 0xde, 0xf3, 0x10, 0xf8, 0xc5, 0xe8, 0x14, 0x0e, 0xd4, 0xbc, 0x9e,
    0x81, 0xc5, 0x9f, 0xc8, 0x1d, 0xe8, 0xce, 0xe1, 0xd6, 0xf9, 0x95, 0xf3, 0x12, 0x0f, 0xbf, 0x11],
    rfl⟩

/-- `server_sk_hash`. -/
def Primitives.serverSkHash (lib : Primitives) (data : List UInt8) : ByteArr 32 :=
  lib.keyedHash nsWsocksServerSecret data

/-- `pre_sk`: 2048 to 8192 random bytes. -/
def PreSk := { buf : List UInt8 // 2048 ≤ buf.length ∧ buf.length ≤ 8192 }

/-- For concrete runs: bytes that are all zero. -/
def PreSk.zero : PreSk := ⟨.replicate 2048 0, by
  rw [List.length_replicate]
  decide⟩

/-- Where the server stands. -/
inductive KeyPc
  /-- It does not run. -/
  | down
  /-- At the head of the loop. -/
  | head (i : ℕ)
  /-- In `smol::fs::read`. -/
  | read (i : ℕ)
  /-- It could not read the file. -/
  | create (i : ℕ)
  /-- In `smol::fs::write`, with what is left to be written. -/
  | write (i : ℕ) (rest : List UInt8)
  /-- It has its secret key. -/
  | up (key : ByteArr 32)
  /-- It has returned an error. -/
  | failed
  deriving DecidableEq

/-- The key file, `none` when there is none, and the server. -/
structure KeyFile where
  file : Option (List UInt8)
  pc : KeyPc

/-- What happens to the server. -/
inductive KeyAct
  | start
  | crash
  /-- `i += 1`, and the check of it. -/
  | count
  | read (ok : Bool)
  /-- The bytes are drawn, and the file is created or emptied. -/
  | create (buf : PreSk) (ok : Bool)
  /-- Some bytes are written. -/
  | write (n : ℕ)
  | writeFail
  /-- All bytes are written. -/
  | written

/-- What is observed. -/
inductive KeyOut
  | tau
  /-- The server has got its key. -/
  | key (k : ByteArr 32)
  /-- `Cannot get long-term secret key of server!` -/
  | tooOften
  /-- `Cannot write new key to disk!?` -/
  | cannotWrite
  deriving DecidableEq

namespace KeyFile

variable (lib : Primitives)

/-- One step. -/
def step (s : KeyFile) : KeyAct → Option (KeyFile × KeyOut)
  | .start =>
    match s.pc with
    | .down | .failed => some ({ s with pc := .head 0 }, .tau)
    | _ => none
  | .crash => some ({ s with pc := .down }, .tau)
  | .count =>
    match s.pc with
    | .head i =>
      if i + 1 ≥ 10 then some ({ s with pc := .failed }, .tooOften)
      else some ({ s with pc := .read (i + 1) }, .tau)
    | _ => none
  | .read ok =>
    match s.pc with
    | .read i =>
      if ok then
        s.file.map fun data =>
          ({ s with pc := .up (lib.serverSkHash data) }, .key (lib.serverSkHash data))
      else some ({ s with pc := .create i }, .tau)
    | _ => none
  | .create buf ok =>
    match s.pc with
    | .create i =>
      if ok then some ({ file := some [], pc := .write i buf.val }, .tau)
      else some ({ s with pc := .failed }, .cannotWrite)
    | _ => none
  | .write n =>
    match s.pc with
    | .write i rest =>
      some ({ file := s.file.map (· ++ rest.take n), pc := .write i (rest.drop n) }, .tau)
    | _ => none
  | .writeFail =>
    match s.pc with
    | .write _ _ => some ({ s with pc := .failed }, .cannotWrite)
    | _ => none
  | .written =>
    match s.pc with
    | .write i [] => some ({ s with pc := .head i }, .tau)
    | _ => none

/-- The file and the server as a machine. -/
def machine : Machine KeyFile KeyAct KeyOut := ⟨step lib⟩

/-- The recorded steps of a run. -/
abbrev Trace := List (Event KeyFile KeyAct KeyOut)

/-- What a step can be. -/
inductive Rule (s : KeyFile) : KeyAct → KeyOut → KeyFile → Prop
  | start : s.pc = .down ∨ s.pc = .failed → Rule s .start .tau ⟨s.file, .head 0⟩
  | crash : Rule s .crash .tau ⟨s.file, .down⟩
  | count {i : ℕ} : s.pc = .head i → i < 9 → Rule s .count .tau ⟨s.file, .read (i + 1)⟩
  | tooOften {i : ℕ} : s.pc = .head i → Rule s .count .tooOften ⟨s.file, .failed⟩
  | read {i : ℕ} {data : List UInt8} : s.pc = .read i → s.file = some data →
      Rule s (.read true) (.key (lib.serverSkHash data)) ⟨s.file, .up (lib.serverSkHash data)⟩
  | unreadable {i : ℕ} : s.pc = .read i → Rule s (.read false) .tau ⟨s.file, .create i⟩
  | create {i : ℕ} {buf : PreSk} : s.pc = .create i →
      Rule s (.create buf true) .tau ⟨some [], .write i buf.val⟩
  | notCreated {i : ℕ} {buf : PreSk} : s.pc = .create i →
      Rule s (.create buf false) .cannotWrite ⟨s.file, .failed⟩
  | write {i n : ℕ} {rest : List UInt8} : s.pc = .write i rest →
      Rule s (.write n) .tau ⟨s.file.map (· ++ rest.take n), .write i (rest.drop n)⟩
  | writeFail {i : ℕ} {rest : List UInt8} : s.pc = .write i rest →
      Rule s .writeFail .cannotWrite ⟨s.file, .failed⟩
  | written {i : ℕ} : s.pc = .write i [] → Rule s .written .tau ⟨s.file, .head i⟩

variable {lib} {s s' s'' : KeyFile} {a : KeyAct} {o : KeyOut} {tr : Trace} {k k' : ByteArr 32}

theorem rule_of_step (h : (machine lib).step s a = some (s', o)) : Rule lib s a o s' := by
  replace h : step lib s a = some (s', o) := h
  cases a with
  | crash =>
    obtain ⟨rfl, rfl⟩ := Machine.next_inj h
    exact .crash
  | start =>
    simp only [step] at h
    split at h
    · rename_i hpc
      obtain ⟨rfl, rfl⟩ := Machine.next_inj h
      exact .start (.inl hpc)
    · rename_i hpc
      obtain ⟨rfl, rfl⟩ := Machine.next_inj h
      exact .start (.inr hpc)
    · cases h
  | count =>
    simp only [step] at h
    split at h
    · rename_i hpc
      split at h
      · obtain ⟨rfl, rfl⟩ := Machine.next_inj h
        exact .tooOften hpc
      · obtain ⟨rfl, rfl⟩ := Machine.next_inj h
        exact .count hpc (by omega)
    · cases h
  | read ok =>
    simp only [step] at h
    split at h
    · rename_i hpc
      cases ok with
      | true =>
        obtain ⟨data, hdata, hr⟩ := Option.map_eq_some_iff.mp h
        obtain ⟨rfl, rfl⟩ := Prod.mk.inj hr
        exact .read hpc hdata
      | false =>
        obtain ⟨rfl, rfl⟩ := Machine.next_inj h
        exact .unreadable hpc
    · cases h
  | create buf ok =>
    simp only [step] at h
    split at h
    · rename_i hpc
      cases ok with
      | true =>
        obtain ⟨rfl, rfl⟩ := Machine.next_inj h
        exact .create hpc
      | false =>
        obtain ⟨rfl, rfl⟩ := Machine.next_inj h
        exact .notCreated hpc
    · cases h
  | write n =>
    simp only [step] at h
    split at h
    · rename_i hpc
      obtain ⟨rfl, rfl⟩ := Machine.next_inj h
      exact .write hpc
    · cases h
  | writeFail =>
    simp only [step] at h
    split at h
    · rename_i hpc
      obtain ⟨rfl, rfl⟩ := Machine.next_inj h
      exact .writeFail hpc
    · cases h
  | written =>
    simp only [step] at h
    split at h
    · rename_i hpc
      obtain ⟨rfl, rfl⟩ := Machine.next_inj h
      exact .written hpc
    · cases h

/-- A read of a file that is there. -/
theorem step_read (lib : Primitives) {i : ℕ} {data : List UInt8} (hpc : s.pc = .read i)
    (hfile : s.file = some data) : (machine lib).step s (.read true) =
      some (⟨some data, .up (lib.serverSkHash data)⟩, .key (lib.serverSkHash data)) := by
  show step lib s (.read true) = _
  simp only [step, hpc, hfile, if_true, Option.map_some]

/-- What a successful read gives. -/
theorem key_of_read (h : (machine lib).step s (.read true) = some (s', .key k)) :
    ∃ i data, s.pc = .read i ∧ s.file = some data ∧ k = lib.serverSkHash data ∧
      s' = ⟨some data, .up k⟩ := by
  generalize hp : KeyOut.key k = p at h
  cases rule_of_step h with
  | @read i data hpc hdata =>
    obtain rfl := KeyOut.key.inj hp
    exact ⟨i, data, hpc, hdata, rfl, by rw [hdata]⟩

/-! ### Not too often -/

/-- The step reads the file. -/
def isRead : KeyAct → Bool
  | .read _ => true
  | _ => false

/-- The step begins or ends a server. -/
def isRestart : KeyAct → Bool
  | .start | .crash => true
  | _ => false

/-- What the loop has counted: the reads that have been made, and the one that is under way. -/
def Counted (reads : ℕ) (s : KeyFile) : Prop :=
  match s.pc with
  | .head i | .create i | .write i _ => reads = i ∧ i ≤ 9
  | .read i => reads + 1 = i ∧ i ≤ 9
  | .down | .up _ | .failed => reads ≤ 9

theorem Rule.counted {reads : ℕ} (h : Rule lib s a o s') (ha : isRestart a = false)
    (hs : Counted reads s) : Counted (reads + (if isRead a then 1 else 0)) s' := by
  unfold Counted at hs
  cases h with
  | start | crash => cases ha
  | count hpc hlt =>
    rw [hpc] at hs
    obtain ⟨rfl, -⟩ := hs
    exact ⟨rfl, hlt⟩
  | tooOften hpc | notCreated hpc | writeFail hpc =>
    rw [hpc] at hs
    obtain ⟨rfl, hle⟩ := hs
    exact hle
  | read hpc =>
    rw [hpc] at hs
    obtain ⟨rfl, hle⟩ := hs
    exact hle
  | unreadable hpc | create hpc | write hpc | written hpc =>
    rw [hpc] at hs
    exact hs

/-- **A start reads at most nine times.** -/
theorem reads_le_of_run (h : (machine lib).Run s tr s') (hs : s.pc = .head 0)
    (hstart : ∀ e ∈ tr, isRestart e.act = false) :
    (tr.filter fun e => isRead e.act).length ≤ 9 := by
  have hcounted : Counted (tr.filter fun e => isRead e.act).length s' := by
    refine h.induct (fun tr s' => (∀ e ∈ tr, isRestart e.act = false) →
      Counted (tr.filter fun e => isRead e.act).length s') (fun _ => ?_) ?_ hstart
    · rw [Counted, hs]
      exact ⟨rfl, Nat.zero_le _⟩
    · intro tr t a t' o _ ih hstep hstart
      obtain ⟨htr, ha⟩ := List.forall_mem_append.mp hstart
      have hnext := (rule_of_step hstep).counted (ha _ (List.mem_singleton_self _)) (ih htr)
      rw [List.filter_append, List.length_append, List.filter_singleton]
      cases hread : isRead a
      · simpa [hread] using hnext
      · simpa [hread] using hnext
  unfold Counted at hcounted
  split at hcounted <;> omega

/-! ### Always the same

Between two reads that succeed the file changes only if some start has failed to read it. That is
the whole argument, and it needs no bound on the number of starts. -/

/-- **As long as no read fails, every start gives the same key**, also after crashes at any time. -/
theorem stable (hread : (machine lib).step s (.read true) = some (s', .key k))
    (h : (machine lib).Run s' tr s'') (hreads : ∀ e ∈ tr, e.act ≠ .read false) {t : KeyFile}
    (hread' : (machine lib).step s'' (.read true) = some (t, .key k')) : k' = k := by
  obtain ⟨-, data, -, -, rfl, rfl⟩ := key_of_read hread
  -- nobody is about to write
  have hkept : s''.file = some data ∧ (∀ i, s''.pc ≠ .create i) ∧
      ∀ i rest, s''.pc ≠ .write i rest := by
    refine h.invariant_of (fun s => s.file = some data ∧ (∀ i, s.pc ≠ .create i) ∧
      ∀ i rest, s.pc ≠ .write i rest) (Q := fun e => e.act ≠ .read false)
      ⟨rfl, by simp, by simp⟩ ?_ hreads
    rintro u a u' o ⟨hfile, hcreate, hwrite⟩ hQ hs
    cases rule_of_step hs with
    | start | crash | count | tooOften | read | written => exact ⟨hfile, by simp, by simp⟩
    | unreadable => exact absurd rfl hQ
    | create hpc | notCreated hpc => exact absurd hpc (hcreate _)
    | write hpc | writeFail hpc => exact absurd hpc (hwrite _ _)
  obtain ⟨-, data', -, hfile, rfl, -⟩ := key_of_read hread'
  obtain rfl := Option.some.inj (hkept.1.symm.trans hfile)
  rfl

/-- The server crashes and is started again. -/
theorem stable_restarted :
    ∃ s' tr s'' t k k', (machine .null).step ⟨some [1, 2, 3], .read 1⟩ (.read true) =
        some (s', .key k) ∧ (machine .null).Run s' tr s'' ∧
      tr.map Event.act = [.crash, .start, .count] ∧
      (machine .null).step s'' (.read true) = some (t, .key k') ∧ k' = k := by
  have hread := step_read .null (s := ⟨some [1, 2, 3], .read 1⟩) rfl rfl
  obtain ⟨tr, s'', h, hacts, hpc, hfile, hreads⟩ := Machine.exists_run_of_exec (machine .null)
    ⟨some [1, 2, 3], .up (Primitives.null.serverSkHash [1, 2, 3])⟩ [.crash, .start, .count]
    (P := fun tr s => s.pc = .read 1 ∧ s.file = some [1, 2, 3] ∧
      ∀ e ∈ tr, isRead e.act = false) (by decide)
  have hread' := step_read .null hpc hfile
  refine ⟨_, tr, s'', _, _, _, hread, h, hacts, hread', stable hread h (fun e he hact => ?_) hread'⟩
  have := hreads e he
  rw [hact] at this
  cases this

/-! ### Where the key comes from -/

/-- The bytes were drawn in the run. -/
def Drew (tr : Trace) (buf : PreSk) : Prop := ∃ e ∈ tr, e.act = .create buf true

/-- No server has crashed or failed to write. -/
def Calm (tr : Trace) : Prop := ∀ e ∈ tr, e.act ≠ .crash ∧ e.act ≠ .writeFail

/-- What is in the file was drawn: all of it, unless it is being written or that was given up. -/
structure Origin (tr : Trace) (s : KeyFile) : Prop where
  file : ∀ data, s.file = some data → ∃ buf, Drew tr buf ∧ data <+: buf.val ∧
    (Calm tr → data = buf.val ∨ ∃ i rest, s.pc = .write i rest)
  write : ∀ i rest, s.pc = .write i rest → ∃ data buf, s.file = some data ∧ Drew tr buf ∧
    data ++ rest = buf.val

theorem Drew.snoc {buf : PreSk} (h : Drew tr buf) (e : Event KeyFile KeyAct KeyOut) :
    Drew (tr ++ [e]) buf := by
  obtain ⟨f, hf, hact⟩ := h
  exact ⟨f, List.mem_append_left _ hf, hact⟩

theorem Calm.of_snoc {e : Event KeyFile KeyAct KeyOut} (h : Calm (tr ++ [e])) : Calm tr :=
  fun f hf => h f (List.mem_append_left _ hf)

/-- A step that leaves the file alone and that ends no write but by giving up. -/
theorem Origin.of_file_eq (h : Origin tr s) (e : Event KeyFile KeyAct KeyOut)
    (hfile : s'.file = s.file) (hpc' : ∀ i rest, s'.pc ≠ .write i rest)
    (hpc : (∀ i rest, s.pc ≠ .write i rest) ∨ ¬ Calm (tr ++ [e])) : Origin (tr ++ [e]) s' where
  file := by
    intro data hdata
    obtain ⟨buf, hdrew, hprefix, hcalm⟩ := h.file data (hfile.symm.trans hdata)
    refine ⟨buf, hdrew.snoc e, hprefix, fun hc => ?_⟩
    rcases hcalm hc.of_snoc with hall | ⟨i, rest, hw⟩
    · exact .inl hall
    · rcases hpc with hno | hno
      · exact absurd hw (hno i rest)
      · exact absurd hc hno
  write := fun i rest hw => absurd hw (hpc' i rest)

theorem Origin.step (h : Origin tr s) (hr : Rule lib s a o s') :
    Origin (tr ++ [⟨s, a, o, s'⟩]) s' := by
  have hlast : (⟨s, a, o, s'⟩ : Event _ _ _) ∈ tr ++ [⟨s, a, o, s'⟩] :=
    List.mem_append_right _ (List.mem_singleton_self _)
  cases hr with
  | start hpc =>
    refine h.of_file_eq _ rfl (by simp) (.inl fun i rest => ?_)
    rcases hpc with hpc | hpc
    · simp [hpc]
    · simp [hpc]
  | count hpc | tooOften hpc | read hpc | unreadable hpc | notCreated hpc =>
    exact h.of_file_eq _ rfl (by simp) (.inl (by simp [hpc]))
  | crash => exact h.of_file_eq _ rfl (by simp) (.inr fun hc => (hc _ hlast).1 rfl)
  | writeFail => exact h.of_file_eq _ rfl (by simp) (.inr fun hc => (hc _ hlast).2 rfl)
  | @create i buf hpc =>
    have hdrew : Drew (tr ++ [⟨s, .create buf true, .tau, ⟨some [], .write i buf.val⟩⟩]) buf :=
      ⟨_, hlast, rfl⟩
    constructor
    · intro data hdata
      obtain rfl := Option.some.inj hdata
      exact ⟨buf, hdrew, List.nil_prefix, fun _ => .inr ⟨_, _, rfl⟩⟩
    · intro j rest hw
      obtain ⟨rfl, rfl⟩ := KeyPc.write.inj hw
      exact ⟨[], buf, rfl, hdrew, rfl⟩
  | @write i n rest hpc =>
    obtain ⟨data, buf, hfile, hdrew, hall⟩ := h.write i rest hpc
    have hsplit : data ++ rest.take n ++ rest.drop n = buf.val := by
      rw [List.append_assoc, List.take_append_drop, hall]
    have hnew : s.file.map (· ++ rest.take n) = some (data ++ rest.take n) := by
      rw [hfile]
      rfl
    constructor
    · intro data' hdata'
      obtain rfl := Option.some.inj (hnew.symm.trans hdata')
      exact ⟨buf, hdrew.snoc _, ⟨_, hsplit⟩, fun _ => .inr ⟨_, _, rfl⟩⟩
    · intro j rest' hw
      obtain ⟨rfl, rfl⟩ := KeyPc.write.inj hw
      exact ⟨_, buf, hnew, hdrew.snoc _, hsplit⟩
  | written hpc =>
    obtain ⟨data, buf, hfile, hdrew, hall⟩ := h.write _ [] hpc
    rw [List.append_nil] at hall
    constructor
    · intro data' hdata'
      obtain rfl := Option.some.inj (hfile.symm.trans hdata')
      exact ⟨buf, hdrew.snoc _, hall ▸ List.prefix_rfl, fun _ => .inl hall⟩
    · intro j rest hw
      cases hw

/-- **Where the key comes from.** When there was no key file, the key that a server gets is the hash
of bytes that were drawn, or of the first ones of them. They are all of the bytes drawn, so at least
2048, unless a server crashed or failed to write before. -/
theorem origin (h : (machine lib).Run ⟨none, .down⟩ tr s)
    (hread : (machine lib).step s (.read true) = some (s', .key k)) :
    ∃ buf data, Drew tr buf ∧ data <+: buf.val ∧ k = lib.serverSkHash data ∧
      (Calm tr → data = buf.val) := by
  have horigin : Origin tr s := by
    refine h.induct Origin ⟨?_, ?_⟩ fun _ _ _ _ _ _ hi hs => hi.step (rule_of_step hs)
    · intro data hdata
      cases hdata
    · intro i rest hw
      cases hw
  obtain ⟨i, data, hpc, hfile, hk, -⟩ := key_of_read hread
  obtain ⟨buf, hdrew, hprefix, hcalm⟩ := horigin.file data hfile
  refine ⟨buf, data, hdrew, hprefix, hk, fun hc => (hcalm hc).resolve_right ?_⟩
  rintro ⟨j, rest, hw⟩
  rw [hpc] at hw
  cases hw

/-- The server crashes when it has written three bytes. -/
theorem origin_crashed :
    ∃ tr s s' k buf data, (machine .null).Run ⟨none, .down⟩ tr s ∧
      (machine .null).step s (.read true) = some (s', .key k) ∧ s.file = some [0, 0, 0] ∧
      Drew tr buf ∧ data <+: buf.val ∧ k = Primitives.null.serverSkHash data := by
  obtain ⟨tr, s, h, -, hpc, hfile⟩ := Machine.exists_run_of_exec (machine .null) ⟨none, .down⟩
    [.start, .count, .read false, .create .zero true, .write 3, .crash, .start, .count]
    (P := fun _ s => s.pc = .read 1 ∧ s.file = some [0, 0, 0]) (by decide)
  have hread := step_read .null hpc hfile
  obtain ⟨buf, data, hdrew, hprefix, hk, -⟩ := origin h hread
  exact ⟨tr, s, _, _, buf, data, h, hread, hfile, hdrew, hprefix, hk⟩

end KeyFile

end ObfsWs
