import ObfsWs.Pipe.Invariant
import Mathlib.Algebra.Order.Group.Multiset
import Mathlib.Tactic.Abel

/-!
# The read side

What the reads of a pipe return, against what `recv_loop` put into the `inner_recv` channel. With
one handle the bytes keep their order, and the equation is one of lists. The handles of a cloned
pipe share the channel and not the leftover, and the equation is one of multisets.

## The two conditions

A read loses bytes in exactly one way, `DrainsInVain`: the leftover is not empty and fits the
buffer, and the channel has nothing. A clone makes bytes appear twice in exactly one way,
`CopiesLeftover`: the handle that is cloned has a leftover. Both are conditions on the state
before the step and on its arguments. The theorems are equivalences over whole runs: as long as no
step of the run meets the condition, everything is as it should be at every moment, and the first
step that does meet it destroys it there and then.

For the end of the stream there is nothing to accumulate, so `eosExact_iff` is about one call in
any state, reachable or not.

## Main definitions

* `puts`, `returned` — the histories of the read side
* `Pipe.ReadRule` — what a step does to the read side
* `Pipe.DrainsInVain`, `Pipe.CopiesLeftover` — the steps that lose and duplicate bytes

## Main results

* `Pipe.readExact_iff` — one handle returns exactly what is received as long as none drains in vain
* `Pipe.heldOnce_iff` — so do any number of handles, as long as no leftover is copied either
* `Pipe.eosExact_iff` — when a read reports the end of the stream exactly

## Implementation notes

Bytes are of any type `β`. For the equation of lists this is only a convenience, but the equation
of multisets would be weak over bytes, since equal ones could be exchanged; over a type with a tag
on every element it says which byte is where.

`ReadRule` folds the rules of a pipe into what they do to the read side, so the inductions of this
file have a few cases and not one for each rule.
-/

namespace ObfsWs

variable {β : Type}

/-- The message that a step put into `inner_recv`. -/
def Out.puts : Out β → List (List β)
  | .put msg _ => [msg]
  | _ => []

/-- The bytes that a step returned to a reader: `buf[..n]` of `Ready(Ok(n))`. -/
def Out.returns : Out β → List β
  | .read (.ready (.ok n)) buf => buf.take n
  | _ => []

/-- The action clones a handle. -/
def Act.clones : Act β → Bool
  | .clone _ => true
  | _ => false

/-- The action drops a handle. -/
def Act.drops : Act β → Bool
  | .drop _ => true
  | _ => false

/-- The action neither clones nor drops a handle. -/
def Act.keepsHandles (a : Act β) : Bool := !a.clones && !a.drops

/-- The messages that `recv_loop` put into its channel, in order. -/
def puts (tr : Trace β) : List (List β) := tr.flatMap fun e => e.out.puts

/-- The bytes that the reads returned, in order. -/
def returned (tr : Trace β) : List β := tr.flatMap fun e => e.out.returns

@[simp] theorem puts_nil : puts ([] : Trace β) = [] := rfl

@[simp] theorem returned_nil : returned ([] : Trace β) = [] := rfl

@[simp] theorem puts_snoc (tr : Trace β) (e : Event (Pipe β) (Act β) (Out β)) :
    puts (tr ++ [e]) = puts tr ++ e.out.puts := by simp [puts]

@[simp] theorem returned_snoc (tr : Trace β) (e : Event (Pipe β) (Act β) (Out β)) :
    returned (tr ++ [e]) = returned tr ++ e.out.returns := by simp [returned]

theorem returned_read {ω : Type} (r : ReadResult β ω) :
    Out.returns (.read r.res r.buf) = r.bytes := by
  obtain ⟨res, recvBuf, ch, buf⟩ := r
  cases res with
  | pending => rfl
  | ready x => cases x <;> rfl

namespace Pipe

variable {p p' : Pipe β} {a : Act β} {o : Out β}

/-- The leftovers, handle by handle; a dropped handle has none. -/
def bufs (p : Pipe β) : List (List β) :=
  p.handles.map fun hd => (hd.map Handle.recvBuf).getD []

theorem bufs_of_handle {h : ℕ} {hd : Handle β} (hh : p.handle? h = some hd) :
    (bufs p)[h]? = some hd.recvBuf := by
  rw [bufs, List.getElem?_map, getElem?_of_handle hh]
  rfl

@[simp] theorem bufs_setHandle (p : Pipe β) (h : ℕ) (hd : Handle β) :
    bufs (p.setHandle h hd) = (bufs p).set h hd.recvBuf := by
  simp [bufs, setHandle]

/-- Putting back what was there changes nothing. -/
theorem bufs_setHandle_self {h : ℕ} {recvBuf : List β} {w w' : Option (List β)}
    (hh : p.handle? h = some ⟨recvBuf, w⟩) : bufs (p.setHandle h ⟨recvBuf, w'⟩) = bufs p := by
  rw [bufs_setHandle]
  obtain ⟨hlt, hget⟩ := List.getElem?_eq_some_iff.mp (bufs_of_handle hh)
  rw [← hget]
  exact List.set_getElem_self hlt

/-- A pipe with one handle has the handle 0. -/
theorem handle_of_single {x : List β} {h : ℕ} {hd : Handle β} (hx : bufs p = [x])
    (hh : p.handle? h = some hd) : h = 0 ∧ x = hd.recvBuf := by
  have hget := bufs_of_handle hh
  rw [hx] at hget
  obtain _ | n := h
  · exact ⟨rfl, by simpa using hget⟩
  · simp at hget

/-- What a step does to the read side: the leftovers and the queue of `inner_recv`. -/
inductive ReadRule (p : Pipe β) : Act β → Out β → Pipe β → Prop
  | quiet {a : Act β} {o : Out β} {p' : Pipe β} : (∀ h ctx buf, a ≠ .pollRead h ctx buf) →
      (∀ h, a ≠ .clone h) → o.puts = [] → o.returns = [] → bufs p' = bufs p →
      p'.innerRecv.queue = p.innerRecv.queue → ReadRule p a o p'
  | put {msg : List β} {woken : List Waker} {p' : Pipe β} : bufs p' = bufs p →
      p'.innerRecv.queue = p.innerRecv.queue ++ [msg] → ReadRule p .recvSend (.put msg woken) p'
  | read {h : ℕ} {ctx : Waker} {buf : List β} {hd : Handle β} {r : ReadResult β Waker}
      {p' : Pipe β} : p.handle? h = some hd →
      r = readOutcome hd.recvBuf p.innerRecv buf → bufs p' = (bufs p).set h r.recvBuf →
      p'.innerRecv.queue = r.chan.queue →
      ReadRule p (.pollRead h ctx buf) (.read r.res r.buf) p'
  | clone {h : ℕ} {hd : Handle β} {p' : Pipe β} : p.handle? h = some hd →
      bufs p' = bufs p ++ [hd.recvBuf] → p'.innerRecv.queue = p.innerRecv.queue →
      ReadRule p (.clone h) .tau p'
  | drop {h : ℕ} {p' : Pipe β} : bufs p' = (bufs p).set h [] →
      p'.innerRecv.queue = p.innerRecv.queue → ReadRule p (.drop h) .tau p'

theorem readRule_of_rule (hr : Rule p a o p') : ReadRule p a o p' := by
  cases hr with
  | read hh hr => exact .read hh hr (by subst hr; simp [bufs, setHandle]) rfl
  | recvPut _ _ hsend => exact .put rfl (Chan.trySend_ok hsend).2.2.1
  | clone hh => exact .clone hh (by simp [bufs]) rfl
  | drop _ hp' _ => exact .drop (by simp [hp', bufs]) (by rw [hp'])
  | dropLast _ hp' _ => exact .drop (by simp [hp', bufs]) rfl
  | writeEnter hh _ =>
    exact .quiet (by simp) (by simp) rfl rfl (bufs_setHandle_self hh) rfl
  | writeLost hh _ => exact .quiet (by simp) (by simp) rfl rfl (bufs_setHandle_self hh) rfl
  | writeStored hh _ => exact .quiet (by simp) (by simp) rfl rfl (bufs_setHandle_self hh) rfl
  | _ => exact .quiet (by simp) (by simp) rfl rfl rfl rfl

/-! ### One handle

With one handle the leftovers are one list, and the order of the bytes is the order of arrival. -/

/-- The bytes returned, the leftover and the queue are the bytes received, in order. -/
def ReadExact (tr : Trace β) (p : Pipe β) : Prop :=
  returned tr ++ (bufs p).flatten ++ p.innerRecv.queue.flatten = (puts tr).flatten

/-- The action is a `poll_read` that copies a whole non-empty leftover into its buffer and then
finds the channel empty. -/
def DrainsInVain (p : Pipe β) : Act β → Prop
  | .pollRead h _ buf => ∃ hd ∈ p.handle? h,
      hd.recvBuf ≠ [] ∧ hd.recvBuf.length ≤ buf.length ∧ p.innerRecv.queue = []
  | _ => False

instance : DecidablePred (DrainsInVain p) := fun a => by
  cases a <;> unfold DrainsInVain <;> infer_instance

theorem not_drainsInVain (h : ∀ h ctx buf, a ≠ .pollRead h ctx buf) : ¬ DrainsInVain p a := by
  cases a with
  | pollRead => exact absurd rfl (h _ _ _)
  | _ => exact id

theorem bufs_length_of_rule (hk : a.keepsHandles = true) (hr : Rule p a o p') :
    (bufs p').length = (bufs p).length := by
  cases readRule_of_rule hr with
  | quiet _ _ _ _ hb _ => rw [hb]
  | put hb _ => rw [hb]
  | read _ _ hb _ => rw [hb, List.length_set]
  | clone => cases hk
  | drop => cases hk

/-- A pipe whose handles are kept has one handle. -/
theorem bufs_length_of_run {u md : String} {tr : Trace β}
    (h : (machine β).Run (new u md) tr p) (hk : ∀ e ∈ tr, e.act.keepsHandles = true) :
    (bufs p).length = 1 := by
  refine h.invariant_of (fun q => (bufs q).length = 1) rfl (fun t a t' o hi hQ hs => ?_) hk
  rw [bufs_length_of_rule hQ (rule_of_step hs), hi]

/-- What a read that is not in vain leaves, is what it found. -/
theorem conserves_of_not_vain {h : ℕ} {ctx : Waker} {buf : List β} {hd : Handle β}
    (hh : p.handle? h = some hd) (hv : ¬ DrainsInVain p (.pollRead h ctx buf)) :
    (readOutcome hd.recvBuf p.innerRecv buf).bytes ++
        (readOutcome hd.recvBuf p.innerRecv buf).recvBuf ++
        (readOutcome hd.recvBuf p.innerRecv buf).chan.queue.flatten =
      hd.recvBuf ++ p.innerRecv.queue.flatten := by
  refine readOutcome_conserves fun hfit => ?_
  by_contra hcon
  push Not at hcon
  exact hv ⟨hd, hh, hcon.1, hfit, hcon.2⟩

/-- One step of the read side of one handle. -/
theorem readExact_step {tr : Trace β} (hb : (bufs p).length = 1)
    (hk : a.keepsHandles = true) (hp : ReadExact tr p) (hr : ReadRule p a o p') :
    ReadExact (tr ++ [⟨p, a, o, p'⟩]) p' ↔ ¬ DrainsInVain p a := by
  obtain ⟨x, hx⟩ := List.length_eq_one_iff.mp hb
  rw [ReadExact, hx, List.flatten_singleton] at hp
  rw [ReadExact, returned_snoc, puts_snoc]
  cases hr with
  | quiet hread _ hput hret hbufs hq =>
    have hv := not_drainsInVain (p := p) hread
    simp only [hput, hret, hbufs, hq, hx, List.append_nil, List.flatten_singleton, hp, hv,
      not_false_eq_true]
  | @put msg woken _ hbufs hq =>
    have hv : ¬ DrainsInVain p .recvSend := id
    simp only [Out.puts, Out.returns, hbufs, hq, hx, List.append_nil, List.flatten_singleton,
      List.flatten_append, ← hp, hv, List.append_assoc, not_false_eq_true]
  | @read h ctx buf hd r _ hh hr hbufs hq =>
    obtain ⟨rfl, rfl⟩ := handle_of_single hx hh
    rw [returned_read, hbufs, hq, hx, List.set_cons_zero, List.flatten_singleton]
    subst hr
    simp only [Out.puts, List.append_nil, ← hp]
    by_cases hv : DrainsInVain p (.pollRead 0 ctx buf)
    · -- the leftover was copied out and cleared, and nothing is returned for it
      obtain ⟨hd', hh', hne, hfit, hempty⟩ := id hv
      obtain rfl : hd = hd' := Option.some.inj (hh.symm.trans hh')
      rw [bytes_vain hfit hempty, readOutcome_vain hfit hempty]
      simp [hempty, hne, hv]
    · have hcons := conserves_of_not_vain hh hv
      simp only [hv, not_false_eq_true, iff_true]
      rw [List.append_assoc (returned tr), List.append_assoc (returned tr), hcons,
        List.append_assoc]
  | clone => cases hk
  | drop => cases hk

/-- **The read side is exact as long as no read drains the leftover in vain.** A run of one
handle returns, holds and queues exactly the received bytes in order, at every moment, if and
only if none of its reads finds a non-empty leftover that fits the buffer and an empty channel. -/
theorem readExact_iff {u md : String} {tr : Trace β} (h : (machine β).Run (new u md) tr p)
    (hk : ∀ e ∈ tr, e.act.keepsHandles = true) :
    (machine β).Always (new u md) ReadExact tr ↔ ∀ e ∈ tr, ¬ DrainsInVain e.pre e.act := by
  refine h.always_iff (Q := fun e => e.act.keepsHandles = true) rfl ?_ hk
  intro tr t a t' o hrun hktr hka hp hs
  exact readExact_step (bufs_length_of_run hrun hktr) hka hp (readRule_of_rule (rule_of_step hs))

/-- `[1, 2, 3]` arrives and is queued. -/
def arrival : List (Act UInt8) :=
  [.recvHead, .arrive (some (.ok (.binary [1, 2, 3]))), .recvNext, .recvSend]

/-- A read of two bytes and a read of one return the three bytes. -/
theorem readExact_iff_arrival :
    ∃ (tr : Trace UInt8) (p : Pipe UInt8), (machine UInt8).Run (new "" "") tr p ∧
      returned tr = [1, 2, 3] ∧ (machine UInt8).Always (new "" "") ReadExact tr := by
  obtain ⟨tr, p, hrun, -, hret, hk, hv⟩ :=
    Machine.exists_run_of_exec (machine UInt8) (new "" "")
      (arrival ++ [.pollRead 0 .task [0, 0], .recvHead, .pollRead 0 .task [],
        .arrive (some (.ok (.binary []))), .recvNext, .recvSend, .pollRead 0 .task [0]])
      (P := fun tr _ => returned tr = [1, 2, 3] ∧ (∀ e ∈ tr, e.act.keepsHandles = true) ∧
        ∀ e ∈ tr, ¬ DrainsInVain e.pre e.act) (by decide)
  exact ⟨tr, p, hrun, hret, (readExact_iff hrun hk).mpr hv⟩

/-- A byte is lost in a run of one handle: after a read of two bytes a read of four copies the
leftover out and returns `Pending`. -/
theorem readExact_fails :
    ∃ (tr : Trace UInt8) (p : Pipe UInt8), (machine UInt8).Run (new "" "") tr p ∧
      (∀ e ∈ tr, e.act.keepsHandles = true) ∧ ¬ ReadExact tr p := by
  obtain ⟨tr, p, hrun, -, hk, hfail⟩ :=
    Machine.exists_run_of_exec (machine UInt8) (new "" "")
      (arrival ++ [.pollRead 0 .task [0, 0], .pollRead 0 .task [0, 0, 0, 0]])
      (P := fun tr p => (∀ e ∈ tr, e.act.keepsHandles = true) ∧ ¬ ReadExact tr p)
      (by unfold ReadExact; decide)
  exact ⟨tr, p, hrun, hk, hfail⟩

/-! ### Any number of handles

Between handles the order of the bytes is not fixed, so what is kept is how often each byte is
there. -/

/-- Every received byte has been returned once or is held once, over all leftovers and the
channel. -/
def HeldOnce (tr : Trace β) (p : Pipe β) : Prop :=
  (returned tr : Multiset β) + (bufs p).flatten + p.innerRecv.queue.flatten = (puts tr).flatten

/-- The action clones a handle that has a leftover. -/
def CopiesLeftover (p : Pipe β) : Act β → Prop
  | .clone h => ∃ hd ∈ p.handle? h, hd.recvBuf ≠ []
  | _ => False

instance : DecidablePred (CopiesLeftover p) := fun a => by
  cases a <;> unfold CopiesLeftover <;> infer_instance

theorem not_copiesLeftover (h : ∀ h, a ≠ .clone h) : ¬ CopiesLeftover p a := by
  cases a with
  | clone => exact absurd rfl (h _)
  | _ => exact id

/-- Exchanging one of many lists exchanges its elements. -/
theorem flatten_set {l : List (List β)} {i : ℕ} {x : List β} (hx : l[i]? = some x) :
    ∃ m : Multiset β, (l.flatten : Multiset β) = m + x ∧
      ∀ y, ((l.set i y).flatten : Multiset β) = m + y := by
  obtain ⟨hlt, rfl⟩ := List.getElem?_eq_some_iff.mp hx
  refine ⟨((l.take i).flatten ++ (l.drop (i + 1)).flatten : List β), ?_, fun y => ?_⟩
  · conv_lhs => rw [← List.take_append_drop i l, List.drop_eq_getElem_cons hlt]
    simp only [List.flatten_append, List.flatten_cons, ← Multiset.coe_add]
    abel
  · rw [List.set_eq_take_append_cons_drop, if_pos hlt]
    simp only [List.flatten_append, List.flatten_cons, ← Multiset.coe_add]
    abel

/-- One step of the read side of any number of handles. -/
theorem heldOnce_step {tr : Trace β} (hdrop : a.drops = false) (hp : HeldOnce tr p)
    (hr : ReadRule p a o p') :
    HeldOnce (tr ++ [⟨p, a, o, p'⟩]) p' ↔ ¬ DrainsInVain p a ∧ ¬ CopiesLeftover p a := by
  rw [HeldOnce] at hp
  rw [HeldOnce, returned_snoc, puts_snoc]
  cases hr with
  | quiet hread hclone hput hret hbufs hq =>
    have hv := not_drainsInVain (p := p) hread
    have hc := not_copiesLeftover (p := p) hclone
    simp only [hput, hret, hbufs, hq, List.append_nil, hp, hv, hc, not_false_eq_true, and_self]
  | @put msg woken _ hbufs hq =>
    have hv : ¬ DrainsInVain p .recvSend := id
    have hc : ¬ CopiesLeftover p .recvSend := id
    simp only [Out.puts, Out.returns, hbufs, hq, List.append_nil, List.flatten_append,
      List.flatten_singleton, ← Multiset.coe_add, ← hp, hv, hc, add_assoc, not_false_eq_true,
      and_self]
  | @read h ctx buf hd r _ hh hr hbufs hq =>
    have hc : ¬ CopiesLeftover p (.pollRead h ctx buf) := id
    obtain ⟨m, hm, hm'⟩ := flatten_set (bufs_of_handle hh)
    rw [returned_read, hbufs, hq]
    simp only [Out.puts, List.append_nil, ← Multiset.coe_add, hm', ← hp, hm, hc,
      not_false_eq_true, and_true]
    by_cases hv : DrainsInVain p (.pollRead h ctx buf)
    · obtain ⟨hd', hh', hne, hfit, hempty⟩ := id hv
      obtain rfl : hd = hd' := Option.some.inj (hh.symm.trans hh')
      have hpos : hd.recvBuf.length ≠ 0 := fun h0 => hne (List.eq_nil_of_length_eq_zero h0)
      rw [hr, bytes_vain hfit hempty, readOutcome_vain hfit hempty]
      simp only [hv, not_true_eq_false, iff_false]
      intro heq
      have hcard := congrArg Multiset.card heq
      simp only [Multiset.coe_nil, add_zero, hempty, List.flatten_nil, Multiset.card_add,
        Multiset.coe_card] at hcard
      omega
    · have hcons := congrArg (fun l : List β => (l : Multiset β)) (conserves_of_not_vain hh hv)
      simp only [← hr, ← Multiset.coe_add] at hcons
      simp only [hv, not_false_eq_true, iff_true]
      calc (returned tr : Multiset β) + r.bytes + (m + r.recvBuf) + r.chan.queue.flatten
          = returned tr + m + (r.bytes + r.recvBuf + r.chan.queue.flatten) := by abel
        _ = returned tr + (m + hd.recvBuf) + p.innerRecv.queue.flatten := by rw [hcons]; abel
  | @clone h hd _ hh hbufs hq =>
    have hv : ¬ DrainsInVain p (.clone h) := id
    have hcopy : CopiesLeftover p (.clone h) ↔ hd.recvBuf ≠ [] := by
      constructor
      · rintro ⟨hd', hh', hne⟩
        obtain rfl : hd = hd' := Option.some.inj (hh.symm.trans hh')
        exact hne
      · exact fun hne => ⟨hd, hh, hne⟩
    simp only [Out.puts, Out.returns, hbufs, hq, List.append_nil, List.flatten_append,
      List.flatten_singleton, ← Multiset.coe_add, ← hp, hv, hcopy, not_false_eq_true, true_and,
      not_not]
    constructor
    · intro heq
      have hcard := congrArg Multiset.card heq
      simp only [Multiset.card_add, Multiset.coe_card] at hcard
      exact List.eq_nil_of_length_eq_zero (by omega)
    · intro hnil
      simp [hnil]
  | drop => cases hdrop

/-- **No byte is duplicated as long as no leftover is copied.** Over all handles of a pipe, every
received byte is at every moment either returned once or held once, if and only if no handle is
cloned while it has a leftover and no read drains a leftover in vain. -/
theorem heldOnce_iff {u md : String} {tr : Trace β} (h : (machine β).Run (new u md) tr p)
    (hdrop : ∀ e ∈ tr, e.act.drops = false) :
    (machine β).Always (new u md) HeldOnce tr ↔
      ∀ e ∈ tr, ¬ DrainsInVain e.pre e.act ∧ ¬ CopiesLeftover e.pre e.act := by
  refine h.always_iff (Q := fun e => e.act.drops = false) rfl ?_ hdrop
  intro tr t a t' o _ _ hda hp hs
  exact heldOnce_step hda hp (readRule_of_rule (rule_of_step hs))

/-- A clone taken without a leftover: two handles share the stream. -/
theorem heldOnce_iff_shared :
    ∃ (tr : Trace UInt8) (p : Pipe UInt8), (machine UInt8).Run (new "" "") tr p ∧
      returned tr = [1, 2, 3] ∧ (machine UInt8).Always (new "" "") HeldOnce tr := by
  obtain ⟨tr, p, hrun, -, hret, hd, hv⟩ :=
    Machine.exists_run_of_exec (machine UInt8) (new "" "")
      (arrival ++ [.clone 0, .pollRead 1 .task [0, 0, 0], .pollRead 0 .task [0]])
      (P := fun tr _ => returned tr = [1, 2, 3] ∧ (∀ e ∈ tr, e.act.drops = false) ∧
        ∀ e ∈ tr, ¬ DrainsInVain e.pre e.act ∧ ¬ CopiesLeftover e.pre e.act) (by decide)
  exact ⟨tr, p, hrun, hret, (heldOnce_iff hrun hd).mpr hv⟩

/-- A handle cloned with the leftover `[2, 3]`: both handles return it. -/
theorem heldOnce_fails :
    ∃ (tr : Trace UInt8) (p : Pipe UInt8), (machine UInt8).Run (new "" "") tr p ∧
      (∀ e ∈ tr, e.act.drops = false) ∧ (puts tr).flatten = [1, 2, 3] ∧
      returned tr = [1, 2, 3, 2, 3] ∧ ¬ HeldOnce tr p := by
  obtain ⟨tr, p, hrun, -, h⟩ :=
    Machine.exists_run_of_exec (machine UInt8) (new "" "")
      (arrival ++ [.pollRead 0 .task [0], .recvHead, .arrive (some (.ok (.binary []))),
        .recvNext, .recvSend, .clone 0, .pollRead 0 .task [0, 0], .recvHead,
        .arrive (some (.ok (.binary []))), .recvNext, .recvSend, .pollRead 1 .task [0, 0]])
      (P := fun tr p => (∀ e ∈ tr, e.act.drops = false) ∧ (puts tr).flatten = [1, 2, 3] ∧
        returned tr = [1, 2, 3, 2, 3] ∧ ¬ HeldOnce tr p) (by unfold HeldOnce; decide)
  exact ⟨tr, p, hrun, h⟩

/-! ### The end of the stream -/

/-- `recv_loop` has stopped and its sender is gone. -/
def RecvEnded (p : Pipe β) : Prop := p.recvLoop = .returned ∧ p.innerRecv.closed = true

/-- Nothing received is left for a handle with this leftover. -/
def Drained (p : Pipe β) (hd : Handle β) : Prop :=
  hd.recvBuf = [] ∧ p.innerRecv.queue.flatten = []

/-- `Ok(0)` means the end with nothing left, and at the end with nothing left the read returns. -/
def EosExact (p : Pipe β) (hd : Handle β) (res : Poll (Except ErrorKind ℕ)) : Prop :=
  (res = .ready (.ok 0) → RecvEnded p ∧ Drained p hd) ∧
    (RecvEnded p ∧ Drained p hd → res ≠ .pending)

/-- An empty message is next, with no leftover before it, and it is not all there is at the
end. -/
def MeetsEmpty (p : Pipe β) (hd : Handle β) : Prop :=
  hd.recvBuf = [] ∧ p.innerRecv.queue.head? = some [] ∧ ¬ (RecvEnded p ∧ Drained p hd)

/-- The receive side has ended, and neither a leftover nor a message is there. -/
def ComesLate (p : Pipe β) (hd : Handle β) : Prop :=
  hd.recvBuf = [] ∧ p.innerRecv.queue = [] ∧ RecvEnded p

instance : Decidable (RecvEnded p) :=
  decidable_of_iff (p.recvLoop.gone = true ∧ p.innerRecv.closed = true)
    (by rw [RecvPc.gone_iff, RecvEnded])

instance (hd : Handle β) : Decidable (Drained p hd) := inferInstanceAs (Decidable (_ ∧ _))

instance (hd : Handle β) (res : Poll (Except ErrorKind ℕ)) : Decidable (EosExact p hd res) :=
  inferInstanceAs (Decidable ((_ → _) ∧ (_ → ¬ _)))

/-- When a read into a non-empty buffer returns `Ok(0)`. -/
theorem res_eq_zero_iff {recvBuf buf : List β} {ch : Chan (List β) Waker} (hne : buf ≠ []) :
    (readOutcome recvBuf ch buf).res = .ready (.ok 0) ↔
      recvBuf = [] ∧ ch.queue.head? = some [] := by
  have hpos : 0 < buf.length := List.length_pos_iff.mpr hne
  by_cases hlong : buf.length < recvBuf.length
  · rw [readOutcome_long ch hlong]
    have hrecv : recvBuf ≠ [] := by
      rintro rfl
      simp at hlong
    simp [hrecv, hne]
  · have hfit := Nat.le_of_not_lt hlong
    cases hr : ch.tryRecv with
    | error e =>
      have hq := (Chan.tryRecv_error_iff.mp hr).1
      rw [readOutcome_vain hfit hq]
      simp [hq]
    | ok m =>
      obtain ⟨msg, ch'⟩ := m
      rw [readOutcome_next hfit hr, (Chan.tryRecv_ok hr).1]
      simp only [Poll.ready.injEq, Except.ok.injEq, List.length_eq_zero_iff,
        List.append_eq_nil_iff, List.take_eq_nil_iff, List.head?_cons, Option.some.injEq]
      constructor
      · rintro ⟨rfl, hz | rfl⟩
        · simp only [List.length_nil, Nat.sub_zero] at hz
          omega
        · exact ⟨rfl, rfl⟩
      · rintro ⟨rfl, rfl⟩
        exact ⟨rfl, .inr rfl⟩

/-- When a read returns `Pending`. -/
theorem res_eq_pending_iff {recvBuf buf : List β} {ch : Chan (List β) Waker} :
    (readOutcome recvBuf ch buf).res = .pending ↔
      recvBuf.length ≤ buf.length ∧ ch.queue = [] := by
  by_cases hlong : buf.length < recvBuf.length
  · rw [readOutcome_long ch hlong]
    simp [hlong]
  · have hfit := Nat.le_of_not_lt hlong
    cases hr : ch.tryRecv with
    | error e =>
      have hq := (Chan.tryRecv_error_iff.mp hr).1
      rw [readOutcome_vain hfit hq]
      simp [hq, hfit]
    | ok m =>
      rw [readOutcome_next hfit hr, (Chan.tryRecv_ok hr).1]
      simp

/-- **The end of the stream is reported exactly** by a read into a non-empty buffer, unless an
empty message is next while more is to come, or the read comes after the end with nothing left. -/
theorem eosExact_iff {h : ℕ} {hd : Handle β} {ctx : Waker} {buf buf' : List β}
    {res : Poll (Except ErrorKind ℕ)} (hh : p.handle? h = some hd) (hne : buf ≠ [])
    (hs : (machine β).step p (.pollRead h ctx buf) = some (p', .read res buf')) :
    EosExact p hd res ↔ ¬ MeetsEmpty p hd ∧ ¬ ComesLate p hd := by
  have hres : res = (readOutcome hd.recvBuf p.innerRecv buf).res := by
    generalize ho : Out.read res buf' = o at hs
    cases rule_of_step hs with
    | read hh' hr =>
      obtain rfl := Option.some.inj (hh.symm.trans hh')
      cases ho
      rw [hr]
  rw [EosExact, MeetsEmpty, ComesLate, hres, res_eq_zero_iff hne, Ne, res_eq_pending_iff]
  constructor
  · rintro ⟨h0, h1⟩
    refine ⟨fun ⟨hb, hq, hn⟩ => hn (h0 ⟨hb, hq⟩), fun ⟨hb, hq, he⟩ => ?_⟩
    exact h1 ⟨he, hb, by simp [hq]⟩ ⟨by simp [hb], hq⟩
  · rintro ⟨h0, h1⟩
    refine ⟨fun ⟨hb, hq⟩ => ?_, fun ⟨he, hb, _⟩ ⟨_, hq⟩ => h1 ⟨hb, hq, he⟩⟩
    by_contra hn
    exact h0 ⟨hb, hq, hn⟩

/-- A byte, an empty message and the end: when the byte has been read, the next read returns
`Ok(0)`, and that is the end. -/
theorem eosExact_iff_end :
    ∃ (tr : Trace UInt8) (p p' : Pipe UInt8) (hd : Handle UInt8),
      (machine UInt8).Run (new "" "") tr p ∧ (tr.map Event.out).getLast? =
        some (.read (.ready (.ok 1)) [7]) ∧ p.handle? 0 = some hd ∧
      (machine UInt8).step p (.pollRead 0 .task [0]) = some (p', .read (.ready (.ok 0)) [0]) ∧
      EosExact p hd (.ready (.ok 0)) := by
  obtain ⟨tr, p, hrun, -, hlast, hd, hh, ⟨p', o⟩, hs, ho, hc⟩ :=
    Machine.exists_run_of_exec (machine UInt8) (new "" "")
      [.recvHead, .arrive (some (.ok (.binary [7]))), .recvNext, .recvSend, .recvHead,
        .arrive (some (.ok (.binary []))), .recvNext, .recvSend, .recvHead, .arrive none,
        .recvNext, .recvReturn, .pollRead 0 .task [0]]
      (P := fun tr p => (tr.map Event.out).getLast? = some (.read (.ready (.ok 1)) [7]) ∧
        ∃ hd ∈ p.handle? 0, ∃ r ∈ (machine UInt8).step p (.pollRead 0 .task [0]),
          r.2 = .read (.ready (.ok 0)) [0] ∧ ¬ MeetsEmpty p hd ∧ ¬ ComesLate p hd)
      (by unfold MeetsEmpty ComesLate; decide)
  subst ho
  exact ⟨tr, p, p', hd, hrun, hlast, hh, hs, (eosExact_iff hh (by simp) hs).mpr hc⟩

/-- Both failures: an empty message reads as the end while the connection lives, and after the
end a read waits for ever. -/
theorem eosExact_fails :
    (∃ (tr : Trace UInt8) (p : Pipe UInt8), (machine UInt8).Run (new "" "") tr p ∧
      ∃ hd ∈ p.handle? 0, ∃ r ∈ (machine UInt8).step p (.pollRead 0 .task [0]),
        r.2 = .read (.ready (.ok 0)) [0] ∧ p.closed = false ∧
          ¬ EosExact p hd (.ready (.ok 0))) ∧
    ∃ (tr : Trace UInt8) (p : Pipe UInt8), (machine UInt8).Run (new "" "") tr p ∧
      ∃ hd ∈ p.handle? 0, ∃ r ∈ (machine UInt8).step p (.pollRead 0 .task [0]),
        r.2 = .read .pending [0] ∧ ¬ EosExact p hd .pending := by
  constructor
  · obtain ⟨tr, p, hrun, -, h⟩ :=
      Machine.exists_run_of_exec (machine UInt8) (new "" "")
        [.recvHead, .arrive (some (.ok (.binary []))), .recvNext, .recvSend]
        (P := fun _ p => ∃ hd ∈ p.handle? 0,
          ∃ r ∈ (machine UInt8).step p (.pollRead 0 .task [0]),
            r.2 = .read (.ready (.ok 0)) [0] ∧ p.closed = false ∧
              ¬ EosExact p hd (.ready (.ok 0))) (by decide)
    exact ⟨tr, p, hrun, h⟩
  · obtain ⟨tr, p, hrun, -, h⟩ :=
      Machine.exists_run_of_exec (machine UInt8) (new "" "")
        [.recvHead, .arrive none, .recvNext, .recvReturn]
        (P := fun _ p => ∃ hd ∈ p.handle? 0,
          ∃ r ∈ (machine UInt8).step p (.pollRead 0 .task [0]),
            r.2 = .read .pending [0] ∧ ¬ EosExact p hd .pending) (by decide)
    exact ⟨tr, p, hrun, h⟩

end Pipe

end ObfsWs
