import Mathlib.Data.List.Flatten
import ObfsWs.Lib.Machine

/-!
# Streams with known losses

What a stream between a writer and a reader may do when it is allowed to lose, but only in ways
that can be named: a write may be refused as a whole, the bytes next to be read may be torn off,
and everything behind some point may be cut off, after which nothing new comes. The order is never
changed and nothing is invented.

All histories are functions of the actions, so a system that simulates a lossy stream inherits the
accounting through its labels.

## Named losses

An end-to-end theorem about a system that can lose data is either false or has the losses in it.
Here each loss is an action: `refuse` at the entrance, `tear` at the exit, `cut` in between. A
system that simulates this stream shows which of its steps are which, so the theorem says where
data was lost and not only that it may be. The bytes that are not lost keep their order, which is
the content of `consumed_isPrefix`: what has come out, whether it was delivered or torn off, is an
initial part of what went in.

## Main definitions

* `LossyStream`, `LossyStream.machine` — the stream
* `LossyStream.offered`, `kept`, `consumed`, `returned` — its histories
* `LossyStream.Account` — the accounting of a system that keeps its own histories

## Main results

* `LossyStream.consumed_isPrefix` — what was read or torn off is where the kept writes begin
* `LossyStream.returned_sublist` — what was read is a subsequence of what was offered

## Implementation notes

The step function is classical, because whether one list begins with another one need not be
decidable for any type of bytes. Nothing is computed with this machine; it is there to be
simulated.

An `Account` is the same statement for a system that keeps its own histories and is not shown to
simulate anything. It is used where only one of the histories is needed, or where messages take
the place of bytes.
-/

namespace ObfsWs

/-- The bytes between writer and reader. -/
structure LossyStream (β : Type) where
  /-- Written and neither read nor lost, oldest first. -/
  transit : List β
  /-- Nothing new comes. -/
  isCut : Bool

namespace LossyStream

variable {β : Type}

/-- The actions. -/
inductive Act (β : Type)
  /-- A write. It goes nowhere once the stream is cut. -/
  | write (m : List β)
  /-- A write that is refused as a whole. -/
  | refuse (m : List β)
  /-- The reader gets the bytes that come first. -/
  | read (m : List β)
  /-- The bytes that come first are lost. -/
  | tear (m : List β)
  /-- All but the first `n` bytes are lost, and nothing new comes. -/
  | cut (n : ℕ)

open scoped Classical in
/-- One step. -/
noncomputable def step (s : LossyStream β) : Act β → Option (LossyStream β × Unit)
  | .write m => some (⟨if s.isCut then s.transit else s.transit ++ m, s.isCut⟩, ())
  | .refuse _ => some (s, ())
  | .read m | .tear m =>
    if m <+: s.transit then some (⟨s.transit.drop m.length, s.isCut⟩, ()) else none
  | .cut n => some (⟨s.transit.take n, true⟩, ())

/-- The stream as a machine. -/
noncomputable def machine (β : Type) : Machine (LossyStream β) (Act β) Unit := ⟨step⟩

/-- A new stream. -/
def empty : LossyStream β := ⟨[], false⟩

theorem step_read {s : LossyStream β} {m t : List β} (h : s.transit = m ++ t) :
    (machine β).step s (.read m) = some (⟨t, s.isCut⟩, ()) := by
  simp [machine, step, h]

theorem step_tear {s : LossyStream β} {m t : List β} (h : s.transit = m ++ t) :
    (machine β).step s (.tear m) = some (⟨t, s.isCut⟩, ()) := by
  simp [machine, step, h]

theorem step_cut {s : LossyStream β} {t : List β} (h : t <+: s.transit) :
    (machine β).step s (.cut t.length) = some (⟨t, true⟩, ()) := by
  obtain ⟨rest, hrest⟩ := h
  simp [machine, step, ← hrest]

/-! ### Histories -/

/-- All bytes that writes offered. -/
def offered (as : List (Act β)) : List β :=
  as.flatMap fun
    | .write m | .refuse m => m
    | _ => []

/-- The bytes of the writes that were not refused. -/
def kept (as : List (Act β)) : List β :=
  as.flatMap fun
    | .write m => m
    | _ => []

/-- The bytes that left at the front: read, or torn off. -/
def consumed (as : List (Act β)) : List β :=
  as.flatMap fun
    | .read m | .tear m => m
    | _ => []

/-- The bytes that were read. -/
def returned (as : List (Act β)) : List β :=
  as.flatMap fun
    | .read m => m
    | _ => []

theorem kept_sublist (as : List (Act β)) : (kept as).Sublist (offered as) := by
  refine List.Sublist.flatMap_right as fun a _ => ?_
  cases a <;> simp

theorem returned_sublist_consumed (as : List (Act β)) :
    (returned as).Sublist (consumed as) := by
  refine List.Sublist.flatMap_right as fun a _ => ?_
  cases a <;> simp

/-! ### The accounting -/

/-- One step moves bytes from the writes to the transit and from the transit to the reader. -/
theorem step_account {s s' : LossyStream β} {a : Act β} {u : Unit} {c k : List β}
    (hs : (machine β).step s a = some (s', u))
    (h : c ++ s.transit <+: k ∧ (s.isCut = false → c ++ s.transit = k)) :
    c ++ consumed [a] ++ s'.transit <+: k ++ kept [a] ∧
      (s'.isCut = false → c ++ consumed [a] ++ s'.transit = k ++ kept [a]) := by
  obtain ⟨hpre, heq⟩ := h
  change step s a = some (s', u) at hs
  cases a with
  | write m =>
    cases hs
    cases hc : s.isCut with
    | true => simpa [consumed, kept, hc] using hpre.trans (List.prefix_append k m)
    | false => simp [consumed, kept, ← heq hc]
  | refuse m =>
    cases hs
    simpa [consumed, kept] using ⟨hpre, heq⟩
  | read m | tear m =>
    simp only [step, Option.ite_none_right_eq_some, Option.some.injEq] at hs
    obtain ⟨⟨rest, hrest⟩, hs⟩ := hs
    cases hs
    simpa [consumed, kept, ← hrest] using And.intro hpre heq
  | cut n =>
    cases hs
    have htake : c ++ s.transit.take n <+: c ++ s.transit :=
      List.prefix_append_right_inj c |>.mpr (List.take_prefix n _)
    simpa [consumed, kept] using htake.trans hpre

/-- **What has left at the front is where the kept writes begin**, and the transit comes next. -/
theorem consumed_isPrefix {s : LossyStream β} {tr : List (Event (LossyStream β) (Act β) Unit)}
    (h : (machine β).Run empty tr s) :
    consumed (tr.map Event.act) ++ s.transit <+: kept (tr.map Event.act) := by
  refine (h.induct (fun tr s => consumed (tr.map Event.act) ++ s.transit <+:
      kept (tr.map Event.act) ∧ (s.isCut = false →
      consumed (tr.map Event.act) ++ s.transit = kept (tr.map Event.act)))
    (by simp [empty, consumed, kept]) ?_).1
  intro tr t a t' u _ ih hs
  have hstep := step_account hs ih
  simpa [consumed, kept] using hstep

open List in
/-- **What was read is a subsequence of what was offered.** -/
theorem returned_sublist {s : LossyStream β} {tr : List (Event (LossyStream β) (Act β) Unit)}
    (h : (machine β).Run empty tr s) :
    (returned (tr.map Event.act)).Sublist (offered (tr.map Event.act)) :=
  calc returned (tr.map Event.act)
    _ <+ consumed (tr.map Event.act) := returned_sublist_consumed _
    _ <+ consumed (tr.map Event.act) ++ s.transit := List.sublist_append_left _ _
    _ <+ kept (tr.map Event.act) := (consumed_isPrefix h).sublist
    _ <+ offered (tr.map Event.act) := kept_sublist _

/-! ### Accounts

The same accounting for a system that keeps its own histories. -/

/-- What was read is where the kept writes begin and what is in transit comes next; while nothing
is broken that is all of it. -/
structure Account (read transit kept : List β) (broken : Bool) : Prop where
  isPrefix : read ++ transit <+: kept
  eq : broken = false → read ++ transit = kept

namespace Account

variable {r t t' u k m : List β} {b b' : Bool}

/-- A write: what was in transit and `m`, unless that was broken, is where the transit ends up, or
begins if it breaks. -/
theorem write (ha : Account r t k b) (hpre : t' <+: if b then t else t ++ m)
    (hmono : b = true → b' = true) (heq : b' = false → t' = if b then t else t ++ m) :
    Account r t' (k ++ m) b' where
  isPrefix := by
    have hsame := (List.prefix_append_right_inj r).mpr hpre
    cases hb : b with
    | true =>
      rw [hb, if_pos rfl] at hsame
      exact hsame.trans (ha.isPrefix.trans (List.prefix_append _ _))
    | false =>
      rw [hb, if_neg (by simp), ← List.append_assoc, ha.eq hb] at hsame
      exact hsame
  eq := by
    intro hb'
    have hb : b = false := Bool.eq_false_iff.mpr fun hb => by simp [hmono hb] at hb'
    rw [heq hb', hb, if_neg (by simp), ← List.append_assoc, ha.eq hb]

/-- A read of what comes first. -/
theorem read (ha : Account r t k b) (hsplit : t = m ++ u) (hpre : t' <+: u)
    (hmono : b = true → b' = true) (heq : b' = false → t' = u) :
    Account (r ++ m) t' k b' where
  isPrefix := by
    have hsame := (List.prefix_append_right_inj (r ++ m)).mpr hpre
    rw [List.append_assoc r m u, ← hsplit] at hsame
    exact hsame.trans ha.isPrefix
  eq := by
    intro hb'
    have hb : b = false := Bool.eq_false_iff.mpr fun hb => by simp [hmono hb] at hb'
    rw [heq hb', List.append_assoc, ← hsplit, ha.eq hb]

/-- What is in transit has been kept. -/
theorem mem_kept (ha : Account r t k b) {x : β} (hx : x ∈ t) : x ∈ k :=
  ha.isPrefix.subset (List.mem_append_right r hx)

end Account

end LossyStream

end ObfsWs
