import Mathlib.Data.List.Basic
import Mathlib.Data.List.Infix

/-!
# Messages on a byte stream

A byte stream that may end at any point is a list of bytes. A reader takes what it needs off the
front and fails when the stream ends too early.

A delimited format writes each message so that its end is known from its bytes. Then messages put
one after the other are read back in order, whatever follows, and a stream that is cut short
yields the messages that are wholly there and then the end of the stream.

## The end of a stream

A list of bytes stands for a stream that has ended, and for one that has not ended but on which
nothing more has arrived. The difference is not visible in what can be read: in the second case a
reader that needs more waits instead of failing. So `readExact` fails at the end of the list, and
a reader makes a read that fails only when its stream has ended; before that, the read is a step
that it does not make.

A cut can be anywhere, in the middle of a length as well as between two messages. That is why a
format has to say what it does with a message that is cut short (`recv_short`), and why it must
not take the beginning of a message for another one.

## Main definitions

* `readExact`, `frame16`, `readFrame16` — bytes behind a two-byte big-endian length
* `Delimited` — a delimited format; `Delimited.wire` — messages one after the other
* `Delimited.recvN` — reading messages repeatedly

## Main results

* `readFrame16_eq_ok_iff` — what is read
* `Delimited.recvN_wire` — what was written is read back, with any bytes behind it
* `Delimited.exists_whole` — what a stream that was cut short contains
* `Delimited.recv_of_isPrefix` — one read from the messages that are under way

## What is left open

Nothing is said about bytes that are no messages. A reader of arbitrary bytes may succeed on some
of them, and what it accepts is a property of the format: `readFrame16_eq_ok_iff` says it for the
length-prefixed bodies of this file, and what the bodies contain is decided above.

Not every message fits a format. `Delimited.ok` says which ones do, and the writer is asked for it
only where a message is written; a format that refuses what does not fit puts this check in its
encoder's caller.
-/

namespace ObfsWs

variable {α ε : Type}

/-! ### Frames with a two-byte length -/

/-- The next `n` bytes of a stream; `eof` when it ends before. -/
def readExact (eof : ε) (n : ℕ) (bs : List UInt8) : Except ε (List UInt8 × List UInt8) :=
  if n ≤ bs.length then .ok (bs.take n, bs.drop n) else .error eof

/-- `u16::to_be_bytes`, of the lowest 16 bits. -/
def toBE16 (n : ℕ) : List UInt8 := [UInt8.ofNat (n / 256), UInt8.ofNat n]

/-- `u16::from_be_bytes`. -/
def ofBE16 : List UInt8 → ℕ
  | [hi, lo] => 256 * hi.toNat + lo.toNat
  | _ => 0

/-- The length, then the body. -/
def frame16 (body : List UInt8) : List UInt8 := toBE16 body.length ++ body

/-- Read a length and as many bytes. -/
def readFrame16 (eof : ε) (bs : List UInt8) : Except ε (List UInt8 × List UInt8) :=
  match readExact eof 2 bs with
  | .error e => .error e
  | .ok (len, bs) => readExact eof (ofBE16 len) bs

theorem ofBE16_toBE16 {n : ℕ} (h : n < 65536) : ofBE16 (toBE16 n) = n := by
  rw [toBE16, ofBE16, UInt8.toNat_ofNat', UInt8.toNat_ofNat']
  omega

theorem toBE16_ofBE16 {len : List UInt8} (h : len.length = 2) : toBE16 (ofBE16 len) = len := by
  obtain ⟨hi, lo, rfl⟩ := List.length_eq_two.mp h
  have hlo := lo.toNat_lt
  have hdiv : (256 * hi.toNat + lo.toNat) / 256 = hi.toNat := by omega
  have hmod : UInt8.ofNat (256 * hi.toNat + lo.toNat) = lo := by
    apply UInt8.toNat_inj.mp
    rw [UInt8.toNat_ofNat']
    omega
  rw [ofBE16, toBE16, hdiv, hmod, UInt8.ofNat_toNat]

theorem ofBE16_lt {len : List UInt8} (h : len.length = 2) : ofBE16 len < 65536 := by
  obtain ⟨hi, lo, rfl⟩ := List.length_eq_two.mp h
  have hhi := hi.toNat_lt
  have hlo := lo.toNat_lt
  rw [ofBE16]
  omega

@[simp] theorem length_toBE16 (n : ℕ) : (toBE16 n).length = 2 := rfl

@[simp] theorem length_frame16 (body : List UInt8) :
    (frame16 body).length = 2 + body.length := by
  rw [frame16, List.length_append, length_toBE16]

theorem readExact_append (eof : ε) (bs rest : List UInt8) :
    readExact eof bs.length (bs ++ rest) = .ok (bs, rest) := by
  rw [readExact, if_pos (by simp), List.take_left, List.drop_left]

theorem readExact_short (eof : ε) {n : ℕ} {bs : List UInt8} (h : bs.length < n) :
    readExact eof n bs = .error eof :=
  if_neg (by omega)

theorem readFrame16_append (eof : ε) {body : List UInt8} (h : body.length < 65536)
    (rest : List UInt8) : readFrame16 eof (frame16 body ++ rest) = .ok (body, rest) := by
  have hlen := readExact_append eof (toBE16 body.length) (body ++ rest)
  rw [length_toBE16] at hlen
  rw [readFrame16, frame16, List.append_assoc, hlen]
  show readExact eof (ofBE16 (toBE16 body.length)) (body ++ rest) = _
  rw [ofBE16_toBE16 h, readExact_append]

/-- What `readExact` reads. -/
theorem readExact_eq_ok {eof : ε} {n : ℕ} {bs bs' rest : List UInt8}
    (h : readExact eof n bs = .ok (bs', rest)) : bs'.length = n ∧ bs = bs' ++ rest := by
  rw [readExact] at h
  split at h
  · rename_i hn
    obtain ⟨rfl, rfl⟩ := Prod.mk.inj (Except.ok.inj h)
    exact ⟨List.length_take_of_le hn, (List.take_append_drop n bs).symm⟩
  · cases h

/-- **A frame is read exactly when it leads the stream.** -/
theorem readFrame16_eq_ok_iff {eof : ε} {bs body rest : List UInt8} :
    readFrame16 eof bs = .ok (body, rest) ↔ body.length < 65536 ∧ bs = frame16 body ++ rest := by
  constructor
  · intro h
    rw [readFrame16] at h
    rcases hlen : readExact eof 2 bs with e | ⟨len, bs'⟩
    · rw [hlen] at h
      cases h
    · rw [hlen] at h
      obtain ⟨hlen2, rfl⟩ := readExact_eq_ok hlen
      obtain ⟨hbody, rfl⟩ := readExact_eq_ok h
      rw [frame16, hbody, toBE16_ofBE16 hlen2, List.append_assoc]
      exact ⟨ofBE16_lt hlen2, rfl⟩
  · rintro ⟨hbody, rfl⟩
    exact readFrame16_append eof hbody rest

/-- A frame that is cut short is not read. -/
theorem readFrame16_short (eof : ε) {body p : List UInt8} (h : body.length < 65536)
    (hp : p <+: frame16 body) (hne : p ≠ frame16 body) : readFrame16 eof p = .error eof := by
  have hlt : p.length < 2 + body.length := by
    have hle := hp.length_le
    have hlen : p.length ≠ (frame16 body).length := fun he => hne (hp.eq_of_length he)
    rw [length_frame16] at hle hlen
    omega
  rw [readFrame16]
  by_cases h2 : 2 ≤ p.length
  · -- the length is there, the body is not
    have htake : p.take 2 = toBE16 body.length := by
      obtain ⟨t, ht⟩ := hp
      have := congrArg (List.take 2) ht
      rw [List.take_append_of_le_length h2] at this
      rw [this, frame16]
      exact List.take_left' rfl
    rw [readExact, if_pos h2, htake]
    show readExact eof (ofBE16 (toBE16 body.length)) (p.drop 2) = _
    rw [ofBE16_toBE16 h]
    exact readExact_short eof (by rw [List.length_drop]; omega)
  · rw [readExact_short eof (by omega)]

/-! ### Delimited formats -/

/-- A format whose messages carry their own ends. Not every message has to fit the format. -/
structure Delimited (α ε : Type) where
  /-- The bytes of a message. -/
  enc : α → List UInt8
  /-- Read one message off the front of a stream. -/
  recv : List UInt8 → Except ε (α × List UInt8)
  /-- The messages that fit. -/
  ok : α → Prop
  /-- The stream ended too early. -/
  eof : ε
  /-- A message is read back, and nothing behind it is touched. -/
  recv_enc : ∀ (a : α) (rest : List UInt8), ok a → recv (enc a ++ rest) = .ok (a, rest)
  /-- A message that is cut short is not read. -/
  recv_short : ∀ (a : α) (p : List UInt8), ok a → p <+: enc a → p ≠ enc a → recv p = .error eof
  /-- Nor is there one in an empty stream. -/
  recv_nil : recv [] = .error eof

namespace Delimited

variable (D : Delimited α ε)

/-- The messages one after the other. -/
def wire (as : List α) : List UInt8 := as.flatMap D.enc

@[simp] theorem wire_nil : D.wire [] = [] := rfl

@[simp] theorem wire_cons (a : α) (as : List α) : D.wire (a :: as) = D.enc a ++ D.wire as := rfl

@[simp] theorem wire_append (as bs : List α) : D.wire (as ++ bs) = D.wire as ++ D.wire bs :=
  List.flatMap_append

/-- Read `n` messages. -/
def recvN : ℕ → List UInt8 → Except ε (List α × List UInt8)
  | 0, bs => .ok ([], bs)
  | n + 1, bs => do
    let (a, bs) ← D.recv bs
    let (as, bs) ← recvN n bs
    .ok (a :: as, bs)

theorem recvN_succ {n : ℕ} {bs bs' bs'' : List UInt8} {a : α} {as : List α}
    (h : D.recv bs = .ok (a, bs')) (hn : D.recvN n bs' = .ok (as, bs'')) :
    D.recvN (n + 1) bs = .ok (a :: as, bs'') := by
  simp only [recvN, h, hn, bind, Except.bind]

/-- Reading one message more. -/
theorem recvN_succ_eq_ok {n : ℕ} {bs rest : List UInt8} {as : List α}
    (h : D.recvN (n + 1) bs = .ok (as, rest)) :
    ∃ a mid as', D.recv bs = .ok (a, mid) ∧ D.recvN n mid = .ok (as', rest) ∧ as = a :: as' := by
  rw [recvN] at h
  cases hrecv : D.recv bs with
  | error e =>
    rw [hrecv] at h
    cases h
  | ok r =>
    obtain ⟨a, mid⟩ := r
    rw [hrecv] at h
    replace h : (D.recvN n mid >>= fun r => .ok (a :: r.1, r.2)) = .ok (as, rest) := h
    cases hrest : D.recvN n mid with
    | error e =>
      rw [hrest] at h
      cases h
    | ok r =>
      obtain ⟨as', rest'⟩ := r
      rw [hrest] at h
      obtain ⟨rfl, rfl⟩ := Prod.mk.inj (Except.ok.inj h)
      exact ⟨a, mid, as', rfl, hrest, rfl⟩

/-- **What was written is read back**, in order and no byte more. -/
theorem recvN_wire {as : List α} (hok : ∀ a ∈ as, D.ok a) (rest : List UInt8) :
    D.recvN as.length (D.wire as ++ rest) = .ok (as, rest) := by
  induction as with
  | nil => rfl
  | cons a as ih =>
    have ha := D.recv_enc a (D.wire as ++ rest) (hok a List.mem_cons_self)
    have has := ih fun b hb => hok b (List.mem_cons_of_mem _ hb)
    rw [wire_cons, List.append_assoc]
    exact D.recvN_succ ha has

/-- Reading only the first `k` of the messages. -/
theorem recvN_take {as : List α} (hok : ∀ a ∈ as, D.ok a) {k : ℕ} (hk : k ≤ as.length)
    (rest : List UInt8) : D.recvN k (D.wire (as.take k) ++ rest) = .ok (as.take k, rest) := by
  have hok' : ∀ a ∈ as.take k, D.ok a := fun a ha => hok a (List.mem_of_mem_take ha)
  have h := D.recvN_wire hok' rest
  rwa [List.length_take_of_le hk] at h

/-- **What a cut stream contains**: some messages from the first one on, and then less than the
next message. -/
theorem exists_whole {as : List α} {p : List UInt8} (hp : p <+: D.wire as)
    (hne : p ≠ D.wire as) :
    ∃ (k : ℕ) (hk : k < as.length) (r : List UInt8),
      p = D.wire (as.take k) ++ r ∧ r <+: D.enc as[k] ∧ r ≠ D.enc as[k] := by
  induction as generalizing p with
  | nil => exact absurd (List.prefix_nil.mp hp) hne
  | cons a as ih =>
    rw [wire_cons] at hp hne
    by_cases hlt : p.length < (D.enc a).length
    · have hpa : p <+: D.enc a :=
        List.prefix_of_prefix_length_le hp (List.prefix_append _ _) hlt.le
      refine ⟨0, Nat.zero_lt_succ _, p, rfl, hpa, ?_⟩
      rintro rfl
      exact absurd hlt (Nat.lt_irrefl _)
    · -- the first message is there: the rest is cut within the other messages
      obtain ⟨q, rfl⟩ := List.prefix_of_prefix_length_le (List.prefix_append _ _) hp
        (Nat.le_of_not_lt hlt)
      have hq : q <+: D.wire as := (List.prefix_append_right_inj _).mp hp
      have hqne : q ≠ D.wire as := fun he => hne (he ▸ rfl)
      obtain ⟨k, hk, r, rfl, hr, hrne⟩ := ih hq hqne
      refine ⟨k + 1, Nat.succ_lt_succ hk, r, ?_, hr, hrne⟩
      rw [List.take_succ_cons, wire_cons, List.append_assoc]

/-- **One read** from a stream that holds an initial part of some messages: the first of them, and
an initial part of the others stays, or there is not enough to read. -/
theorem recv_of_isPrefix {as : List α} (hok : ∀ a ∈ as, D.ok a) {p : List UInt8}
    (hp : p <+: D.wire as) :
    (∃ a as' r, as = a :: as' ∧ p = D.enc a ++ r ∧ r <+: D.wire as' ∧ D.recv p = .ok (a, r)) ∨
      D.recv p = .error D.eof := by
  cases as with
  | nil =>
    obtain rfl := List.prefix_nil.mp hp
    exact .inr D.recv_nil
  | cons a as =>
    have ha := hok a List.mem_cons_self
    rw [wire_cons] at hp
    by_cases hlt : p.length < (D.enc a).length
    · refine .inr (D.recv_short a p ha ?_ ?_)
      · exact List.prefix_of_prefix_length_le hp (List.prefix_append _ _) hlt.le
      · rintro rfl
        exact absurd hlt (Nat.lt_irrefl _)
    · obtain ⟨r, rfl⟩ := List.prefix_of_prefix_length_le (List.prefix_append _ _) hp
        (Nat.le_of_not_lt hlt)
      exact .inl ⟨a, as, r, rfl, rfl, (List.prefix_append_right_inj _).mp hp, D.recv_enc a r ha⟩

end Delimited

end ObfsWs
