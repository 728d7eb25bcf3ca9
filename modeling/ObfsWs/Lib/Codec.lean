import Mathlib.Algebra.Group.Nat.Defs
import Mathlib.Data.List.Basic

/-!
# Binary codecs

A codec writes a value as bytes and reads it back off the front of a byte string, leaving the
rest. The format is the fixed-width one: integers little-endian, a `u32` tag in front of each
variant of an enumeration, a `u64` length in front of byte sequences and strings. Reading ignores
what follows the value.

A length of `2 ^ 64` or more does not survive its `u64`, so the law of a codec covers the values
whose encoding is shorter than that.

## Reading is more than undoing

The field of a `Codec` says that an encoding is read back and that what follows it is left alone.
It does not say that nothing else is read. A decoder with that property as well is `Canonical`:
what it accepts begins with the encoding of what it returns. The fixed-width format is canonical
for all building blocks here, because a number of given width has one representation and a length
is always given. For the composite codecs it is proved where they are defined, by following the
decoder: `bind_eq_ok`, `take_eq_ok` and `le_eq_ok` say what has been read when it succeeded.

A format with variable-width integers would not be canonical without a rule about leading zeros.

## Main definitions

* `toLE`, `ofLE`, `toBE`, `ofBE` — numbers as little-endian and as big-endian bytes
* `Decoder` — reading off the front of a byte string, or why it failed
* `Codec` — an encoder and a decoder; that they agree is a field
* `Codec.uint`, `Codec.bytes`, `Codec.string` — the building blocks
* `Codec.Canonical` — a codec that reads encodings only

## Main results

* `Codec.dec_enc_bind` — decoding a value and going on, the rule by which composite codecs
  are shown lawful

## Implementation notes

A decoder is a state monad over the bytes that are left, so decoders are put together by `do`, in
the order of the fields. Its errors carry no position: nothing looks at one.

A decoder stops when it has its value. Whether what is left over matters is decided by who calls
it; a caller that allows trailing bytes ignores the rest.

The bound `2 ^ 64` in the law stands for every length that is written: a sequence inside a value
is shorter than the value. No encoding that fits a machine comes near it, but without it the law
is false.
-/

namespace ObfsWs

/-! ### Little-endian numbers -/

/-- The lowest `w` bytes of `n`, least significant first. -/
def toLE : ℕ → ℕ → List UInt8
  | 0, _ => []
  | w + 1, n => UInt8.ofNat n :: toLE w (n / 256)

/-- The number written by these bytes, least significant first. -/
def ofLE : List UInt8 → ℕ
  | [] => 0
  | b :: bs => b.toNat + 256 * ofLE bs

@[simp] theorem length_toLE (w n : ℕ) : (toLE w n).length = w := by
  induction w generalizing n with
  | zero => rfl
  | succ w ih => rw [toLE, List.length_cons, ih]

theorem ofLE_toLE {w n : ℕ} (h : n < 256 ^ w) : ofLE (toLE w n) = n := by
  induction w generalizing n with
  | zero =>
    obtain rfl : n = 0 := by simpa using h
    rfl
  | succ w ih =>
    have hdiv : n / 256 < 256 ^ w := by
      rw [Nat.div_lt_iff_lt_mul (by omega), ← Nat.pow_succ]
      exact h
    rw [toLE, ofLE, ih hdiv, UInt8.toNat_ofNat']
    show n % 256 + 256 * (n / 256) = n
    exact Nat.mod_add_div n 256

theorem ofLE_lt (bs : List UInt8) : ofLE bs < 256 ^ bs.length := by
  induction bs with
  | nil => exact Nat.one_pos
  | cons b bs ih =>
    have hb := b.toNat_lt
    rw [ofLE, List.length_cons, Nat.pow_succ]
    omega

/-- Numbers are read without loss. -/
theorem toLE_ofLE (bs : List UInt8) : toLE bs.length (ofLE bs) = bs := by
  induction bs with
  | nil => rfl
  | cons b bs ih =>
    have hb := b.toNat_lt
    have hdiv : (b.toNat + 256 * ofLE bs) / 256 = ofLE bs := by omega
    have hmod : UInt8.ofNat (b.toNat + 256 * ofLE bs) = b := by
      apply UInt8.toNat_inj.mp
      rw [UInt8.toNat_ofNat']
      omega
    rw [List.length_cons, ofLE, toLE, hdiv, hmod, ih]

/-- The lowest `w` bytes of `n`, most significant first. -/
def toBE (w n : ℕ) : List UInt8 := (toLE w n).reverse

/-- The number written by these bytes, most significant first. -/
def ofBE (bs : List UInt8) : ℕ := ofLE bs.reverse

@[simp] theorem length_toBE (w n : ℕ) : (toBE w n).length = w := by
  rw [toBE, List.length_reverse, length_toLE]

theorem ofBE_toBE {w n : ℕ} (h : n < 256 ^ w) : ofBE (toBE w n) = n := by
  rw [ofBE, toBE, List.reverse_reverse, ofLE_toLE h]

theorem ofBE_lt (bs : List UInt8) : ofBE bs < 256 ^ bs.length := by
  have := ofLE_lt bs.reverse
  rwa [List.length_reverse] at this

theorem toBE_ofBE (bs : List UInt8) : toBE bs.length (ofBE bs) = bs := by
  have := toLE_ofLE bs.reverse
  rw [List.length_reverse] at this
  rw [toBE, ofBE, this, List.reverse_reverse]

/-! ### Decoders -/

/-- Why decoding failed. -/
inductive DecodeError
  | unexpectedEof
  | invalidUtf8
  | invalidTag (tag : ℕ)
  deriving DecidableEq

/-- Read an `α` off the front of a byte string. -/
abbrev Decoder (α : Type) := StateT (List UInt8) (Except DecodeError) α

namespace Decoder

variable {α β : Type}

/-- The next `n` bytes. -/
def take (n : ℕ) : Decoder (List UInt8) := fun bs =>
  if n ≤ bs.length then .ok (bs.take n, bs.drop n) else .error .unexpectedEof

/-- A little-endian number of `w` bytes. -/
def le (w : ℕ) : Decoder ℕ := do
  let bs ← take w
  pure (ofLE bs)

/-- Going on after a decoder that succeeded. -/
theorem bind_of_ok {x : Decoder α} {f : α → Decoder β} {bs rest : List UInt8} {a : α}
    (h : x bs = .ok (a, rest)) : (x >>= f) bs = f a rest := by
  simp only [bind, StateT.bind, h, Except.bind]

@[simp] theorem pure_apply (a : α) (bs : List UInt8) :
    (pure a : Decoder α) bs = .ok (a, bs) := rfl

theorem take_append (bs rest : List UInt8) : take bs.length (bs ++ rest) = .ok (bs, rest) := by
  rw [take, if_pos (by simp), List.take_left, List.drop_left]

/-- Two decoders that succeeded one after the other. -/
theorem bind_eq_ok {x : Decoder α} {f : α → Decoder β} {bs rest : List UInt8} {b : β}
    (h : (x >>= f) bs = .ok (b, rest)) :
    ∃ a mid, x bs = .ok (a, mid) ∧ f a mid = .ok (b, rest) := by
  cases hx : x bs with
  | error e =>
    simp only [bind, StateT.bind, hx, Except.bind] at h
    cases h
  | ok r =>
    obtain ⟨a, mid⟩ := r
    rw [bind_of_ok hx] at h
    exact ⟨a, mid, rfl, h⟩

theorem pure_eq_ok {a b : α} {bs rest : List UInt8}
    (h : (pure a : Decoder α) bs = .ok (b, rest)) : a = b ∧ bs = rest :=
  Prod.mk.inj (Except.ok.inj h)

/-- What `take` reads. -/
theorem take_eq_ok {n : ℕ} {bs bs' rest : List UInt8} (h : take n bs = .ok (bs', rest)) :
    bs'.length = n ∧ bs = bs' ++ rest := by
  rw [take] at h
  split at h
  · rename_i hn
    obtain ⟨rfl, rfl⟩ := Prod.mk.inj (Except.ok.inj h)
    exact ⟨List.length_take_of_le hn, (List.take_append_drop n bs).symm⟩
  · cases h

/-- What `le` reads. -/
theorem le_eq_ok {w n : ℕ} {bs rest : List UInt8} (h : le w bs = .ok (n, rest)) :
    n < 256 ^ w ∧ bs = toLE w n ++ rest := by
  obtain ⟨bs', mid, htake, hpure⟩ := bind_eq_ok h
  obtain ⟨rfl, rfl⟩ := pure_eq_ok hpure
  obtain ⟨rfl, rfl⟩ := take_eq_ok htake
  exact ⟨ofLE_lt bs', by rw [toLE_ofLE]⟩

theorem le_append {w n : ℕ} (h : n < 256 ^ w) (rest : List UInt8) :
    le w (toLE w n ++ rest) = .ok (n, rest) := by
  have ht := take_append (toLE w n) rest
  rw [length_toLE] at ht
  rw [le, bind_of_ok ht, ofLE_toLE h, pure_apply]

end Decoder

/-! ### Codecs -/

/-- An encoder with its decoder. -/
structure Codec (α : Type) where
  /-- The bytes of a value. -/
  enc : α → List UInt8
  /-- Reading a value back. -/
  dec : Decoder α
  /-- Decoding reads back what was encoded and nothing more. -/
  dec_enc : ∀ (a : α) (rest : List UInt8), (enc a).length < 2 ^ 64 →
    dec (enc a ++ rest) = .ok (a, rest)

namespace Codec

variable {α β : Type}

/-- **Decoding a value and going on** with what follows it. -/
theorem dec_enc_bind (c : Codec α) (f : α → Decoder β) {a : α} (tail rest : List UInt8)
    (h : (c.enc a ++ tail).length < 2 ^ 64) :
    (c.dec >>= f) (c.enc a ++ tail ++ rest) = f a (tail ++ rest) := by
  rw [List.length_append] at h
  rw [List.append_assoc]
  exact Decoder.bind_of_ok (c.dec_enc a (tail ++ rest) (by omega))

/-- Decoding a value that ends the encoding, and going on. -/
theorem dec_enc_map (c : Codec α) (f : α → Decoder β) {a : α} (rest : List UInt8)
    (h : (c.enc a).length < 2 ^ 64) : (c.dec >>= f) (c.enc a ++ rest) = f a rest :=
  Decoder.bind_of_ok (c.dec_enc a rest h)

/-- An unsigned integer of `w` bytes. -/
def uint (w : ℕ) (toNat : α → ℕ) (ofNat : ℕ → α) (hlt : ∀ a, toNat a < 256 ^ w)
    (hof : ∀ a, ofNat (toNat a) = a) : Codec α where
  enc a := toLE w (toNat a)
  dec := do
    let n ← Decoder.le w
    pure (ofNat n)
  dec_enc a rest _ := by
    rw [Decoder.bind_of_ok (Decoder.le_append (hlt a) rest), hof, Decoder.pure_apply]

/-- `u16`. -/
def u16 : Codec UInt16 :=
  uint 2 UInt16.toNat UInt16.ofNat (fun a => a.toNat_lt) fun _ => UInt16.ofNat_toNat

/-- `u128`. -/
def u128 : Codec (BitVec 128) :=
  uint 16 BitVec.toNat (BitVec.ofNat 128) (fun a => a.isLt) fun a => BitVec.ofNat_toNat 128 a

@[simp] theorem length_enc_u16 (a : UInt16) : (u16.enc a).length = 2 := length_toLE 2 _

@[simp] theorem length_enc_u128 (a : BitVec 128) : (u128.enc a).length = 16 := length_toLE 16 _

/-- `Vec<u8>`: the length as a `u64`, then the bytes. -/
def bytes : Codec (List UInt8) where
  enc bs := toLE 8 bs.length ++ bs
  dec := do
    let n ← Decoder.le 8
    Decoder.take n
  dec_enc bs rest h := by
    have hlen : bs.length < 256 ^ 8 := by
      rw [List.length_append] at h
      omega
    rw [List.append_assoc, Decoder.bind_of_ok (Decoder.le_append hlen _), Decoder.take_append]

@[simp] theorem length_enc_bytes (bs : List UInt8) : (bytes.enc bs).length = 8 + bs.length := by
  rw [bytes, List.length_append, length_toLE]

/-- `String`: its UTF-8 bytes as a sequence; reading back checks that they are UTF-8. -/
def string : Codec String where
  enc s := bytes.enc s.toByteArray.data.toList
  dec := do
    let bs ← bytes.dec
    match String.fromUTF8? ⟨bs.toArray⟩ with
    | some s => pure s
    | none => throw .invalidUtf8
  dec_enc s rest h := by
    have hs : String.fromUTF8? ⟨s.toByteArray.data.toList.toArray⟩ = some s := by
      rw [Array.toArray_toList, String.fromUTF8?, dif_pos s.isValidUTF8]
      rfl
    rw [dec_enc_map bytes _ rest h, hs]
    rfl

/-! ### Canonical codecs -/

/-- What is decoded is the encoding of the value and nothing else. -/
def Canonical (c : Codec α) : Prop :=
  ∀ ⦃bs : List UInt8⦄ ⦃a : α⦄ ⦃rest : List UInt8⦄, c.dec bs = .ok (a, rest) → bs = c.enc a ++ rest

/-- A number is read from one encoding only, if it fits. -/
theorem canonical_uint {w : ℕ} {toNat : α → ℕ} {ofNat : ℕ → α} (hlt : ∀ a, toNat a < 256 ^ w)
    (hof : ∀ a, ofNat (toNat a) = a) (hto : ∀ n < 256 ^ w, toNat (ofNat n) = n) :
    (uint w toNat ofNat hlt hof).Canonical := by
  intro bs a rest h
  obtain ⟨n, mid, hle, hpure⟩ := Decoder.bind_eq_ok h
  obtain ⟨rfl, rfl⟩ := Decoder.pure_eq_ok hpure
  obtain ⟨hn, rfl⟩ := Decoder.le_eq_ok hle
  show _ = toLE w (toNat (ofNat n)) ++ mid
  rw [hto n hn]

theorem canonical_u16 : u16.Canonical :=
  canonical_uint _ _ fun _ hn => UInt16.toNat_ofNat_of_lt' hn

theorem canonical_u128 : u128.Canonical :=
  canonical_uint _ _ fun _ hn => Nat.mod_eq_of_lt hn

theorem canonical_bytes : bytes.Canonical := by
  intro bs a rest h
  obtain ⟨n, mid, hle, htake⟩ := Decoder.bind_eq_ok h
  obtain ⟨-, rfl⟩ := Decoder.le_eq_ok hle
  obtain ⟨rfl, rfl⟩ := Decoder.take_eq_ok htake
  exact (List.append_assoc _ _ _).symm

/-- The text is the one that its UTF-8 bytes stand for. -/
theorem canonical_string : string.Canonical := by
  intro bs a rest h
  obtain ⟨bs', mid, hbytes, hmatch⟩ := Decoder.bind_eq_ok h
  obtain rfl := canonical_bytes hbytes
  cases hs : String.fromUTF8? ⟨bs'.toArray⟩ with
  | none =>
    rw [hs] at hmatch
    cases hmatch
  | some s =>
    rw [hs] at hmatch
    obtain ⟨rfl, rfl⟩ := Decoder.pure_eq_ok hmatch
    rw [String.fromUTF8?] at hs
    split at hs
    · obtain rfl := Option.some.inj hs
      rfl
    · cases hs

/-! ### Variant tags -/

/-- The `u32` in front of a variant. -/
def tag (n : ℕ) : List UInt8 := toLE 4 n

@[simp] theorem length_tag (n : ℕ) : (tag n).length = 4 := length_toLE 4 n

/-- Reading a tag and going on with the variant's fields. -/
theorem dec_tag_bind {n : ℕ} (hn : n < 256 ^ 4) (f : ℕ → Decoder β) (tail rest : List UInt8) :
    (Decoder.le 4 >>= f) (tag n ++ tail ++ rest) = f n (tail ++ rest) := by
  rw [List.append_assoc]
  exact Decoder.bind_of_ok (Decoder.le_append hn _)

end Codec

end ObfsWs
