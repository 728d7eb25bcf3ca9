import Mathlib.Data.List.Basic

/-!
# Base64

The standard alphabet with canonical padding: three bytes make four symbols, a last group of one
or two bytes is padded with `=`, and the bits that the last symbol has to spare are zero. Decoding
accepts nothing else, so it undoes encoding and encoding undoes it.

Encoded bytes are ASCII; the first part relates a string to its bytes.

## Strictness

There are three ways for a decoder to be lenient: to accept a last group without padding, to
accept padding in the middle, and to accept a last symbol whose spare bits are not zero. This one
accepts none of them, which is what the standard engine documents. Were the last one accepted, two
different texts would stand for the same bytes, and a text could be changed on its way without
anybody noticing; `decode_eq_some_iff` says that this does not happen.

## Main definitions

* `utf8`, `asciiString` — the bytes of a string, and the string of ASCII bytes
* `Base64.symbol`, `Base64.value` — the alphabet
* `Base64.encode`, `Base64.decode`

## Main results

* `utf8_asciiString` — ASCII bytes are the bytes of their string
* `Base64.decode_eq_some_iff` — what decodes to `bs` is `encode bs` and nothing else

## Implementation notes

Everything is done on bytes. Groups are taken apart by division and remainder on natural numbers
and not by shifts, so that the identities between sextets and bytes are linear arithmetic. The
alphabet is a table by ranges, and its inverse is checked by running through all 256 bytes once.

A header value may hold visible ASCII only; `encode_visible` is what it takes to put an encoding
into one without asking again.
-/

namespace ObfsWs

/-! ### Strings and their bytes -/

/-- The bytes of a string. -/
def utf8 (s : String) : List UInt8 := s.toByteArray.data.toList

/-- The string of these bytes, each one a character. -/
def asciiString (bs : List UInt8) : String := String.ofList (bs.map Char.ofUInt8)

theorem utf8_ofList_cons (c : Char) (cs : List Char) :
    utf8 (String.ofList (c :: cs)) = String.utf8EncodeChar c ++ utf8 (String.ofList cs) := by
  rw [utf8, utf8, String.toByteArray_ofList, List.utf8Encode_cons, List.utf8Encode_singleton,
    String.toByteArray_ofList]
  simp

theorem utf8EncodeChar_ofUInt8 {b : UInt8} (h : b.toNat < 128) :
    String.utf8EncodeChar (Char.ofUInt8 b) = [b] := by
  have hv : (Char.ofUInt8 b).val.toNat = b.toNat := UInt8.toNat_toUInt32 b
  rw [String.utf8EncodeChar, hv]
  show (if b.toNat ≤ 127 then _ else _) = _
  rw [if_pos (by omega), UInt8.ofNat_toNat]

/-- **ASCII bytes** are the bytes of their string. -/
theorem utf8_asciiString {bs : List UInt8} (h : ∀ b ∈ bs, b.toNat < 128) :
    utf8 (asciiString bs) = bs := by
  induction bs with
  | nil => rfl
  | cons b bs ih =>
    have hb := h b (by simp)
    have ih := ih fun b hb => h b (by simp [hb])
    rw [asciiString] at ih ⊢
    rw [List.map_cons, utf8_ofList_cons, utf8EncodeChar_ofUInt8 hb, ih, List.singleton_append]

/-- A string is known by its bytes. -/
theorem utf8_injective {s t : String} (h : utf8 s = utf8 t) : s = t :=
  String.toByteArray_inj.mp (ByteArray.ext (Array.toList_inj.mp h))

namespace Base64

/-! ### The alphabet -/

/-- The padding, `=`. -/
def pad : UInt8 := 61

/-- `A`–`Z`, `a`–`z`, `0`–`9`, `+` and `/`. -/
def symbol (v : Fin 64) : UInt8 :=
  if v.val < 26 then .ofNat (v + 65)
  else if v.val < 52 then .ofNat (v + 71)
  else if v.val < 62 then .ofNat (v - 4)
  else if v.val = 62 then 43
  else 47

/-- The sextet of a symbol, unless it is outside the alphabet. -/
def value (c : UInt8) : Option (Fin 64) :=
  if h : 65 ≤ c.toNat ∧ c.toNat ≤ 90 then some ⟨c.toNat - 65, by omega⟩
  else if h : 97 ≤ c.toNat ∧ c.toNat ≤ 122 then some ⟨c.toNat - 71, by omega⟩
  else if h : 48 ≤ c.toNat ∧ c.toNat ≤ 57 then some ⟨c.toNat + 4, by omega⟩
  else if c.toNat = 43 then some 62
  else if c.toNat = 47 then some 63
  else none

@[simp] theorem value_symbol (v : Fin 64) : value (symbol v) = some v := by
  revert v
  decide

set_option maxRecDepth 2000 in
theorem symbol_of_value {c : UInt8} {v : Fin 64} (h : value c = some v) : symbol v = c := by
  have hall : ∀ n < 256, (value (.ofNat n)).all (symbol · == .ofNat n) = true := by decide
  have hc := hall c.toNat c.toNat_lt
  rw [UInt8.ofNat_toNat, h] at hc
  simpa using hc

/-- Symbols are visible ASCII. -/
theorem symbol_visible (v : Fin 64) : 32 ≤ (symbol v).toNat ∧ (symbol v).toNat < 127 := by
  revert v
  decide

@[simp] theorem symbol_ne_pad (v : Fin 64) : symbol v ≠ pad := by
  revert v
  decide

/-! ### Groups of three bytes -/

/-- The first sextet of a group: six bits of the first byte. -/
def sextet1 (a : UInt8) : Fin 64 := ⟨a.toNat / 4, by have := a.toNat_lt; omega⟩

/-- The second sextet: two bits of the first byte, four of the second. -/
def sextet2 (a b : UInt8) : Fin 64 :=
  ⟨a.toNat % 4 * 16 + b.toNat / 16, by have := b.toNat_lt; omega⟩

/-- The third sextet: four bits of the second byte, two of the third. -/
def sextet3 (b c : UInt8) : Fin 64 :=
  ⟨b.toNat % 16 * 4 + c.toNat / 64, by have := c.toNat_lt; omega⟩

/-- The fourth sextet: six bits of the third byte. -/
def sextet4 (c : UInt8) : Fin 64 := ⟨c.toNat % 64, by omega⟩

/-- The first byte of a group. -/
def byte1 (v w : Fin 64) : UInt8 := .ofNat (v * 4 + w / 16)

/-- The second byte. -/
def byte2 (w x : Fin 64) : UInt8 := .ofNat (w % 16 * 16 + x / 4)

/-- The third byte. -/
def byte3 (x y : Fin 64) : UInt8 := .ofNat (x % 4 * 64 + y)

theorem byte1_sextet (a b : UInt8) : byte1 (sextet1 a) (sextet2 a b) = a := by
  have := b.toNat_lt
  apply UInt8.toNat_inj.mp
  rw [byte1, sextet1, sextet2, UInt8.toNat_ofNat']
  simp only
  have := a.toNat_lt
  omega

theorem byte2_sextet (a b c : UInt8) : byte2 (sextet2 a b) (sextet3 b c) = b := by
  have := c.toNat_lt
  apply UInt8.toNat_inj.mp
  rw [byte2, sextet2, sextet3, UInt8.toNat_ofNat']
  simp only
  have := b.toNat_lt
  omega

theorem byte3_sextet (b c : UInt8) : byte3 (sextet3 b c) (sextet4 c) = c := by
  apply UInt8.toNat_inj.mp
  rw [byte3, sextet3, sextet4, UInt8.toNat_ofNat']
  simp only
  have := c.toNat_lt
  omega

theorem toNat_byte1 (v w : Fin 64) : (byte1 v w).toNat = v * 4 + w / 16 := by
  rw [byte1, UInt8.toNat_ofNat']
  omega

theorem toNat_byte2 (w x : Fin 64) : (byte2 w x).toNat = w % 16 * 16 + x / 4 := by
  rw [byte2, UInt8.toNat_ofNat']
  omega

theorem toNat_byte3 (x y : Fin 64) : (byte3 x y).toNat = x % 4 * 64 + y := by
  rw [byte3, UInt8.toNat_ofNat']
  omega

theorem sextet1_byte (v w : Fin 64) : sextet1 (byte1 v w) = v := by
  apply Fin.ext
  simp only [sextet1, toNat_byte1]
  omega

theorem sextet2_byte (v w x : Fin 64) : sextet2 (byte1 v w) (byte2 w x) = w := by
  apply Fin.ext
  simp only [sextet2, toNat_byte1, toNat_byte2]
  omega

theorem sextet3_byte (w x y : Fin 64) : sextet3 (byte2 w x) (byte3 x y) = x := by
  apply Fin.ext
  simp only [sextet3, toNat_byte2, toNat_byte3]
  omega

theorem sextet4_byte (x y : Fin 64) : sextet4 (byte3 x y) = y := by
  apply Fin.ext
  simp only [sextet4, toNat_byte3]
  omega

/-! ### Encoding and decoding -/

/-- The encoding of a byte string. -/
def encode : List UInt8 → List UInt8
  | [] => []
  | [a] => [symbol (sextet1 a), symbol (sextet2 a 0), pad, pad]
  | [a, b] => [symbol (sextet1 a), symbol (sextet2 a b), symbol (sextet3 b 0), pad]
  | a :: b :: c :: bs =>
    symbol (sextet1 a) :: symbol (sextet2 a b) :: symbol (sextet3 b c) :: symbol (sextet4 c) ::
      encode bs

/-- Two symbols with two paddings: one byte. The four spare bits are zero. -/
def decode1 (p q : UInt8) : Option UInt8 := do
  let v ← value p
  let w ← value q
  if w.val % 16 = 0 then some (byte1 v w) else none

/-- Three symbols with one padding: two bytes. The two spare bits are zero. -/
def decode2 (p q r : UInt8) : Option (List UInt8) := do
  let v ← value p
  let w ← value q
  let x ← value r
  if x.val % 4 = 0 then some [byte1 v w, byte2 w x] else none

/-- Four symbols: three bytes. -/
def decode3 (p q r s : UInt8) : Option (List UInt8) := do
  let v ← value p
  let w ← value q
  let x ← value r
  let y ← value s
  some [byte1 v w, byte2 w x, byte3 x y]

/-- The byte string that this is the encoding of. -/
def decode : List UInt8 → Option (List UInt8)
  | [] => some []
  | [p, q, r, s] =>
    if s = pad then if r = pad then (decode1 p q).map ([·]) else decode2 p q r
    else decode3 p q r s
  | p :: q :: r :: s :: cs => do
    let g ← decode3 p q r s
    let bs ← decode cs
    some (g ++ bs)
  | _ => none

theorem decode1_eq_some_iff {p q a : UInt8} :
    decode1 p q = some a ↔ p = symbol (sextet1 a) ∧ q = symbol (sextet2 a 0) := by
  constructor
  · intro h
    simp only [decode1, Option.bind_eq_bind, Option.bind_eq_some_iff] at h
    obtain ⟨v, hv, w, hw, h⟩ := h
    split at h
    · obtain rfl := Option.some.inj h
      have hq : sextet2 (byte1 v w) 0 = w := by
        apply Fin.ext
        simp only [sextet2, toNat_byte1, UInt8.toNat_zero]
        omega
      rw [sextet1_byte, hq, symbol_of_value hv, symbol_of_value hw]
      exact ⟨rfl, rfl⟩
    · cases h
  · rintro ⟨rfl, rfl⟩
    have hz : (sextet2 a 0).val % 16 = 0 := by simp [sextet2]
    simp [decode1, hz, byte1_sextet]

theorem decode2_eq_some_iff {p q r : UInt8} {bs : List UInt8} :
    decode2 p q r = some bs ↔ ∃ a b, bs = [a, b] ∧ p = symbol (sextet1 a) ∧
      q = symbol (sextet2 a b) ∧ r = symbol (sextet3 b 0) := by
  constructor
  · intro h
    simp only [decode2, Option.bind_eq_bind, Option.bind_eq_some_iff] at h
    obtain ⟨v, hv, w, hw, x, hx, h⟩ := h
    split at h
    · have hr : sextet3 (byte2 w x) 0 = x := by
        apply Fin.ext
        simp only [sextet3, toNat_byte2, UInt8.toNat_zero]
        omega
      refine ⟨_, _, (Option.some.inj h).symm, ?_⟩
      rw [sextet1_byte, sextet2_byte, hr, symbol_of_value hv, symbol_of_value hw,
        symbol_of_value hx]
      exact ⟨rfl, rfl, rfl⟩
    · cases h
  · rintro ⟨a, b, rfl, rfl, rfl, rfl⟩
    have hz : (sextet3 b 0).val % 4 = 0 := by simp [sextet3]
    simp [decode2, hz, byte1_sextet, byte2_sextet]

theorem decode3_eq_some_iff {p q r s : UInt8} {bs : List UInt8} :
    decode3 p q r s = some bs ↔ ∃ a b c, bs = [a, b, c] ∧ p = symbol (sextet1 a) ∧
      q = symbol (sextet2 a b) ∧ r = symbol (sextet3 b c) ∧ s = symbol (sextet4 c) := by
  constructor
  · intro h
    simp only [decode3, Option.bind_eq_bind, Option.bind_eq_some_iff] at h
    obtain ⟨v, hv, w, hw, x, hx, y, hy, h⟩ := h
    refine ⟨_, _, _, (Option.some.inj h).symm, ?_⟩
    rw [sextet1_byte, sextet2_byte, sextet3_byte, sextet4_byte, symbol_of_value hv,
      symbol_of_value hw, symbol_of_value hx, symbol_of_value hy]
    exact ⟨rfl, rfl, rfl, rfl⟩
  · rintro ⟨a, b, c, rfl, rfl, rfl, rfl, rfl⟩
    simp [decode3, byte1_sextet, byte2_sextet, byte3_sextet]

/-! ### The two are inverse -/

/-- A group that is not padded, and what follows it. -/
theorem decode_group {p q r s : UInt8} (hs : s ≠ pad) (cs : List UInt8) :
    decode (p :: q :: r :: s :: cs) =
      (decode3 p q r s).bind fun g => (decode cs).map (g ++ ·) := by
  cases cs with
  | nil => simp [decode, hs]
  | cons c cs =>
    rw [decode]
    · cases decode (c :: cs) <;> rfl
    · simp

theorem decode_encode (bs : List UInt8) : decode (encode bs) = some bs := by
  fun_induction encode bs with
  | case1 => rfl
  | case2 a => simp [decode, decode1_eq_some_iff.mpr ⟨rfl, rfl⟩]
  | case3 a b =>
    have h : decode2 (symbol (sextet1 a)) (symbol (sextet2 a b)) (symbol (sextet3 b 0)) =
        some [a, b] := decode2_eq_some_iff.mpr ⟨a, b, rfl, rfl, rfl, rfl⟩
    simp [decode, h]
  | case4 a b c bs ih =>
    have h : decode3 (symbol (sextet1 a)) (symbol (sextet2 a b)) (symbol (sextet3 b c))
        (symbol (sextet4 c)) = some [a, b, c] :=
      decode3_eq_some_iff.mpr ⟨a, b, c, rfl, rfl, rfl, rfl, rfl⟩
    rw [decode_group (symbol_ne_pad _), h, ih]
    rfl

theorem eq_encode_of_decode {cs bs : List UInt8} (h : decode cs = some bs) : cs = encode bs := by
  fun_induction decode cs generalizing bs with
  | case1 => obtain rfl := Option.some.inj h; rfl
  | case2 p q =>
    obtain ⟨a, ha, rfl⟩ := Option.map_eq_some_iff.mp h
    obtain ⟨rfl, rfl⟩ := decode1_eq_some_iff.mp ha
    rfl
  | case3 p q r hr =>
    obtain ⟨a, b, rfl, rfl, rfl, rfl⟩ := decode2_eq_some_iff.mp h
    rfl
  | case4 p q r s hs =>
    obtain ⟨a, b, c, rfl, rfl, rfl, rfl, rfl⟩ := decode3_eq_some_iff.mp h
    rfl
  | case5 p q r s cs hcs ih =>
    obtain ⟨g, hg, hrest⟩ := Option.bind_eq_some_iff.mp h
    obtain ⟨bs', hbs, happ⟩ := Option.bind_eq_some_iff.mp hrest
    obtain ⟨a, b, c, rfl, rfl, rfl, rfl, rfl⟩ := decode3_eq_some_iff.mp hg
    obtain rfl := Option.some.inj happ
    rw [ih hbs]
    rfl
  | case6 => cases h

/-- **What decodes to `bs`** is the encoding of `bs`, and nothing else. -/
theorem decode_eq_some_iff {cs bs : List UInt8} : decode cs = some bs ↔ cs = encode bs := by
  constructor
  · exact eq_encode_of_decode
  · rintro rfl
    exact decode_encode bs

/-- Encoded bytes are visible ASCII. -/
theorem encode_visible {bs : List UInt8} {c : UInt8} (hc : c ∈ encode bs) :
    32 ≤ c.toNat ∧ c.toNat < 127 := by
  have hpad : 32 ≤ pad.toNat ∧ pad.toNat < 127 := by decide
  fun_induction encode bs with
  | case1 => cases hc
  | case2 a =>
    simp only [List.mem_cons, List.not_mem_nil, or_false] at hc
    rcases hc with rfl | rfl | rfl | rfl
    · exact symbol_visible _
    · exact symbol_visible _
    · exact hpad
    · exact hpad
  | case3 a b =>
    simp only [List.mem_cons, List.not_mem_nil, or_false] at hc
    rcases hc with rfl | rfl | rfl | rfl
    · exact symbol_visible _
    · exact symbol_visible _
    · exact symbol_visible _
    · exact hpad
  | case4 a b c bs ih =>
    simp only [List.mem_cons] at hc
    rcases hc with rfl | rfl | rfl | rfl | hc
    · exact symbol_visible _
    · exact symbol_visible _
    · exact symbol_visible _
    · exact symbol_visible _
    · exact ih hc

end Base64

end ObfsWs
