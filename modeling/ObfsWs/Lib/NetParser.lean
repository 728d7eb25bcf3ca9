import Mathlib.Data.List.Basic

/-!
# Numbers in text

The parser that the standard library uses for addresses reads from the front of a text. A reader
that fails reads nothing. This file has its readers of characters and numbers, and the numbers as
the formatter writes them, `Nat.toDigits`.

## Main definitions

* `Reader` — what was read, and the rest of the text
* `NetParser.readGivenChar`, `readSeparator`, `readNumber`

## Main results

* `NetParser.readNumber_toDigits` — reading a number that was written
* `NetParser.rest_of_readDigits` — where reading a number stops

## Implementation notes

The parser of the standard library restores its position when a reader fails, so that an
alternative can be tried at the same place. Here a reader that fails returns nothing, and whoever
called it still has the text.

`readDigits` stops at the first character that is no digit and leaves it, and it fails on too many
digits or on a number that is too large even if a shorter one could have been read. The order of
the two checks is the one of the source, and so is the check for a leading zero, which comes last.

`Nat.toDigits` writes no leading zeros and writes zero as one digit, which is what the formatter
does with an octet and with a group.
-/

namespace ObfsWs

/-- Read an `α` off the front of a text. -/
abbrev Reader (α : Type) := List Char → Option (α × List Char)

namespace NetParser

/-! ### Characters and numbers -/

/-- `read_given_char`. -/
def readGivenChar (target : Char) : Reader Unit
  | c :: cs => if c = target then some ((), cs) else none
  | [] => none

/-- `read_separator`: a separator in front of every item but the first. -/
def readSeparator {α : Type} (sep : Char) (first : Bool) (inner : Reader α) : Reader α := fun cs =>
  if first then inner cs else (readGivenChar sep cs).bind fun r => inner r.2

/-- The value of a digit or a letter. -/
def rawDigit (c : Char) : Option ℕ :=
  if 48 ≤ c.toNat ∧ c.toNat ≤ 57 then some (c.toNat - 48)
  else if 97 ≤ c.toNat ∧ c.toNat ≤ 122 then some (c.toNat - 87)
  else if 65 ≤ c.toNat ∧ c.toNat ≤ 90 then some (c.toNat - 55)
  else none

/-- `char::to_digit`. -/
def toDigit (radix : ℕ) (c : Char) : Option ℕ := (rawDigit c).filter (· < radix)

/-- The loop of `read_number`: the number so far and the count of its digits. It fails on a number
above `max` and on too many digits. -/
def readDigits (radix max maxDigits : ℕ) : ℕ → ℕ → List Char → Option (ℕ × ℕ × List Char)
  | result, count, [] => some (result, count, [])
  | result, count, c :: cs =>
    match toDigit radix c with
    | none => some (result, count, c :: cs)
    | some d =>
      if max < result * radix + d then none
      else if maxDigits < count + 1 then none
      else readDigits radix max maxDigits (result * radix + d) (count + 1) cs

/-- `read_number`. -/
def readNumber (radix max maxDigits : ℕ) (allowZeroPrefix : Bool) : Reader ℕ := fun cs =>
  match readDigits radix max maxDigits 0 0 cs with
  | none => none
  | some (result, count, rest) =>
    if count = 0 then none
    else if !allowZeroPrefix && cs.head? == some '0' && decide (1 < count) then none
    else some (result, rest)

/-! ### Digits -/

theorem rawDigit_digitChar {d : ℕ} (hd : d < 16) : rawDigit d.digitChar = some d := by
  revert d
  decide

theorem toDigit_digitChar {radix d : ℕ} (hr : radix ≤ 16) (hd : d < radix) :
    toDigit radix d.digitChar = some d := by
  rw [toDigit, rawDigit_digitChar (by omega), Option.filter_some, if_pos (by simpa using hd)]

/-- What is written consists of digits. -/
theorem exists_of_mem_toDigits {b n : ℕ} {c : Char} (hb : 1 < b) (hc : c ∈ Nat.toDigits b n) :
    ∃ d < b, c = d.digitChar := by
  induction n using Nat.strongRecOn with
  | ind n ih =>
    rw [Nat.toDigits_eq_if hb] at hc
    split at hc
    · rename_i hn
      exact ⟨n, hn, List.mem_singleton.mp hc⟩
    · rename_i hn
      rcases List.mem_append.mp hc with hc | hc
      · exact ih (n / b) (Nat.div_lt_self (by omega) hb) hc
      · exact ⟨n % b, Nat.mod_lt n (by omega), List.mem_singleton.mp hc⟩

/-- A number is not written with a leading zero. -/
theorem head?_toDigits_ne {b n : ℕ} (hb : 1 < b) (hb16 : b ≤ 16) (hn : 0 < n) :
    (Nat.toDigits b n).head? ≠ some '0' := by
  have hzero : ∀ d < 16, 0 < d → d.digitChar ≠ '0' := by decide
  induction n using Nat.strongRecOn with
  | ind n ih =>
    rw [Nat.toDigits_eq_if hb]
    split
    · rename_i hlt
      intro h
      exact hzero n (by omega) hn (Option.some.inj h)
    · rename_i hge
      have hdiv : 0 < n / b := Nat.div_pos (by omega) (by omega)
      rw [List.head?_append_of_ne_nil _ Nat.toDigits_ne_nil]
      exact ih (n / b) (Nat.div_lt_self hn hb) hdiv

/-! ### Reading what was written -/

/-- The rest of a text does not go on with a digit. -/
def NoDigit (radix : ℕ) (cs : List Char) : Prop := ∀ c, cs.head? = some c → toDigit radix c = none

theorem readDigits_of_noDigit {radix max maxDigits result count : ℕ} {cs : List Char}
    (h : NoDigit radix cs) :
    readDigits radix max maxDigits result count cs = some (result, count, cs) := by
  cases cs with
  | nil => rfl
  | cons c cs => rw [readDigits, h c rfl]

/-- Reading the digits of `n` and going on. -/
theorem readDigits_toDigits {radix max maxDigits n : ℕ} (hr : 1 < radix) (hr16 : radix ≤ 16)
    (hn : n ≤ max) (hlen : (Nat.toDigits radix n).length ≤ maxDigits) (rest : List Char) :
    readDigits radix max maxDigits 0 0 (Nat.toDigits radix n ++ rest) =
      readDigits radix max maxDigits n (Nat.toDigits radix n).length rest := by
  induction n using Nat.strongRecOn generalizing rest with
  | ind n ih =>
    rw [Nat.toDigits_eq_if hr] at hlen ⊢
    split
    · rename_i hlt
      rw [if_pos hlt] at hlen
      rw [List.singleton_append, readDigits, toDigit_digitChar hr16 hlt]
      simp only [List.length_singleton] at hlen ⊢
      rw [if_neg (by omega), if_neg (by omega)]
      simp
    · rename_i hge
      rw [if_neg hge, List.length_append, List.length_singleton] at hlen
      have hdiv : n / radix ≤ max := Nat.le_trans (Nat.div_le_self n radix) hn
      have hmod : n % radix < radix := Nat.mod_lt n (by omega)
      have hsum : n / radix * radix + n % radix = n := by
        rw [Nat.mul_comm]
        exact Nat.div_add_mod n radix
      rw [List.append_assoc, List.singleton_append,
        ih (n / radix) (Nat.div_lt_self (by omega) hr) hdiv (by omega), readDigits,
        toDigit_digitChar hr16 hmod]
      simp only [hsum, List.length_append, List.length_singleton]
      rw [if_neg (by omega), if_neg (by omega)]

/-- **Reading a number that was written.** -/
theorem readNumber_toDigits {radix max maxDigits n : ℕ} {allowZeroPrefix : Bool} {rest : List Char}
    (hr : 1 < radix) (hr16 : radix ≤ 16) (hn : n ≤ max)
    (hlen : (Nat.toDigits radix n).length ≤ maxDigits) (hrest : NoDigit radix rest) :
    readNumber radix max maxDigits allowZeroPrefix (Nat.toDigits radix n ++ rest) =
      some (n, rest) := by
  have hpos : 0 < (Nat.toDigits radix n).length := Nat.length_toDigits_pos
  rw [readNumber, readDigits_toDigits hr hr16 hn hlen, readDigits_of_noDigit hrest]
  simp only
  rw [if_neg (by omega), if_neg]
  simp only [Bool.and_eq_true, beq_iff_eq, decide_eq_true_eq]
  rintro ⟨⟨-, hhead⟩, hcount⟩
  rw [List.head?_append_of_ne_nil _ Nat.toDigits_ne_nil] at hhead
  rcases Nat.eq_zero_or_pos n with rfl | hnpos
  · rw [Nat.toDigits_zero] at hcount
    exact absurd hcount (by decide)
  · exact head?_toDigits_ne hr hr16 hnpos hhead

/-- **Where reading a number stops.** If none of `ds` is `stop`, and behind `ds` nothing goes on
with a digit or with `stop`, then the rest does not begin with `stop`. -/
theorem rest_of_readDigits {radix max maxDigits result count r k : ℕ} {ds more rest : List Char}
    {stop : Char} (hds : ∀ c ∈ ds, c ≠ stop) (hmore : NoDigit radix more)
    (hstop : more.head? ≠ some stop)
    (h : readDigits radix max maxDigits result count (ds ++ more) = some (r, k, rest)) :
    rest.head? ≠ some stop := by
  induction ds generalizing result count with
  | nil =>
    rw [List.nil_append, readDigits_of_noDigit hmore] at h
    cases h
    exact hstop
  | cons c ds ih =>
    rw [List.cons_append, readDigits] at h
    split at h
    · cases h
      intro hc
      exact hds c (by simp) (Option.some.inj hc)
    · split at h
      · cases h
      · split at h
        · cases h
        · exact ih (fun c hc => hds c (by simp [hc])) h

/-- A number that does not begin with a digit is not read. -/
theorem readNumber_of_noDigit {radix max maxDigits : ℕ} {allowZeroPrefix : Bool} {cs : List Char}
    (h : NoDigit radix cs) : readNumber radix max maxDigits allowZeroPrefix cs = none := by
  rw [readNumber, readDigits_of_noDigit h]
  rfl

end NetParser

end ObfsWs
