import Mathlib.Data.List.Basic

/-!
# Slice operations that can panic

A slice is a list. The operations whose Rust counterparts panic return `none` where those panic:
a range outside the slice, `copy_from_slice` between different lengths, and an unsigned
subtraction below zero (overflow checks are on).

## Why these are partial

A proof that a function does not panic is a proof that none of its slice operations is `none`, and
such a proof must not be lost in a definition that quietly does something else. So the operations
fail here exactly where they panic, and a caller that has checked a bound in front of them must
show that the check is good enough. `List.take` and `List.drop`, which never fail, appear in the
lemmas only: they say what the operations are once the bounds are known.
-/

namespace ObfsWs

/-- `[u8; n]`. -/
abbrev ByteArr (n : ℕ) := {bs : List UInt8 // bs.length = n}

namespace Slice

variable {β : Type}

/-- `a - b` on `usize`. -/
def sub (a b : ℕ) : Option ℕ := if b ≤ a then some (a - b) else none

/-- `v[i..j]`. -/
def range (v : List β) (i j : ℕ) : Option (List β) :=
  if i ≤ j ∧ j ≤ v.length then some ((v.take j).drop i) else none

/-- `dst[i..j].copy_from_slice(src)`. -/
def copyFrom (dst : List β) (i j : ℕ) (src : List β) : Option (List β) :=
  if i ≤ j ∧ j ≤ dst.length ∧ src.length = j - i then
    some (dst.take i ++ src ++ dst.drop j)
  else none

theorem sub_of_le {a b : ℕ} (h : b ≤ a) : sub a b = some (a - b) := if_pos h

theorem range_to {v : List β} {j : ℕ} (h : j ≤ v.length) : range v 0 j = some (v.take j) := by
  simp [range, h]

theorem range_from {v : List β} {i : ℕ} (h : i ≤ v.length) :
    range v i v.length = some (v.drop i) := by
  simp [range, h]

theorem copyFrom_of_le {dst src : List β} {i j : ℕ} (hj : j = i + src.length)
    (h : j ≤ dst.length) : copyFrom dst i j src = some (dst.take i ++ src ++ dst.drop j) :=
  if_pos ⟨by omega, h, by omega⟩

end Slice

end ObfsWs
