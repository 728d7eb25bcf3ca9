import ObfsWs.Lib.NetParser
import ObfsWs.Lib.Slice
import Mathlib.Data.List.Induction

/-!
# Addresses in text

IPv4 and IPv6 addresses as the standard library writes and reads them. An IPv6 address is written
as eight groups in hexadecimal, the longest run of zero groups as `::`, and an address that maps an
IPv4 address with that address at its end. What is written is read back.

## What the formatter chooses

An IPv6 address has many texts and the formatter writes one of them. It shortens the first of the
longest runs of zero groups, and only if there are at least two of them; `Span.search` is that
loop. Reading has no such choice: `::` stands for as many groups as are missing. So what is
written is read back whatever run was chosen, as long as what stands in its place was zeros, and
that is all that is proved of `Span`.

An address that maps an IPv4 address is written with that address at its end. When it is read, the
reader of groups tries an IPv4 address before each group for which two are left. A group that is
followed by a colon is not the beginning of an IPv4 address, but that takes a proof: the reader
has gone some way into the text before it notices.

## Main definitions

* `Ipv4Addr`, `Ipv6Addr`, their `fmt` (`Display`) and `parse` (`FromStr`)

## Main results

* `Ipv4Addr.parse_toString`, `Ipv6Addr.parse_toString` — what is written is read back

## Scope

Zones, ports and prefixes are not part of an address and are read by other functions. What is
proved is that written texts are read back, that the two families do not read each other's texts,
and that neither reads a text with a bracket in front. Nothing is said about which other texts
are read.

## Implementation notes

Texts are lists of characters. The check in front of the IPv4 reader is about the length of the
text in bytes and counts characters here; a text in which the two differ is no address in either
case.
-/

namespace ObfsWs

open NetParser

/-- An IPv4 address by its octets. -/
structure Ipv4Addr where
  a : UInt8
  b : UInt8
  c : UInt8
  d : UInt8
  deriving DecidableEq

/-- An IPv6 address by its eight segments. -/
structure Ipv6Addr where
  segments : List UInt16
  length_segments : segments.length = 8
  deriving DecidableEq

/-! ### IPv4

Four octets in decimal with dots between them, and no octet written with a leading zero. The
reader refuses leading zeros, so there is one text for each address. -/

namespace Ipv4Addr

/-- `Ipv4Addr::from([u8; 4])`. -/
def ofBytes (bs : ByteArr 4) : Ipv4Addr :=
  match bs with
  | ⟨[a, b, c, d], _⟩ => ⟨a, b, c, d⟩

/-- `octets`. -/
def toBytes (addr : Ipv4Addr) : ByteArr 4 := ⟨[addr.a, addr.b, addr.c, addr.d], rfl⟩

theorem ofBytes_toBytes (addr : Ipv4Addr) : ofBytes addr.toBytes = addr := rfl

/-- An octet in decimal. -/
def octetText (n : UInt8) : List Char := Nat.toDigits 10 n.toNat

/-- `Display`. -/
def fmt (addr : Ipv4Addr) : List Char :=
  octetText addr.a ++ '.' :: (octetText addr.b ++ '.' :: (octetText addr.c ++ '.' ::
    octetText addr.d))

/-- `to_string`. -/
def toString (addr : Ipv4Addr) : String := String.ofList addr.fmt

/-- A group of `read_ipv4_addr`. -/
def readOctet (first : Bool) : Reader UInt8 := fun cs =>
  (readSeparator '.' first (readNumber 10 255 3 false) cs).map fun r => (.ofNat r.1, r.2)

/-- `read_ipv4_addr`. -/
def read : Reader Ipv4Addr := fun cs => do
  let (a, cs) ← readOctet true cs
  let (b, cs) ← readOctet false cs
  let (c, cs) ← readOctet false cs
  let (d, cs) ← readOctet false cs
  some (⟨a, b, c, d⟩, cs)

/-- `FromStr`: at most 15 characters, and all of them. -/
def parse (s : String) : Option Ipv4Addr :=
  if 15 < s.toList.length then none
  else
    match read s.toList with
    | some (addr, []) => some addr
    | _ => none

theorem noDigit_dot (cs : List Char) : NoDigit 10 ('.' :: cs) := by
  intro c hc
  obtain rfl := Option.some.inj hc
  decide

theorem noDigit_nil (radix : ℕ) : NoDigit radix [] := by
  intro c hc
  cases hc

theorem readNumber_octetText (n : UInt8) {rest : List Char} (hrest : NoDigit 10 rest) :
    readNumber 10 255 3 false (octetText n ++ rest) = some (n.toNat, rest) := by
  have hlt := n.toNat_lt
  refine readNumber_toDigits (by omega) (by omega) (by omega) ?_ hrest
  exact (Nat.length_toDigits_le_iff (by omega) (by omega)).mpr (by omega)

theorem readOctet_first (n : UInt8) {rest : List Char} (hrest : NoDigit 10 rest) :
    readOctet true (octetText n ++ rest) = some (n, rest) := by
  rw [readOctet, readSeparator, if_pos rfl, readNumber_octetText n hrest, Option.map_some,
    UInt8.ofNat_toNat]

theorem readOctet_next (n : UInt8) {rest : List Char} (hrest : NoDigit 10 rest) :
    readOctet false ('.' :: (octetText n ++ rest)) = some (n, rest) := by
  rw [readOctet, readSeparator, if_neg (by decide), readGivenChar, if_pos rfl, Option.bind_some,
    readNumber_octetText n hrest, Option.map_some, UInt8.ofNat_toNat]

/-- **Reading an address that was written.** -/
theorem read_fmt (addr : Ipv4Addr) {rest : List Char} (hrest : NoDigit 10 rest) :
    read (addr.fmt ++ rest) = some (addr, rest) := by
  simp only [read, fmt, List.append_assoc, List.cons_append, Option.bind_eq_bind,
    readOctet_first _ (noDigit_dot _), Option.bind_some, readOctet_next _ (noDigit_dot _),
    readOctet_next _ hrest]

theorem length_octetText (n : UInt8) : (octetText n).length ≤ 3 :=
  (Nat.length_toDigits_le_iff (by omega) (by omega)).mpr (by have := n.toNat_lt; omega)

/-- **What is written is read back.** -/
theorem parse_toString (addr : Ipv4Addr) : parse addr.toString = some addr := by
  have hlen : addr.fmt.length ≤ 15 := by
    have ha := length_octetText addr.a
    have hb := length_octetText addr.b
    have hc := length_octetText addr.c
    have hd := length_octetText addr.d
    simp only [fmt, List.length_append, List.length_cons]
    omega
  have hread := read_fmt addr (noDigit_nil 10)
  rw [List.append_nil] at hread
  rw [parse, toString, String.toList_ofList, if_neg (by omega), hread]

/-- No address begins with a text in which no dot follows the first number. -/
theorem read_eq_none {ds more : List Char} (hds : ∀ c ∈ ds, c ≠ '.') (hmore : NoDigit 10 more)
    (hdot : more.head? ≠ some '.') : read (ds ++ more) = none := by
  have hfirst : ∀ n rest, readOctet true (ds ++ more) = some (n, rest) →
      rest.head? ≠ some '.' := by
    intro n rest h
    rw [readOctet, readSeparator, if_pos rfl, readNumber] at h
    split at h
    · cases h
    · rename_i r k rest' hdigits
      split at h
      · cases h
      · split at h
        · cases h
        · cases h
          exact rest_of_readDigits hds hmore hdot hdigits
  rw [read, Option.bind_eq_bind]
  rcases hoctet : readOctet true (ds ++ more) with _ | ⟨n, rest⟩
  · rfl
  · have hnext : readOctet false rest = none := by
      have hne := hfirst n rest hoctet
      rw [readOctet, readSeparator, if_neg (by decide)]
      cases rest with
      | nil => rfl
      | cons c cs =>
        have hc : c ≠ '.' := fun h => hne (congrArg some h)
        rw [readGivenChar, if_neg hc]
        rfl
    rw [Option.bind_some]
    simp only [hnext, Option.bind_none]

/-- Nor with one that does not begin with a digit. -/
theorem read_of_noDigit {cs : List Char} (h : NoDigit 10 cs) (hdot : cs.head? ≠ some '.') :
    read cs = none := by
  have hnil : ∀ c ∈ ([] : List Char), c ≠ '.' := fun _ hc => absurd hc List.not_mem_nil
  exact read_eq_none hnil h hdot

end Ipv4Addr

/-! ### Runs of zero groups

The loop of the formatter keeps the longest run so far and the one that is going on. That what it
returns is a run of zeros is an invariant of both. -/

/-- A run of groups. -/
structure Span where
  start : ℕ
  len : ℕ
  deriving DecidableEq

namespace Span

/-- One step of the search: the longest run of zeros so far, and the one that goes on. -/
def step (acc : Span × Span) (seg : UInt16 × ℕ) : Span × Span :=
  if seg.1 = 0 then
    let current : Span := ⟨if acc.2.len = 0 then seg.2 else acc.2.start, acc.2.len + 1⟩
    (if acc.1.len < current.len then current else acc.1, current)
  else (acc.1, ⟨0, 0⟩)

/-- The search. -/
def search (segs : List UInt16) : Span × Span := segs.zipIdx.foldl step (⟨0, 0⟩, ⟨0, 0⟩)

/-- The longest run of zeros, the first one of that length. -/
def zeroes (segs : List UInt16) : Span := (search segs).1

/-- The run lies in `segs`, and all of it is zeros. -/
def Zeros (segs : List UInt16) (r : Span) : Prop :=
  r.start + r.len ≤ segs.length ∧ (segs.drop r.start).take r.len = .replicate r.len 0

theorem Zeros.append {segs : List UInt16} {r : Span} (h : Zeros segs r) (more : List UInt16) :
    Zeros (segs ++ more) r := by
  obtain ⟨hle, hzero⟩ := h
  refine ⟨by rw [List.length_append]; omega, ?_⟩
  rw [List.drop_append_of_le_length (by omega), List.take_append_of_le_length, hzero]
  rw [List.length_drop]
  omega

/-- Both runs of the search are zeros, and the one that goes on ends where the search is. -/
theorem search_spec (segs : List UInt16) :
    Zeros segs (search segs).1 ∧ Zeros segs (search segs).2 ∧
      ((search segs).2.len ≠ 0 → (search segs).2.start + (search segs).2.len = segs.length) := by
  induction segs using List.reverseRecOn with
  | nil => exact ⟨⟨Nat.le_refl _, rfl⟩, ⟨Nat.le_refl _, rfl⟩, fun h => absurd rfl h⟩
  | append_singleton segs seg ih =>
    obtain ⟨hlongest, hcurrent, hend⟩ := ih
    have hsearch : search (segs ++ [seg]) = step (search segs) (seg, segs.length) := by
      rw [search, List.zipIdx_append, List.foldl_append, search]
      simp
    rw [hsearch, step]
    by_cases hseg : seg = 0
    · subst hseg
      have hnew : Zeros (segs ++ [0])
          ⟨if (search segs).2.len = 0 then segs.length else (search segs).2.start,
            (search segs).2.len + 1⟩ := by
        by_cases hlen : (search segs).2.len = 0
        · rw [if_pos hlen, hlen]
          refine ⟨by simp, ?_⟩
          rw [List.drop_left]
          rfl
        · rw [if_neg hlen]
          have hend := hend hlen
          obtain ⟨hle, hzero⟩ := hcurrent
          have hstart : (search segs).2.start ≤ segs.length := by omega
          refine ⟨by simp; omega, ?_⟩
          have hdrop : (segs.drop (search segs).2.start).length = (search segs).2.len := by
            rw [List.length_drop]
            omega
          rw [List.take_of_length_le (Nat.le_of_eq hdrop)] at hzero
          rw [List.drop_append_of_le_length hstart, hzero, List.replicate_succ',
            List.take_of_length_le (by simp)]
      have hnewEnd : (if (search segs).2.len = 0 then segs.length else (search segs).2.start) +
          ((search segs).2.len + 1) = (segs ++ [(0 : UInt16)]).length := by
        rw [List.length_append, List.length_singleton]
        split
        · omega
        · rename_i hlen
          have := hend hlen
          omega
      rw [if_pos rfl]
      refine ⟨?_, hnew, fun _ => hnewEnd⟩
      show Zeros _ (if (search segs).1.len < (search segs).2.len + 1 then _ else _)
      by_cases hlt : (search segs).1.len < (search segs).2.len + 1
      · rw [if_pos hlt]
        exact hnew
      · rw [if_neg hlt]
        exact hlongest.append _
    · rw [if_neg hseg]
      exact ⟨hlongest.append _, ⟨by simp, rfl⟩, fun h => absurd rfl h⟩

/-- The longest run found is zeros. -/
theorem zeros_zeroes (segs : List UInt16) : Zeros segs (zeroes segs) := (search_spec segs).1

end Span

/-! ### IPv6 -/

namespace Ipv6Addr

/-- A segment in hexadecimal. -/
def hex (seg : UInt16) : List Char := Nat.toDigits 16 seg.toNat

/-- Segments behind others, each with its colon. -/
def tailText (segs : List UInt16) : List Char := segs.flatMap fun seg => ':' :: hex seg

/-- `fmt_subslice`. -/
def fmtSubslice : List UInt16 → List Char
  | [] => []
  | first :: tail => hex first ++ tailText tail

/-- The two octets of a segment. -/
def octets (seg : UInt16) : UInt8 × UInt8 := (.ofNat (seg.toNat / 256), .ofNat (seg.toNat % 256))

/-- `u16::from_be_bytes`. -/
def ofOctets (hi lo : UInt8) : UInt16 := .ofNat (hi.toNat * 256 + lo.toNat)

theorem ofOctets_octets (seg : UInt16) : ofOctets (octets seg).1 (octets seg).2 = seg := by
  have hlt := seg.toNat_lt
  apply UInt16.toNat_inj.mp
  rw [ofOctets, octets, UInt16.toNat_ofNat', UInt8.toNat_ofNat', UInt8.toNat_ofNat']
  omega

/-- The segments of 16 octets. -/
def segmentsOf : List UInt8 → List UInt16
  | hi :: lo :: bs => ofOctets hi lo :: segmentsOf bs
  | _ => []

theorem length_segmentsOf (bs : List UInt8) : (segmentsOf bs).length = bs.length / 2 := by
  fun_induction segmentsOf bs with
  | case1 hi lo bs ih =>
    rw [List.length_cons, ih, List.length_cons, List.length_cons]
    omega
  | case2 bs hbs =>
    rcases bs with _ | ⟨b, _ | ⟨b', bs⟩⟩
    · rfl
    · simp
    · exact absurd rfl (hbs b b' bs)

/-- `Ipv6Addr::from([u8; 16])`. -/
def ofBytes (bs : ByteArr 16) : Ipv6Addr :=
  ⟨segmentsOf bs.val, by rw [length_segmentsOf, bs.property]⟩

/-- The octets of segments. -/
def bytesOf (segs : List UInt16) : List UInt8 := segs.flatMap fun seg =>
  [(octets seg).1, (octets seg).2]

theorem length_bytesOf (segs : List UInt16) : (bytesOf segs).length = 2 * segs.length := by
  rw [bytesOf, List.length_flatMap]
  simp [Nat.mul_comm]

theorem segmentsOf_bytesOf (segs : List UInt16) : segmentsOf (bytesOf segs) = segs := by
  induction segs with
  | nil => rfl
  | cons seg segs ih =>
    show segmentsOf ((octets seg).1 :: (octets seg).2 :: bytesOf segs) = _
    rw [segmentsOf, ofOctets_octets, ih]

/-- `octets`. -/
def toBytes (addr : Ipv6Addr) : ByteArr 16 :=
  ⟨bytesOf addr.segments, by rw [length_bytesOf, addr.length_segments]⟩

theorem ofBytes_toBytes (addr : Ipv6Addr) : ofBytes addr.toBytes = addr := by
  rcases addr with ⟨segs, hsegs⟩
  simp only [ofBytes, toBytes, segmentsOf_bytesOf]

/-- `to_ipv4_mapped`. -/
def toIpv4Mapped (addr : Ipv6Addr) : Option Ipv4Addr :=
  match addr.segments with
  | [0, 0, 0, 0, 0, 0xffff, ab, cd] =>
    some ⟨(octets ab).1, (octets ab).2, (octets cd).1, (octets cd).2⟩
  | _ => none

/-- `Display`. -/
def fmt (addr : Ipv6Addr) : List Char :=
  match addr.toIpv4Mapped with
  | some v4 => "::ffff:".toList ++ v4.fmt
  | none =>
    let zeroes := Span.zeroes addr.segments
    if 1 < zeroes.len then
      fmtSubslice (addr.segments.take zeroes.start) ++ ':' :: ':' ::
        fmtSubslice (addr.segments.drop (zeroes.start + zeroes.len))
    else fmtSubslice addr.segments

/-- `to_string`. -/
def toString (addr : Ipv6Addr) : String := String.ofList addr.fmt

/-- `read_groups`, with `left` groups to go: the groups read, and whether they end with an
embedded IPv4 address, for which there must be two groups left. -/
def readGroups : ℕ → Bool → List Char → List UInt16 × Bool × List Char
  | 0, _, cs => ([], false, cs)
  | left + 1, first, cs =>
    match if 1 ≤ left then readSeparator ':' first Ipv4Addr.read cs else none with
    | some (v4, cs) => ([ofOctets v4.a v4.b, ofOctets v4.c v4.d], true, cs)
    | none =>
      match readSeparator ':' first (readNumber 16 65535 4 true) cs with
      | some (group, cs) =>
        let r := readGroups left false cs
        (.ofNat group :: r.1, r.2)
      | none => ([], false, cs)

/-- `read_ipv6_addr`, as segments. -/
def read : Reader (List UInt16) := fun cs =>
  let (head, headIpv4, cs) := readGroups 8 true cs
  if head.length = 8 then some (head, cs)
  else if headIpv4 then none
  else do
    let (_, cs) ← readGivenChar ':' cs
    let (_, cs) ← readGivenChar ':' cs
    let (tail, _, cs) := readGroups (8 - (head.length + 1)) true cs
    some (head ++ .replicate (8 - head.length - tail.length) 0 ++ tail, cs)

/-- `FromStr`: all of the text. -/
def parse (s : String) : Option Ipv6Addr :=
  match read s.toList with
  | some (segs, []) => if h : segs.length = 8 then some ⟨segs, h⟩ else none
  | _ => none

/-! ### Reading groups

Groups are read until something comes that is not one. What stops the reader is said by what
stands in front of it: nothing, a colon where a group should begin, or a character that is no
digit. -/

/-- The end of the text, or a colon. -/
def AtColon (cs : List Char) : Prop := ∀ c, cs.head? = some c → c = ':'

theorem AtColon.noDigit {cs : List Char} (h : AtColon cs) (radix : ℕ) : NoDigit radix cs := by
  intro c hc
  rw [h c hc, toDigit, show rawDigit ':' = none by decide]
  rfl

theorem AtColon.head?_ne {cs : List Char} (h : AtColon cs) : cs.head? ≠ some '.' := by
  intro hc
  exact absurd (h _ hc) (by decide)

theorem atColon_nil : AtColon [] := by
  intro c hc
  cases hc

theorem atColon_cons (cs : List Char) : AtColon (':' :: cs) := by
  intro c hc
  exact (Option.some.inj hc).symm

theorem atColon_tailText (segs : List UInt16) {rest : List Char} (h : AtColon rest) :
    AtColon (tailText segs ++ rest) := by
  cases segs with
  | nil => exact h
  | cons seg segs => exact atColon_cons _

theorem hex_ne {seg : UInt16} {c : Char} (hc : c ∈ hex seg) : c ≠ '.' ∧ c ≠ ':' ∧ c ≠ '[' := by
  have hall : ∀ d < 16, d.digitChar ≠ '.' ∧ d.digitChar ≠ ':' ∧ d.digitChar ≠ '[' := by decide
  obtain ⟨d, hd, rfl⟩ := exists_of_mem_toDigits (by omega) hc
  exact hall d hd

theorem readNumber_hex (seg : UInt16) {rest : List Char} (h : AtColon rest) :
    readNumber 16 65535 4 true (hex seg ++ rest) = some (seg.toNat, rest) := by
  have hlt := seg.toNat_lt
  refine readNumber_toDigits (by omega) (by omega) (by omega) ?_ (h.noDigit 16)
  exact (Nat.length_toDigits_le_iff (by omega) (by omega)).mpr (by omega)

/-- A segment is not read as an IPv4 address. -/
theorem readIpv4_hex (seg : UInt16) {rest : List Char} (h : AtColon rest) :
    Ipv4Addr.read (hex seg ++ rest) = none :=
  Ipv4Addr.read_eq_none (fun _ hc => (hex_ne hc).1) (h.noDigit 10) h.head?_ne

theorem readIpv4_atColon {rest : List Char} (h : AtColon rest) : Ipv4Addr.read rest = none :=
  Ipv4Addr.read_of_noDigit (h.noDigit 10) h.head?_ne

/-- Where no group follows. -/
def Stops (first : Bool) (cs : List Char) : Prop :=
  cs = [] ∨ ∃ rest, cs = ':' :: rest ∧ (first = true ∨ ∃ rest', rest = ':' :: rest')

theorem Stops.atColon {first : Bool} {cs : List Char} (h : Stops first cs) : AtColon cs := by
  rcases h with rfl | ⟨rest, rfl, -⟩
  · exact atColon_nil
  · exact atColon_cons rest

/-- Where no group follows, nothing is read. -/
theorem readSeparator_stops {α : Type} {first : Bool} {cs : List Char} {inner : Reader α}
    (h : Stops first cs) (hinner : ∀ rest, AtColon rest → inner rest = none) :
    readSeparator ':' first inner cs = none := by
  rw [readSeparator]
  by_cases hfirst : first = true
  · rw [if_pos hfirst]
    exact hinner cs h.atColon
  · rw [if_neg hfirst]
    rcases h with rfl | ⟨rest, rfl, hf | ⟨rest', rfl⟩⟩
    · rfl
    · exact absurd hf hfirst
    · rw [readGivenChar, if_pos rfl]
      exact hinner _ (atColon_cons rest')

theorem readGroups_stops {left : ℕ} {first : Bool} {cs : List Char} (h : Stops first cs) :
    readGroups left first cs = ([], false, cs) := by
  cases left with
  | zero => rfl
  | succ left =>
    have hipv4 := readSeparator_stops h fun _ => readIpv4_atColon
    have hnumber : readSeparator ':' first (readNumber 16 65535 4 true) cs = none :=
      readSeparator_stops h fun _ hr => readNumber_of_noDigit (hr.noDigit 16)
    rw [readGroups, hipv4, ite_self, hnumber]

/-- Segments as a group of groups: behind others, or the first ones. -/
def groupsText (first : Bool) (segs : List UInt16) : List Char :=
  if first then fmtSubslice segs else tailText segs

theorem readSeparator_groupsText {α : Type} (first : Bool) (seg : UInt16) (segs : List UInt16)
    (rest : List Char) (inner : Reader α) :
    readSeparator ':' first inner (groupsText first (seg :: segs) ++ rest) =
      inner (hex seg ++ (tailText segs ++ rest)) := by
  cases first with
  | true => simp [readSeparator, groupsText, fmtSubslice]
  | false => simp [readSeparator, groupsText, tailText, readGivenChar]

/-- **Reading groups that were written.** -/
theorem readGroups_groupsText {segs : List UInt16} {left : ℕ} {first : Bool} {rest : List Char}
    (hlen : segs.length ≤ left) (hrest : AtColon rest)
    (hstop : readGroups (left - segs.length) (first && segs.isEmpty) rest = ([], false, rest)) :
    readGroups left first (groupsText first segs ++ rest) = (segs, false, rest) := by
  induction segs generalizing left first with
  | nil =>
    have htext : groupsText first [] = [] := by
      cases first <;> rfl
    simpa [htext] using hstop
  | cons seg segs ih =>
    obtain ⟨left, rfl⟩ : ∃ n, left = n + 1 := ⟨left - 1, by simp at hlen; omega⟩
    have hmore := atColon_tailText segs hrest
    have hgroups : readGroups left false (tailText segs ++ rest) = (segs, false, rest) := by
      have hstop : readGroups (left - segs.length) (false && segs.isEmpty) rest =
          ([], false, rest) := by simpa using hstop
      exact ih (by simpa using hlen) hstop
    rw [readGroups, readSeparator_groupsText, readSeparator_groupsText, readIpv4_hex seg hmore,
      ite_self, readNumber_hex seg hmore]
    simp only [hgroups, UInt16.ofNat_toNat]

/-! ### Reading addresses -/

/-- Reading an address written without `::`. -/
theorem read_fmtSubslice {segs : List UInt16} (hlen : segs.length = 8) :
    read (fmtSubslice segs) = some (segs, []) := by
  have hgroups : readGroups 8 true (groupsText true segs ++ []) = (segs, false, []) :=
    readGroups_groupsText (Nat.le_of_eq hlen) atColon_nil (by simp [hlen, readGroups])
  rw [List.append_nil] at hgroups
  have hgroups : readGroups 8 true (fmtSubslice segs) = (segs, false, []) := hgroups
  rw [read, hgroups]
  simp only [hlen, if_true]

/-- Reading an address written with `::`. -/
theorem read_compressed {head tail : List UInt16} (hlen : head.length + tail.length < 7) :
    read (fmtSubslice head ++ ':' :: ':' :: fmtSubslice tail) =
      some (head ++ .replicate (8 - head.length - tail.length) 0 ++ tail, []) := by
  have hhead : readGroups 8 true (fmtSubslice head ++ ':' :: ':' :: fmtSubslice tail) =
      (head, false, ':' :: ':' :: fmtSubslice tail) := by
    show readGroups 8 true (groupsText true head ++ _) = _
    refine readGroups_groupsText (by omega) (atColon_cons _) ?_
    exact readGroups_stops (.inr ⟨_, rfl, .inr ⟨_, rfl⟩⟩)
  have htail : readGroups (8 - (head.length + 1)) true (fmtSubslice tail) =
      (tail, false, []) := by
    rw [← List.append_nil (fmtSubslice tail)]
    show readGroups _ true (groupsText true tail ++ _) = _
    exact readGroups_groupsText (by omega) atColon_nil (readGroups_stops (.inl rfl))
  rw [read, hhead]
  simp only [readGivenChar, if_true, Option.bind_eq_bind, Option.bind_some, htail]
  rw [if_neg (by omega), if_neg (by simp)]

/-- Reading an address that maps an IPv4 address. -/
theorem read_mapped (v4 : Ipv4Addr) :
    read ("::ffff:".toList ++ v4.fmt) =
      some ([0, 0, 0, 0, 0, 0xffff, ofOctets v4.a v4.b, ofOctets v4.c v4.d], []) := by
  have htext : "::ffff:".toList ++ v4.fmt = ':' :: ':' :: (hex 0xffff ++ ':' :: v4.fmt) := by
    have hhead : "::ffff:".toList = ':' :: ':' :: (hex 0xffff ++ [':']) := by decide
    rw [hhead]
    simp
  have hread : Ipv4Addr.read v4.fmt = some (v4, []) := by
    have h := Ipv4Addr.read_fmt v4 (Ipv4Addr.noDigit_nil 10)
    rwa [List.append_nil] at h
  have hv4 : readGroups 6 false (':' :: v4.fmt) =
      ([ofOctets v4.a v4.b, ofOctets v4.c v4.d], true, []) := by
    rw [readGroups, if_pos (by omega), readSeparator, if_neg (by decide), readGivenChar,
      if_pos rfl, Option.bind_some, hread]
  have htail : readGroups 7 true (hex 0xffff ++ ':' :: v4.fmt) =
      ([0xffff, ofOctets v4.a v4.b, ofOctets v4.c v4.d], true, []) := by
    rw [readGroups, readSeparator, if_pos rfl, readIpv4_hex _ (atColon_cons _), ite_self,
      readSeparator, if_pos rfl, readNumber_hex _ (atColon_cons _)]
    simp only [hv4]
    rfl
  rw [htext, read, readGroups_stops (.inr ⟨_, rfl, .inl rfl⟩)]
  simp only [readGivenChar, if_true, Option.bind_eq_bind, Option.bind_some, List.length_nil, htail]
  rfl

theorem segments_of_mapped {addr : Ipv6Addr} {v4 : Ipv4Addr} (h : addr.toIpv4Mapped = some v4) :
    addr.segments = [0, 0, 0, 0, 0, 0xffff, ofOctets v4.a v4.b, ofOctets v4.c v4.d] := by
  rw [toIpv4Mapped] at h
  split at h
  · rename_i ab cd hsegs
    obtain rfl := Option.some.inj h
    rw [hsegs, ofOctets_octets, ofOctets_octets]
  · cases h

/-- Cutting the run of zeros out and filling it in again. -/
theorem take_replicate_drop {segs : List UInt16} {r : Span} (h : Span.Zeros segs r) :
    segs.take r.start ++ .replicate r.len 0 ++ segs.drop (r.start + r.len) = segs := by
  rw [← h.2, List.append_assoc, ← List.drop_drop, List.take_append_drop, List.take_append_drop]

/-- **Reading an address that was written.** -/
theorem read_fmt (addr : Ipv6Addr) : read addr.fmt = some (addr.segments, []) := by
  rw [fmt]
  rcases hmapped : addr.toIpv4Mapped with _ | v4
  · have hzeros := Span.zeros_zeroes addr.segments
    have hcut := take_replicate_drop hzeros
    have hlen := addr.length_segments
    generalize Span.zeroes addr.segments = r at hzeros hcut
    have hle := hzeros.1
    simp only
    split
    · have hhead : (addr.segments.take r.start).length = r.start := by
        rw [List.length_take]
        omega
      have htail : (addr.segments.drop (r.start + r.len)).length = 8 - (r.start + r.len) := by
        rw [List.length_drop, hlen]
      rw [read_compressed (by omega), hhead, htail,
        show 8 - r.start - (8 - (r.start + r.len)) = r.len by omega, hcut]
    · exact read_fmtSubslice hlen
  · rw [read_mapped, segments_of_mapped hmapped]

/-- **What is written is read back.** -/
theorem parse_toString (addr : Ipv6Addr) : parse addr.toString = some addr := by
  rw [parse, toString, String.toList_ofList, read_fmt]
  simp only [addr.length_segments, dif_pos]

/-! ### What is not an address

The readers are tried one after the other, so it matters that the first of them refuses what the
second one should get, and that both refuse a text that should be looked up. -/

/-- An IPv6 address in text is not an IPv4 address. -/
theorem readIpv4_fmt (addr : Ipv6Addr) : Ipv4Addr.read addr.fmt = none := by
  have hsub : ∀ (segs : List UInt16) (rest : List Char), AtColon rest →
      Ipv4Addr.read (fmtSubslice segs ++ rest) = none := by
    intro segs rest hrest
    cases segs with
    | nil => exact readIpv4_atColon hrest
    | cons seg segs =>
      rw [fmtSubslice, List.append_assoc]
      exact readIpv4_hex seg (atColon_tailText segs hrest)
  rw [fmt]
  split
  · exact readIpv4_atColon (atColon_cons _)
  · simp only
    split
    · exact hsub _ _ (atColon_cons _)
    · have h := hsub addr.segments [] atColon_nil
      rwa [List.append_nil] at h

theorem parseIpv4_toString (addr : Ipv6Addr) : Ipv4Addr.parse addr.toString = none := by
  rw [Ipv4Addr.parse, toString, String.toList_ofList, readIpv4_fmt]
  exact ite_self _

end Ipv6Addr

theorem noDigit_bracket (radix : ℕ) (cs : List Char) : NoDigit radix ('[' :: cs) := by
  intro c hc
  obtain rfl := Option.some.inj hc
  rw [toDigit, show rawDigit '[' = none by decide]
  rfl

/-- Nothing with a bracket in front is an IPv4 address. -/
theorem Ipv4Addr.read_bracket (cs : List Char) : Ipv4Addr.read ('[' :: cs) = none :=
  Ipv4Addr.read_of_noDigit (noDigit_bracket 10 cs) (by simp)

theorem toList_bracket (s : String) : ("[" ++ s).toList = '[' :: s.toList := by
  rw [String.toList_append]
  rfl

theorem Ipv4Addr.parse_bracket (s : String) : Ipv4Addr.parse ("[" ++ s) = none := by
  rw [Ipv4Addr.parse, toList_bracket, Ipv4Addr.read_bracket]
  exact ite_self _

/-- Nor an IPv6 address. -/
theorem Ipv6Addr.parse_bracket (s : String) : Ipv6Addr.parse ("[" ++ s) = none := by
  have hgroups : readGroups 8 true ('[' :: s.toList) = ([], false, '[' :: s.toList) := by
    rw [readGroups, readSeparator, if_pos rfl, readSeparator, if_pos rfl,
      Ipv4Addr.read_bracket, ite_self, readNumber_of_noDigit (noDigit_bracket 16 _)]
  rw [parse, toList_bracket, read, hgroups]
  rfl

end ObfsWs
