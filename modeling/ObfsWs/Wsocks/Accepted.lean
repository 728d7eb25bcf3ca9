import ObfsWs.Wsocks.Frame

/-!
# What is accepted as frames

`Frame::recv` reads whatever a peer puts on the stream. A body is decoded exactly when it begins
with the encoding of a frame; the bytes behind it are junk that nobody looks at. So the streams
that are read as some frames are known, and any such frame can be sent on.

## Main definitions

* `Frame.Body` — a frame with junk behind it, as a peer may send it

## Main results

* `deserialize_eq_ok_iff` — what is decoded
* `received_exactly` — the streams from which given frames are received

## What a peer can do with this

A body may be longer than the frame in it, up to the length that its two bytes can say. The rest
is never looked at, so a peer may hide anything there. It may also send the same frame in many
ways. What it cannot do is to make a receiver take one frame for another, or to make it read past
the end of a body into the next one: the statement is an equivalence, and determines the frames
and the rest of the stream.

That every received frame can be sent on is not a matter of course. A body has at most 65535
bytes, and the encoding of the frame in it is no longer than the body; a format with a shorter way
of writing a length would not have this property.
-/

namespace ObfsWs

open Codec (tag)

/-! ### The messages are canonical -/

theorem NetworkError.canonical_codec : NetworkError.codec.Canonical := by
  intro bs a rest h
  obtain ⟨t, mid, htag, hvariant⟩ := Decoder.bind_eq_ok h
  obtain ⟨-, rfl⟩ := Decoder.le_eq_ok htag
  split at hvariant
  case h_7 =>
    obtain ⟨text, mid', htext, hpure⟩ := Decoder.bind_eq_ok hvariant
    obtain ⟨rfl, rfl⟩ := Decoder.pure_eq_ok hpure
    rw [Codec.canonical_string htext]
    exact (List.append_assoc _ _ _).symm
  case h_8 => cases hvariant
  -- the variants without fields
  all_goals
    obtain ⟨rfl, rfl⟩ := Decoder.pure_eq_ok hvariant
    rfl

theorem OfferError.canonical_codec : OfferError.codec.Canonical := by
  intro bs a rest h
  obtain ⟨t, mid, htag, hvariant⟩ := Decoder.bind_eq_ok h
  obtain ⟨-, rfl⟩ := Decoder.le_eq_ok htag
  split at hvariant
  · obtain ⟨e, mid', he, hpure⟩ := Decoder.bind_eq_ok hvariant
    obtain ⟨rfl, rfl⟩ := Decoder.pure_eq_ok hpure
    rw [NetworkError.canonical_codec he]
    exact (List.append_assoc _ _ _).symm
  · cases hvariant

theorem Offer.canonical_codec : Offer.codec.Canonical := by
  intro bs a rest h
  obtain ⟨t, mid, htag, hvariant⟩ := Decoder.bind_eq_ok h
  obtain ⟨-, rfl⟩ := Decoder.le_eq_ok htag
  split at hvariant
  · obtain ⟨id, mid', hid, hpure⟩ := Decoder.bind_eq_ok hvariant
    obtain ⟨rfl, rfl⟩ := Decoder.pure_eq_ok hpure
    rw [Codec.canonical_u128 hid]
    exact (List.append_assoc _ _ _).symm
  · obtain ⟨e, mid', he, hpure⟩ := Decoder.bind_eq_ok hvariant
    obtain ⟨rfl, rfl⟩ := Decoder.pure_eq_ok hpure
    rw [OfferError.canonical_codec he]
    exact (List.append_assoc _ _ _).symm
  · cases hvariant

theorem Protocol.canonical_codec : Protocol.codec.Canonical := by
  intro bs a rest h
  obtain ⟨t, mid, htag, hvariant⟩ := Decoder.bind_eq_ok h
  obtain ⟨-, rfl⟩ := Decoder.le_eq_ok htag
  split at hvariant
  · obtain ⟨dst, mid', hdst, hvariant⟩ := Decoder.bind_eq_ok hvariant
    obtain ⟨port, mid'', hport, hpure⟩ := Decoder.bind_eq_ok hvariant
    obtain ⟨rfl, rfl⟩ := Decoder.pure_eq_ok hpure
    rw [Codec.canonical_string hdst, Codec.canonical_u16 hport]
    simp only [Protocol.codec, tag, List.append_assoc]
  · obtain ⟨id, mid', hid, hpure⟩ := Decoder.bind_eq_ok hvariant
    obtain ⟨rfl, rfl⟩ := Decoder.pure_eq_ok hpure
    rw [Offer.canonical_codec hid]
    exact (List.append_assoc _ _ _).symm
  · obtain ⟨id, mid', hid, hvariant⟩ := Decoder.bind_eq_ok hvariant
    obtain ⟨payload, mid'', hpayload, hpure⟩ := Decoder.bind_eq_ok hvariant
    obtain ⟨rfl, rfl⟩ := Decoder.pure_eq_ok hpure
    rw [Codec.canonical_u128 hid, Codec.canonical_bytes hpayload]
    simp only [Protocol.codec, tag, List.append_assoc]
  · cases hvariant

theorem Frame.canonical_codec : Frame.codec.Canonical := by
  intro bs a rest h
  obtain ⟨protocol, mid, hprotocol, hrest⟩ := Decoder.bind_eq_ok h
  obtain ⟨padding, mid', hpadding, hpure⟩ := Decoder.bind_eq_ok hrest
  obtain ⟨rfl, rfl⟩ := Decoder.pure_eq_ok hpure
  rw [Protocol.canonical_codec hprotocol, Codec.canonical_bytes hpadding]
  exact (List.append_assoc _ _ _).symm

/-- **What is decoded**: the encoding of a frame, whatever stands behind it. -/
theorem deserialize_eq_ok_iff {buf : List UInt8} {f : Frame} (hlen : buf.length < 2 ^ 64) :
    deserialize buf = .ok f ↔ ∃ junk, buf = serialize f ++ junk := by
  constructor
  · intro h
    rw [deserialize] at h
    cases hdec : Frame.codec.dec buf with
    | error e =>
      rw [hdec] at h
      cases h
    | ok r =>
      obtain ⟨g, junk⟩ := r
      rw [hdec] at h
      obtain rfl : g = f := Except.ok.inj h
      exact ⟨junk, Frame.canonical_codec hdec⟩
  · rintro ⟨junk, rfl⟩
    rw [List.length_append] at hlen
    have hdec := Frame.codec.dec_enc f junk (Nat.lt_of_le_of_lt (Nat.le_add_right _ _) hlen)
    rw [deserialize, serialize, hdec]

/-! ### Streams -/

namespace Frame

/-- A frame as a peer may send it, with junk behind it in its body. -/
structure Body where
  frame : Frame
  junk : List UInt8
  /-- The length fits. -/
  fits : (serialize frame ++ junk).length < 65536

/-- The bytes on the stream. -/
def Body.bytes (b : Body) : List UInt8 := frame16 (serialize b.frame ++ b.junk)

/-- **What is received.** -/
theorem recv_eq_ok_iff {bs rest : List UInt8} {f : Frame} :
    recv bs = .ok (f, rest) ↔ ∃ b : Body, b.frame = f ∧ bs = b.bytes ++ rest := by
  constructor
  · intro h
    rw [recv_eq] at h
    cases hread : readFrame16 RecvError.unexpectedEof bs with
    | error e =>
      rw [hread] at h
      cases h
    | ok r =>
      obtain ⟨buf, rest'⟩ := r
      rw [hread] at h
      obtain ⟨hlen, hbytes⟩ := readFrame16_eq_ok_iff.mp hread
      cases hdec : deserialize buf with
      | error e =>
        simp only [hdec] at h
        cases h
      | ok g =>
        simp only [hdec] at h
        obtain ⟨rfl, rfl⟩ := Prod.mk.inj (Except.ok.inj h)
        obtain ⟨junk, rfl⟩ := (deserialize_eq_ok_iff (by omega)).mp hdec
        exact ⟨⟨g, junk, hlen⟩, rfl, hbytes⟩
  · rintro ⟨⟨f, junk, hlen⟩, rfl, rfl⟩
    refine recv_of_readFrame16 (readFrame16_eq_ok_iff.mpr ⟨hlen, rfl⟩) ?_
    exact (deserialize_eq_ok_iff (by omega)).mpr ⟨junk, rfl⟩

/-- Reading any number of frames. -/
theorem recvN_eq_ok_iff {n : ℕ} {bs rest : List UInt8} {fs : List Frame} :
    stream.recvN n bs = .ok (fs, rest) ↔ ∃ bodies : List Body, bodies.length = n ∧
      bodies.map Body.frame = fs ∧ bs = bodies.flatMap Body.bytes ++ rest := by
  constructor
  · intro h
    induction n generalizing bs fs with
    | zero =>
      obtain ⟨rfl, rfl⟩ := Prod.mk.inj (Except.ok.inj h)
      exact ⟨[], rfl, rfl, rfl⟩
    | succ n ih =>
      obtain ⟨f, mid, fs', hrecv, hrest, rfl⟩ := stream.recvN_succ_eq_ok h
      obtain ⟨b, rfl, rfl⟩ := recv_eq_ok_iff.mp hrecv
      obtain ⟨bodies, rfl, rfl, rfl⟩ := ih hrest
      refine ⟨b :: bodies, rfl, rfl, ?_⟩
      rw [List.flatMap_cons, List.append_assoc]
  · rintro ⟨bodies, rfl, rfl, rfl⟩
    induction bodies with
    | nil => rfl
    | cons b bodies ih =>
      rw [List.flatMap_cons, List.append_assoc]
      exact stream.recvN_succ (recv_eq_ok_iff.mpr ⟨b, rfl, rfl⟩) ih

/-- A received frame fits. -/
theorem Body.fits_frame (b : Body) : b.frame.fits = true := by
  have h := b.fits
  rw [List.length_append] at h
  rw [fits_iff]
  omega

/-- Without its junk the frame is no longer. -/
theorem Body.length_enc_le (b : Body) : (stream.enc b.frame).length ≤ b.bytes.length := by
  show (frame16 (serialize b.frame)).length ≤ (frame16 (serialize b.frame ++ b.junk)).length
  rw [length_frame16, length_frame16, List.length_append]
  omega

theorem length_wire_le (bodies : List Body) :
    (stream.wire (bodies.map Body.frame)).length ≤ (bodies.flatMap Body.bytes).length := by
  induction bodies with
  | nil => exact Nat.le_refl _
  | cons b bodies ih =>
    have hb := b.length_enc_le
    rw [List.map_cons, Delimited.wire_cons, List.flatMap_cons, List.length_append,
      List.length_append]
    omega

end Frame

/-- **What is received, exactly.** For any bytes that a peer may put on the stream: frames are
received from it if and only if it begins with their encodings, each behind its length and with any
junk behind it, and what remains is what stands behind the last of them. All that is received can
be sent on, and takes no more bytes than it came in. -/
theorem received_exactly (n : ℕ) (bs : List UInt8) (fs : List Frame) (rest : List UInt8) :
    (Frame.stream.recvN n bs = .ok (fs, rest) ↔ ∃ bodies : List Frame.Body, bodies.length = n ∧
      bodies.map Frame.Body.frame = fs ∧ bs = bodies.flatMap Frame.Body.bytes ++ rest) ∧
    (Frame.stream.recvN n bs = .ok (fs, rest) →
      (Frame.sendAll fs []).1 = fs ∧ (Frame.sendAll fs []).2.length + rest.length ≤ bs.length) := by
  refine ⟨Frame.recvN_eq_ok_iff, fun h => ?_⟩
  obtain ⟨bodies, -, rfl, rfl⟩ := Frame.recvN_eq_ok_iff.mp h
  have hfits : (bodies.map Frame.Body.frame).filter Frame.fits = bodies.map Frame.Body.frame := by
    rw [List.filter_eq_self]
    intro f hf
    obtain ⟨b, -, rfl⟩ := List.mem_map.mp hf
    exact b.fits_frame
  have hlen := Frame.length_wire_le bodies
  rw [Frame.sendAll_eq, hfits, List.nil_append]
  refine ⟨rfl, ?_⟩
  rw [List.length_append]
  exact Nat.add_le_add_right hlen _

/-- A data frame with one byte of junk behind it. -/
theorem received_exactly_junk :
    let f : Frame := ⟨.tcpData 7 [1], [0]⟩
    Frame.stream.recvN 1 (frame16 (serialize f ++ [9]) ++ [5]) = .ok ([f], [5]) ∧
      (Frame.sendAll [f] []).1 = [f] ∧ (Frame.sendAll [f] []).2.length + 1 ≤ 42 := by
  intro f
  have hrecv := (received_exactly 1 (frame16 (serialize f ++ [9]) ++ [5]) [f] [5]).1.mpr
    ⟨[⟨f, [9], by decide⟩], rfl, rfl, rfl⟩
  exact ⟨hrecv, (received_exactly _ _ _ _).2 hrecv⟩

end ObfsWs
