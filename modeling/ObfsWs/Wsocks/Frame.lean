import ObfsWs.Lib.Codec
import ObfsWs.Lib.Framing

/-!
# Frames of the wsocks protocol

The frames that client and server exchange over one mux stream, their `bincode` encoding, and
`Frame::send` and `Frame::recv`. A writer that does not fail is the list of the bytes written to
it so far; a reader is the list of the bytes still to come.

## What is assumed

Of `bincode` its default configuration, as documented: integers little-endian and of fixed width,
a `u32` tag for each variant in the order of the declaration, a `u64` length in front of vectors
and strings. `deserialize` reads a value off the front and ignores what follows; it checks tags
and UTF-8. Its limits on allocation are not modelled, because a body has at most 65535 bytes.

`write_all` and `read_exact` are on the bytes of one mux stream. What they do when the stream
breaks is not the business of this file: `Relay` has the steps for it.

## The length field

`Frame::send` writes the length of the encoding as a `u16` and bails when it does not fit. It
checks before it writes anything, so a frame that is too long leaves no trace on the stream.
`Frame.message` has the check where the source has it.

## Main definitions

* `NetworkError`, `OfferError`, `Protocol`, `Frame` — the messages, each with its codec
* `Frame.message` — the bytes that `Frame::send` hands to `write_all`, or why it bails
* `Frame.send`, `Frame.recv`
* `Frame.Leads` — a frame stands at the front of some bytes

## Main results

* `Frame.stream` — frames that fit form a delimited format
* `Frame.leads_iff` — what is received
* `frames_survive_stream` — sending and receiving lists of frames

## Implementation notes

Every message is one `Codec`, put together from the codecs of its fields; that it is lawful is a
field of the codec and is proved with it. `Delimited` then has what lists of frames need. The
padding of a frame is a number of zero bytes that the source draws at random; here the number is
an argument, so that nothing depends on how it is drawn.
-/

namespace ObfsWs

/-! ### The messages

As the source declares them, variants and fields in the same order, since the order is the
encoding. Padding comes last. -/

/-- `NetworkError`. -/
inductive NetworkError
  | serverFailure
  | connectionNotAllowed
  | networkUnreachable
  | hostUnreachable
  | connectionRefused
  | ttlExpired
  | other (text : String)
  deriving DecidableEq

/-- The `std::io::ErrorKind`s that `NetworkError::from` tells apart. -/
inductive IoErrorKind
  | connectionRefused
  | connectionReset
  | connectionAborted
  | brokenPipe
  | timedOut
  | permissionDenied
  | other
  deriving DecidableEq

/-- A `std::io::Error`: its kind and how it is formatted by `{:?}`. -/
structure IoError where
  kind : IoErrorKind
  debug : String

/-- `NetworkError::from`. -/
def NetworkError.fromIo (err : IoError) : NetworkError :=
  match err.kind with
  | .connectionRefused => .connectionRefused
  | .connectionReset => .connectionRefused
  | .connectionAborted => .connectionRefused
  | .brokenPipe => .connectionRefused
  | .timedOut => .hostUnreachable
  | .permissionDenied => .connectionNotAllowed
  | .other => .other err.debug

/-- `OfferError`. -/
inductive OfferError
  | unableConnect (e : NetworkError)
  deriving DecidableEq

/-- The result that a `TcpOffer` carries. -/
abbrev Offer := Except OfferError (BitVec 128)

/-- `Protocol`. -/
inductive Protocol
  /-- The client wants a new TCP connection. -/
  | tcpConnect (dst : String) (port : UInt16)
  /-- The server offers an id, or tells why not. -/
  | tcpOffer (id : Offer)
  /-- Bytes of the proxied connection, in either direction. -/
  | tcpData (id : BitVec 128) (payload : List UInt8)

/-- `Frame`: a message and junk that hides its length. -/
structure Frame where
  /-- The message. -/
  protocol : Protocol
  /-- Ignored by the receiver. -/
  padding : List UInt8

/-- The bytes of the proxied connection that a frame carries. -/
def Frame.payload (f : Frame) : List UInt8 :=
  match f.protocol with
  | .tcpData _ payload => payload
  | _ => []

/-- `Frame::from`, with the drawn length of the padding. -/
def Frame.fromProtocol (protocol : Protocol) (paddingLen : ℕ) : Frame :=
  ⟨protocol, List.replicate paddingLen 0⟩

/-! ### Encoding

Each decoder reads a tag and then what the variant has. A tag that is none of the enumeration's is
an error that names it. -/

open Codec (tag)

/-- Variants in the order of the source; a variant without fields is its tag alone. -/
def NetworkError.codec : Codec NetworkError where
  enc
    | .serverFailure => tag 0
    | .connectionNotAllowed => tag 1
    | .networkUnreachable => tag 2
    | .hostUnreachable => tag 3
    | .connectionRefused => tag 4
    | .ttlExpired => tag 5
    | .other text => tag 6 ++ Codec.string.enc text
  dec := do
    match ← Decoder.le 4 with
    | 0 => pure .serverFailure
    | 1 => pure .connectionNotAllowed
    | 2 => pure .networkUnreachable
    | 3 => pure .hostUnreachable
    | 4 => pure .connectionRefused
    | 5 => pure .ttlExpired
    | 6 => do
      let text ← Codec.string.dec
      pure (.other text)
    | t => throw (.invalidTag t)
  dec_enc e rest h := by
    cases e with
    | other text =>
      rw [Codec.dec_tag_bind (by decide)]
      exact Codec.string.dec_enc_map _ rest (by rw [List.length_append] at h; omega)
    | _ => exact Decoder.bind_of_ok (Decoder.le_append (by decide) rest)

/-- `OfferError`. -/
def OfferError.codec : Codec OfferError where
  enc
    | .unableConnect e => tag 0 ++ NetworkError.codec.enc e
  dec := do
    match ← Decoder.le 4 with
    | 0 => do
      let e ← NetworkError.codec.dec
      pure (.unableConnect e)
    | t => throw (.invalidTag t)
  dec_enc e rest h := by
    obtain ⟨e⟩ := e
    rw [Codec.dec_tag_bind (by decide)]
    exact NetworkError.codec.dec_enc_map _ rest (by rw [List.length_append] at h; omega)

/-- `Result<u128, OfferError>`. -/
def Offer.codec : Codec Offer where
  enc
    | .ok id => tag 0 ++ Codec.u128.enc id
    | .error e => tag 1 ++ OfferError.codec.enc e
  dec := do
    match ← Decoder.le 4 with
    | 0 => do
      let id ← Codec.u128.dec
      pure (.ok id)
    | 1 => do
      let e ← OfferError.codec.dec
      pure (.error e)
    | t => throw (.invalidTag t)
  dec_enc o rest h := by
    cases o with
    | ok id =>
      rw [Codec.dec_tag_bind (by decide)]
      exact Codec.u128.dec_enc_map _ rest (by rw [List.length_append] at h; omega)
    | error e =>
      rw [Codec.dec_tag_bind (by decide)]
      exact OfferError.codec.dec_enc_map _ rest (by rw [List.length_append] at h; omega)

/-- `Protocol`. -/
def Protocol.codec : Codec Protocol where
  enc
    | .tcpConnect dst port => tag 0 ++ (Codec.string.enc dst ++ Codec.u16.enc port)
    | .tcpOffer id => tag 1 ++ Offer.codec.enc id
    | .tcpData id payload => tag 2 ++ (Codec.u128.enc id ++ Codec.bytes.enc payload)
  dec := do
    match ← Decoder.le 4 with
    | 0 => do
      let dst ← Codec.string.dec
      let port ← Codec.u16.dec
      pure (.tcpConnect dst port)
    | 1 => do
      let id ← Offer.codec.dec
      pure (.tcpOffer id)
    | 2 => do
      let id ← Codec.u128.dec
      let payload ← Codec.bytes.dec
      pure (.tcpData id payload)
    | t => throw (.invalidTag t)
  dec_enc p rest h := by
    cases p with
    | tcpConnect dst port =>
      simp only [List.length_append] at h
      rw [Codec.dec_tag_bind (by decide)]
      show (Codec.string.dec >>= _) _ = _
      rw [Codec.dec_enc_bind _ _ _ _ (by rw [List.length_append]; omega)]
      exact Codec.u16.dec_enc_map _ rest (by omega)
    | tcpOffer id =>
      rw [Codec.dec_tag_bind (by decide)]
      exact Offer.codec.dec_enc_map _ rest (by rw [List.length_append] at h; omega)
    | tcpData id payload =>
      simp only [List.length_append] at h
      rw [Codec.dec_tag_bind (by decide)]
      show (Codec.u128.dec >>= _) _ = _
      rw [Codec.dec_enc_bind _ _ _ _ (by rw [List.length_append]; omega)]
      exact Codec.bytes.dec_enc_map _ rest (by omega)

/-- `Frame`. -/
def Frame.codec : Codec Frame where
  enc f := Protocol.codec.enc f.protocol ++ Codec.bytes.enc f.padding
  dec := do
    let protocol ← Protocol.codec.dec
    let padding ← Codec.bytes.dec
    pure ⟨protocol, padding⟩
  dec_enc f rest h := by
    rw [Codec.dec_enc_bind _ _ _ _ h]
    exact Codec.bytes.dec_enc_map _ rest (by rw [List.length_append] at h; omega)

/-- `bincode::serialize`, which sets no limit. -/
def serialize (f : Frame) : List UInt8 := Frame.codec.enc f

/-- `bincode::deserialize`, which allows trailing bytes. -/
def deserialize (buf : List UInt8) : Except DecodeError Frame :=
  match Frame.codec.dec buf with
  | .ok (f, _) => .ok f
  | .error e => .error e

theorem deserialize_serialize {f : Frame} (h : (serialize f).length < 2 ^ 64) :
    deserialize (serialize f) = .ok f := by
  have hdec := Frame.codec.dec_enc f [] h
  rw [List.append_nil] at hdec
  rw [deserialize, serialize, hdec]

/-- A data frame is its payload, its padding and 36 bytes. -/
theorem length_serialize_tcpData (id : BitVec 128) (payload padding : List UInt8) :
    (serialize ⟨.tcpData id payload, padding⟩).length = 36 + payload.length + padding.length := by
  simp only [serialize, Frame.codec, Protocol.codec, List.length_append, Codec.length_tag,
    Codec.length_enc_u128, Codec.length_enc_bytes]
  omega

/-! ### Sending and receiving

On bytes: what is appended to a stream, and what is taken off its front. Receiving fails when the
stream ends, in the length or in the body, and when the body cannot be decoded. -/

/-- An `anyhow::Error` of `Frame::send` that is not one of the writer's. -/
inductive SendError
  | bail (text : String)
  deriving DecidableEq

/-- Why `Frame::recv` failed. -/
inductive RecvError
  /-- From `read_exact`. -/
  | unexpectedEof
  /-- From `bincode`. -/
  | decode (e : DecodeError)
  deriving DecidableEq

namespace Frame

/-- `Frame::send` up to `write_all`. -/
def message (f : Frame) : Except SendError (List UInt8) :=
  let buf := serialize f
  let len := buf.length
  if len > 65535 then
    .error (.bail
      "Bug: Protocol Frame too large! all frame should equal or small than 65535.")
  else
    let msg := toBE16 len
    .ok (msg ++ buf)

/-- `Frame::send`, to a writer that does not fail. -/
def send (f : Frame) (relconn : List UInt8) : Except SendError Unit × List UInt8 :=
  match f.message with
  | .error e => (.error e, relconn)
  | .ok msg => (.ok (), relconn ++ msg)

/-- `Frame::recv`. -/
def recv (relconn : List UInt8) : Except RecvError (Frame × List UInt8) := do
  let (len, relconn) ← readExact .unexpectedEof 2 relconn
  let len := ofBE16 len
  let (buf, relconn) ← readExact .unexpectedEof len relconn
  match deserialize buf with
  | .error e => .error (.decode e)
  | .ok this => .ok (this, relconn)

/-- The frames that `send` does not reject. -/
def fits (f : Frame) : Bool := (serialize f).length ≤ 65535

theorem fits_iff {f : Frame} : f.fits = true ↔ (serialize f).length ≤ 65535 := decide_eq_true_iff

theorem fits_eq_false_iff {f : Frame} : f.fits = false ↔ 65535 < (serialize f).length := by
  rw [← Bool.not_eq_true, fits_iff, Nat.not_le]

/-- The bytes of a frame that fits. -/
theorem message_of_fits {f : Frame} (h : f.fits = true) :
    f.message = .ok (frame16 (serialize f)) := by
  rw [fits_iff] at h
  exact if_neg (by omega)

/-- `send` of a frame that does not fit. -/
theorem message_of_not_fits {f : Frame} (h : f.fits = false) :
    f.message = .error (.bail
      "Bug: Protocol Frame too large! all frame should equal or small than 65535.") := by
  rw [fits_eq_false_iff] at h
  exact if_pos h

/-- `recv` reads a length and a body, and decodes the body. -/
theorem recv_eq (relconn : List UInt8) :
    recv relconn = match readFrame16 RecvError.unexpectedEof relconn with
      | .error e => .error e
      | .ok (buf, relconn) =>
        match deserialize buf with
        | .error e => .error (.decode e)
        | .ok this => .ok (this, relconn) := by
  rw [recv, readFrame16]
  rcases readExact RecvError.unexpectedEof 2 relconn with e | ⟨len, relconn'⟩
  · rfl
  · show (readExact RecvError.unexpectedEof (ofBE16 len) relconn' >>= _) = _
    simp only
    rcases readExact RecvError.unexpectedEof (ofBE16 len) relconn' with e | ⟨buf, rest⟩
    · rfl
    · rfl

/-- A frame that is read, and whose body decodes. -/
theorem recv_of_readFrame16 {relconn buf rest : List UInt8} {f : Frame}
    (hread : readFrame16 RecvError.unexpectedEof relconn = .ok (buf, rest))
    (hdec : deserialize buf = .ok f) : recv relconn = .ok (f, rest) := by
  rw [recv_eq, hread]
  simp only [hdec]

/-- A frame that is not all there. -/
theorem recv_short {relconn : List UInt8}
    (hread : readFrame16 RecvError.unexpectedEof relconn = .error .unexpectedEof) :
    recv relconn = .error .unexpectedEof := by
  rw [recv_eq, hread]

/-- The bytes begin with a whole frame, and its body decodes to `f`. -/
def Leads (f : Frame) (relconn : List UInt8) : Prop :=
  ∃ body rest, body.length < 65536 ∧ relconn = frame16 body ++ rest ∧ deserialize body = .ok f

/-- What is received leads the stream. -/
theorem leads_of_recv {relconn rest : List UInt8} {f : Frame} (h : recv relconn = .ok (f, rest)) :
    f.Leads relconn := by
  rw [recv_eq] at h
  rcases hread : readFrame16 RecvError.unexpectedEof relconn with e | ⟨buf, rest'⟩
  · rw [hread] at h
    cases h
  · rw [hread] at h
    obtain ⟨hlen, hbytes⟩ := readFrame16_eq_ok_iff.mp hread
    rcases hdec : deserialize buf with e | g
    · simp only [hdec] at h
      cases h
    · simp only [hdec] at h
      obtain ⟨rfl, rfl⟩ := Prod.mk.inj (Except.ok.inj h)
      exact ⟨buf, rest', hlen, hbytes, hdec⟩

/-- **A frame is received exactly when it leads the stream.** -/
theorem leads_iff {relconn : List UInt8} {f : Frame} :
    f.Leads relconn ↔ ∃ rest, recv relconn = .ok (f, rest) := by
  constructor
  · rintro ⟨body, rest, hlen, hbytes, hdec⟩
    exact ⟨rest, recv_of_readFrame16 (readFrame16_eq_ok_iff.mpr ⟨hlen, hbytes⟩) hdec⟩
  · rintro ⟨rest, h⟩
    exact leads_of_recv h

/-- At most one frame leads a stream. -/
theorem Leads.unique {relconn rest : List UInt8} {f g : Frame} (hg : g.Leads relconn)
    (h : recv relconn = .ok (f, rest)) : g = f := by
  obtain ⟨rest', hg'⟩ := leads_iff.mp hg
  exact (Prod.mk.inj (Except.ok.inj (hg'.symm.trans h))).1

/-- Nothing leads a stream from which nothing is received. -/
theorem not_leads_of_error {relconn : List UInt8} {e : RecvError} (h : recv relconn = .error e) :
    ¬ ∃ f : Frame, f.Leads relconn := by
  rintro ⟨f, hf⟩
  obtain ⟨rest, hok⟩ := leads_iff.mp hf
  rw [h] at hok
  cases hok

/-- **Frames are delimited.** -/
def stream : Delimited Frame RecvError where
  enc f := frame16 (serialize f)
  recv := recv
  ok f := f.fits = true
  eof := .unexpectedEof
  recv_enc f rest h := by
    rw [fits_iff] at h
    exact recv_of_readFrame16 (readFrame16_append _ (by omega) rest)
      (deserialize_serialize (by omega))
  recv_short f p h hp hne := by
    rw [fits_iff] at h
    exact recv_short (readFrame16_short _ (by omega) hp hne)
  recv_nil := rfl

/-! ### Lists of frames -/

/-- Send frames in order, going on after a rejected one. Returns those that were sent. -/
def sendAll : List Frame → List UInt8 → List Frame × List UInt8
  | [], relconn => ([], relconn)
  | f :: fs, relconn =>
    match f.send relconn with
    | (.ok (), relconn) =>
      let (sent, relconn) := sendAll fs relconn
      (f :: sent, relconn)
    | (.error _, relconn) => sendAll fs relconn

theorem send_of_fits {f : Frame} (h : f.fits = true) (relconn : List UInt8) :
    f.send relconn = (.ok (), relconn ++ stream.enc f) := by
  rw [send, message_of_fits h]
  rfl

theorem send_of_not_fits {f : Frame} (h : f.fits = false) (relconn : List UInt8) :
    f.send relconn = (.error (.bail
      "Bug: Protocol Frame too large! all frame should equal or small than 65535."),
      relconn) := by
  rw [send, message_of_not_fits h]

/-- Sending writes the frames that fit, one after the other. -/
theorem sendAll_eq (fs : List Frame) (relconn : List UInt8) :
    sendAll fs relconn = (fs.filter fits, relconn ++ stream.wire (fs.filter fits)) := by
  induction fs generalizing relconn with
  | nil =>
    show ([], relconn) = ([], relconn ++ [])
    rw [List.append_nil]
  | cons f fs ih =>
    cases h : f.fits with
    | true =>
      rw [sendAll, send_of_fits h, List.filter_cons_of_pos h, Delimited.wire_cons]
      simp only [ih, List.append_assoc]
    | false =>
      rw [sendAll, send_of_not_fits h, List.filter_cons_of_neg (by simp [h])]
      exact ih relconn

theorem fits_of_mem_sendAll {fs : List Frame} {f : Frame} (h : f ∈ (sendAll fs []).1) :
    stream.ok f := by
  rw [sendAll_eq] at h
  exact (List.mem_filter.mp h).2

theorem sendAll_wire (fs : List Frame) : (sendAll fs []).2 = stream.wire (sendAll fs []).1 := by
  rw [sendAll_eq, List.nil_append]

/-- What one `send` does. -/
theorem send_exact (f : Frame) (relconn : List UInt8) :
    (65535 < (serialize f).length → ∃ e, f.send relconn = (.error e, relconn)) ∧
    ((serialize f).length ≤ 65535 →
      ∃ len, len.length = 2 ∧ ofBE16 len = (serialize f).length ∧
        f.send relconn = (.ok (), relconn ++ (len ++ serialize f))) := by
  constructor
  · intro hlong
    exact ⟨_, send_of_not_fits (fits_eq_false_iff.mpr hlong) relconn⟩
  · intro hle
    refine ⟨toBE16 (serialize f).length, rfl, ofBE16_toBE16 (by omega), ?_⟩
    exact send_of_fits (fits_iff.mpr hle) relconn

/-- What one `recv` does among the frames sent: it returns the frame whose turn it is and leaves
the stream at the first byte behind it. -/
theorem recv_sendAll (fs : List Frame) {i : ℕ} (hi : i < (sendAll fs []).1.length)
    (rest : List UInt8) :
    ∃ after, (sendAll fs []).2 =
        stream.wire ((sendAll fs []).1.take i) ++ (stream.enc (sendAll fs []).1[i] ++ after) ∧
      stream.recvN i ((sendAll fs []).2 ++ rest) = .ok ((sendAll fs []).1.take i,
        stream.enc (sendAll fs []).1[i] ++ (after ++ rest)) ∧
      recv (stream.enc (sendAll fs []).1[i] ++ (after ++ rest)) =
        .ok ((sendAll fs []).1[i], after ++ rest) := by
  have hok : ∀ f ∈ (sendAll fs []).1, stream.ok f := fun f hf => fits_of_mem_sendAll hf
  rw [sendAll_wire]
  generalize (sendAll fs []).1 = sent at hi hok ⊢
  have hsplit : stream.wire sent =
      stream.wire (sent.take i) ++ (stream.enc sent[i] ++ stream.wire (sent.drop (i + 1))) := by
    rw [← Delimited.wire_cons, ← List.drop_eq_getElem_cons hi, ← Delimited.wire_append,
      List.take_append_drop]
  refine ⟨stream.wire (sent.drop (i + 1)), hsplit, ?_, ?_⟩
  · rw [hsplit, List.append_assoc, List.append_assoc]
    exact stream.recvN_take hok hi.le _
  · exact stream.recv_enc _ _ (hok _ (List.getElem_mem hi))

/-- What repeated `recv` does on a stream that was cut short. -/
theorem recv_cut (fs : List Frame) {p : List UInt8} (hp : p <+: (sendAll fs []).2)
    (hne : p ≠ (sendAll fs []).2) :
    ∃ (k : ℕ) (hk : k < (sendAll fs []).1.length) (r : List UInt8),
      p = stream.wire ((sendAll fs []).1.take k) ++ r ∧
      r.length < (stream.enc (sendAll fs []).1[k]).length ∧
      stream.recvN k p = .ok ((sendAll fs []).1.take k, r) ∧
      recv r = .error .unexpectedEof := by
  have hok : ∀ f ∈ (sendAll fs []).1, stream.ok f := fun f hf => fits_of_mem_sendAll hf
  rw [sendAll_wire] at hp hne
  generalize (sendAll fs []).1 = sent at hp hne hok ⊢
  obtain ⟨k, hk, r, rfl, hr, hrne⟩ := stream.exists_whole hp hne
  have hlt : r.length < (stream.enc sent[k]).length := by
    have hlen : r.length ≠ (stream.enc sent[k]).length := fun he => hrne (hr.eq_of_length he)
    have hle := hr.length_le
    omega
  refine ⟨k, hk, r, rfl, hlt, stream.recvN_take hok hk.le r, ?_⟩
  exact stream.recv_short _ _ (hok _ (List.getElem_mem hk)) hr hrne

end Frame

/-- **Frames survive the stream.** `send` rejects a frame exactly when it is too long, writing
nothing, and else writes its length and its bytes. The frames that were sent are received in
order, one call for each and no byte more, whatever follows them; when the stream is cut short,
those that are wholly there are received and then there is an error. -/
theorem frames_survive_stream :
    (∀ (f : Frame) (relconn : List UInt8),
      (65535 < (serialize f).length → ∃ e, f.send relconn = (.error e, relconn)) ∧
      ((serialize f).length ≤ 65535 →
        ∃ len, len.length = 2 ∧ ofBE16 len = (serialize f).length ∧
          f.send relconn = (.ok (), relconn ++ (len ++ serialize f)))) ∧
    ∀ fs : List Frame,
      let sent := (Frame.sendAll fs []).1
      let written := (Frame.sendAll fs []).2
      (∀ rest, Frame.stream.recvN sent.length (written ++ rest) = .ok (sent, rest)) ∧
      (∀ (i : ℕ) (hi : i < sent.length) (rest : List UInt8),
        ∃ after,
          written = Frame.stream.wire (sent.take i) ++ (Frame.stream.enc sent[i] ++ after) ∧
          Frame.stream.recvN i (written ++ rest) =
            .ok (sent.take i, Frame.stream.enc sent[i] ++ (after ++ rest)) ∧
          Frame.recv (Frame.stream.enc sent[i] ++ (after ++ rest)) =
            .ok (sent[i], after ++ rest)) ∧
      ∀ p, p <+: written → p ≠ written →
        ∃ (k : ℕ) (hk : k < sent.length) (r : List UInt8),
          p = Frame.stream.wire (sent.take k) ++ r ∧
          r.length < (Frame.stream.enc sent[k]).length ∧
          Frame.stream.recvN k p = .ok (sent.take k, r) ∧
          Frame.recv r = .error .unexpectedEof := by
  refine ⟨Frame.send_exact, fun fs => ⟨?_, ?_, ?_⟩⟩
  · intro rest
    rw [Frame.sendAll_wire]
    exact Frame.stream.recvN_wire (fun f hf => Frame.fits_of_mem_sendAll hf) rest
  · intro i hi rest
    exact Frame.recv_sendAll fs hi rest
  · intro p hp hne
    exact Frame.recv_cut fs hp hne

/-- A data frame, and its stream cut behind the first byte of the length. -/
theorem frames_survive_stream_cut :
    (∃ len, len.length = 2 ∧ ofBE16 len = 38 ∧
      Frame.send ⟨.tcpData 7 [1], [0]⟩ [] =
        (.ok (), [] ++ (len ++ serialize ⟨.tcpData 7 [1], [0]⟩))) ∧
    let sent := (Frame.sendAll [⟨.tcpData 7 [1], [0]⟩] []).1
    ∃ (k : ℕ) (hk : k < sent.length) (r : List UInt8),
      [0] = Frame.stream.wire (sent.take k) ++ r ∧
      r.length < (Frame.stream.enc sent[k]).length ∧
      Frame.stream.recvN k [0] = .ok (sent.take k, r) ∧
      Frame.recv r = .error .unexpectedEof :=
  ⟨(frames_survive_stream.1 ⟨.tcpData 7 [1], [0]⟩ []).2 (by decide),
    (frames_survive_stream.2 _).2.2 [0] (by decide) (by decide)⟩

end ObfsWs
