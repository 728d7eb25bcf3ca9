import ObfsWs.Lib.Chan
import ObfsWs.Lib.Slice

/-!
# `poll_read`

`ObfsWsPipe::poll_read`, on the parts of the pipe it touches: the handle's leftover `recv_buf`,
the shared `inner_recv` channel and the caller's buffer. Every slice operation of the source is
one that can panic here too, and a panic is `none`; `pollRead_eq` shows there is none and gives
the outcome in closed form, which is all later modules use.

Payload bytes are never looked at, so their type `β` is a parameter. A run over tagged bytes
tells apart two bytes of equal value.

## The order of the cases

The source looks at the leftover first. A leftover that is longer than the caller's buffer fills
it, and the channel is not touched. Otherwise all of it is copied out of `recv_buf` before the
channel is asked, and if the channel has nothing, the call returns `Pending`: what was copied is
in the caller's buffer, which the caller of a `Pending` does not look at, and no longer in
`recv_buf`. This is the case of `readOutcome_vain`, and it is kept as it is.

The last arm of the `match` on `try_recv` is one for an empty and for a closed channel.

## Implementation notes

The caller's buffer is an argument and a result, because its contents matter: a read writes a
prefix of it and leaves the rest. Its length is all that a read is given of it.
-/

namespace ObfsWs

/-- The kinds of `std::io::Error` that the pipe builds. -/
inductive ErrorKind
  | brokenPipe
  deriving DecidableEq

variable {β ω : Type}

/-- What a call of `poll_read` returns and leaves behind. -/
structure ReadResult (β ω : Type) where
  /-- The returned value. -/
  res : Poll (Except ErrorKind ℕ)
  /-- The leftover. -/
  recvBuf : List β
  /-- The channel. -/
  chan : Chan (List β) ω
  /-- The contents of the caller's buffer. -/
  buf : List β

/-- The second half of `poll_read`: one `try_recv`, after `bufPos` bytes of `buf` are filled. -/
def pollReadNext (recvBuf : List β) (innerRecvRx : Chan (List β) ω) (buf : List β)
    (bufPos : ℕ) : Option (ReadResult β ω) :=
  match innerRecvRx.tryRecv with
  -- `_ => return Poll::Pending`: empty and disconnected alike
  | .error _ => some ⟨.pending, recvBuf, innerRecvRx, buf⟩
  | .ok (buf2, innerRecvRx) => do
    let buf2Len := buf2.length
    let bufRemaining ← Slice.sub buf.length bufPos
    if buf2Len > bufRemaining then
      let src ← Slice.range buf2 0 bufRemaining
      let buf ← Slice.copyFrom buf bufPos buf.length src
      let rest ← Slice.range buf2 bufRemaining buf2.length
      some ⟨.ready (.ok (bufPos + bufRemaining)), recvBuf ++ rest, innerRecvRx, buf⟩
    else
      let buf ← Slice.copyFrom buf bufPos (bufPos + buf2Len) buf2
      some ⟨.ready (.ok (bufPos + buf2Len)), recvBuf, innerRecvRx, buf⟩

/-- `ObfsWsPipe::poll_read`. The waker in `_ctx` is not used. -/
def pollRead (recvBuf : List β) (innerRecvRx : Chan (List β) ω) (_ctx : ω) (buf : List β) :
    Option (ReadResult β ω) := do
  let bufLen := buf.length
  let recvBufLen := recvBuf.length
  if recvBufLen > 0 then
    let bufRemaining ← Slice.sub bufLen 0
    if recvBufLen > bufRemaining then
      let src ← Slice.range recvBuf 0 bufLen
      let buf ← Slice.copyFrom buf 0 buf.length src
      let recvBuf ← Slice.range recvBuf bufLen recvBuf.length
      some ⟨.ready (.ok bufLen), recvBuf, innerRecvRx, buf⟩
    else
      let buf ← Slice.copyFrom buf 0 recvBufLen recvBuf
      pollReadNext [] innerRecvRx buf recvBufLen
  else
    pollReadNext recvBuf innerRecvRx buf 0

/-- The outcome of `poll_read` in closed form: the leftover alone when it is longer than the
buffer, else the leftover followed by what fits of the next message, if one is queued. -/
def readOutcome (recvBuf : List β) (innerRecvRx : Chan (List β) ω) (buf : List β) :
    ReadResult β ω :=
  if buf.length < recvBuf.length then
    ⟨.ready (.ok buf.length), recvBuf.drop buf.length, innerRecvRx, recvBuf.take buf.length⟩
  else
    match innerRecvRx.tryRecv with
    | .error _ => ⟨.pending, [], innerRecvRx, recvBuf ++ buf.drop recvBuf.length⟩
    | .ok (msg, innerRecvRx) =>
      let room := buf.length - recvBuf.length
      ⟨.ready (.ok (recvBuf ++ msg.take room).length), msg.drop room, innerRecvRx,
        recvBuf ++ msg.take room ++ buf.drop (recvBuf ++ msg.take room).length⟩

theorem pollReadNext_eq (recvBuf : List β) (ch : Chan (List β) ω) {buf : List β}
    (hfit : recvBuf.length ≤ buf.length) :
    pollReadNext [] ch (recvBuf ++ buf.drop recvBuf.length) recvBuf.length =
      some (readOutcome recvBuf ch buf) := by
  have hlen : (recvBuf ++ buf.drop recvBuf.length).length = buf.length := by
    simp only [List.length_append, List.length_drop]
    omega
  have hshort : ¬ buf.length < recvBuf.length := by omega
  rw [pollReadNext, readOutcome, if_neg hshort]
  cases ch.tryRecv with
  | error e => rfl
  | ok p =>
    obtain ⟨buf2, ch'⟩ := p
    simp only [hlen, Slice.sub_of_le hfit, Option.bind_eq_bind, Option.bind_some]
    by_cases hlong : buf2.length > buf.length - recvBuf.length
    · -- the message does not fit: it is split and the rest becomes the new leftover
      have hsrc : (buf2.take (buf.length - recvBuf.length)).length =
          buf.length - recvBuf.length := by
        rw [List.length_take]; omega
      rw [if_pos hlong, Slice.range_to (Nat.le_of_lt hlong), Option.bind_some,
        Slice.copyFrom_of_le (by rw [hsrc]; omega) (Nat.le_of_eq hlen.symm),
        Slice.range_from (Nat.le_of_lt hlong)]
      simp only [Option.bind_some, List.nil_append, List.length_append, hsrc,
        List.take_left]
      congr 3
      rw [List.drop_eq_nil_of_le (Nat.le_of_eq hlen), List.drop_eq_nil_of_le (by omega)]
    · have htake : buf2.take (buf.length - recvBuf.length) = buf2 :=
        List.take_of_length_le (by omega)
      have hdrop : buf2.drop (buf.length - recvBuf.length) = [] :=
        List.drop_eq_nil_of_le (by omega)
      rw [if_neg hlong, Slice.copyFrom_of_le rfl (by rw [hlen]; omega), htake, hdrop]
      simp only [Option.bind_some, List.length_append, List.take_left]
      congr 3
      rw [List.drop_append, List.drop_eq_nil_of_le (by omega), List.nil_append, List.drop_drop]
      congr 1
      omega

/-- **`poll_read` never panics**, and this is what it does. -/
theorem pollRead_eq (recvBuf : List β) (ch : Chan (List β) ω) (ctx : ω) (buf : List β) :
    pollRead recvBuf ch ctx buf = some (readOutcome recvBuf ch buf) := by
  rw [pollRead]
  by_cases hpos : recvBuf.length > 0
  · simp only [if_pos hpos, Slice.sub_of_le (Nat.zero_le _), Nat.sub_zero, Option.bind_eq_bind,
      Option.bind_some]
    by_cases hlong : recvBuf.length > buf.length
    · have hsrc : (recvBuf.take buf.length).length = buf.length := by
        rw [List.length_take]; omega
      rw [if_pos hlong, Slice.range_to (Nat.le_of_lt hlong), Option.bind_some,
        Slice.copyFrom_of_le (by rw [hsrc]; omega) (Nat.le_refl _),
        Slice.range_from (Nat.le_of_lt hlong), readOutcome, if_pos hlong]
      simp
    · rw [if_neg hlong, Slice.copyFrom_of_le (by omega) (by omega)]
      simpa using pollReadNext_eq recvBuf ch (Nat.le_of_not_lt hlong)
  · obtain rfl : recvBuf = [] := List.eq_nil_of_length_eq_zero (by omega)
    rw [if_neg hpos]
    simpa using pollReadNext_eq [] ch (Nat.zero_le buf.length)

/-! ### What a read delivers

Three cases decide everything: the leftover is longer than the buffer, or it fits and a message
is queued, or it fits and none is. -/

/-- The bytes the caller gets: the first `n` of its buffer after `Ready(Ok(n))`. -/
def ReadResult.bytes (r : ReadResult β ω) : List β :=
  match r.res with
  | .ready (.ok n) => r.buf.take n
  | _ => []

theorem readOutcome_long {recvBuf buf : List β} (ch : Chan (List β) ω)
    (h : buf.length < recvBuf.length) :
    readOutcome recvBuf ch buf =
      ⟨.ready (.ok buf.length), recvBuf.drop buf.length, ch, recvBuf.take buf.length⟩ :=
  if_pos h

theorem readOutcome_vain {recvBuf buf : List β} {ch : Chan (List β) ω}
    (h : recvBuf.length ≤ buf.length) (hq : ch.queue = []) :
    readOutcome recvBuf ch buf =
      ⟨.pending, [], ch, recvBuf ++ buf.drop recvBuf.length⟩ := by
  have he := (Chan.tryRecv_error_iff (c := ch)).mpr ⟨hq, rfl⟩
  rw [readOutcome, if_neg (by omega), he]

/-- The leftover is copied out and cleared, and the caller is told to wait. -/
example : pollRead [3] (.bounded 1 : Chan (List UInt8) Unit) () [0, 0] =
    some ⟨.pending, [], .bounded 1, [3, 0]⟩ := rfl

theorem readOutcome_next {recvBuf buf msg : List β} {ch ch' : Chan (List β) ω}
    (h : recvBuf.length ≤ buf.length) (hr : ch.tryRecv = .ok (msg, ch')) :
    readOutcome recvBuf ch buf =
      ⟨.ready (.ok (recvBuf ++ msg.take (buf.length - recvBuf.length)).length),
        msg.drop (buf.length - recvBuf.length), ch',
        recvBuf ++ msg.take (buf.length - recvBuf.length) ++
          buf.drop (recvBuf ++ msg.take (buf.length - recvBuf.length)).length⟩ := by
  rw [readOutcome, if_neg (by omega), hr]

theorem bytes_long {recvBuf buf : List β} (ch : Chan (List β) ω)
    (h : buf.length < recvBuf.length) :
    (readOutcome recvBuf ch buf).bytes = recvBuf.take buf.length := by
  rw [readOutcome_long ch h]
  simp [ReadResult.bytes, List.take_take]

theorem bytes_vain {recvBuf buf : List β} {ch : Chan (List β) ω}
    (h : recvBuf.length ≤ buf.length) (hq : ch.queue = []) :
    (readOutcome recvBuf ch buf).bytes = [] := by
  rw [readOutcome_vain h hq, ReadResult.bytes]

theorem bytes_next {recvBuf buf msg : List β} {ch ch' : Chan (List β) ω}
    (h : recvBuf.length ≤ buf.length) (hr : ch.tryRecv = .ok (msg, ch')) :
    (readOutcome recvBuf ch buf).bytes =
      recvBuf ++ msg.take (buf.length - recvBuf.length) := by
  rw [readOutcome_next h hr]
  simp only [ReadResult.bytes, List.take_left]

/-- A read takes nothing from the channel but its oldest message. -/
theorem readOutcome_chan (recvBuf : List β) (ch : Chan (List β) ω) (buf : List β) :
    (readOutcome recvBuf ch buf).chan.closed = ch.closed ∧
      (readOutcome recvBuf ch buf).chan.listeners = ch.listeners ∧
      (readOutcome recvBuf ch buf).chan.cap = ch.cap ∧
      (readOutcome recvBuf ch buf).chan.queue <:+ ch.queue := by
  by_cases h : buf.length < recvBuf.length
  · rw [readOutcome_long ch h]
    exact ⟨rfl, rfl, rfl, List.suffix_rfl⟩
  · cases hr : ch.tryRecv with
    | error e =>
      rw [readOutcome_vain (Nat.le_of_not_lt h) (Chan.tryRecv_error_iff.mp hr).1]
      exact ⟨rfl, rfl, rfl, List.suffix_rfl⟩
    | ok p =>
      obtain ⟨hq, hc, hl, hcap⟩ := Chan.tryRecv_ok hr
      rw [readOutcome_next (Nat.le_of_not_lt h) hr]
      exact ⟨hc, hl, hcap, hq ▸ List.suffix_cons _ _⟩

/-- **Nothing is lost or reordered** by a read that returns, and by one that had nothing in the
leftover to lose. -/
theorem readOutcome_conserves {recvBuf buf : List β} {ch : Chan (List β) ω}
    (h : recvBuf.length ≤ buf.length → recvBuf = [] ∨ ch.queue ≠ []) :
    (readOutcome recvBuf ch buf).bytes ++ (readOutcome recvBuf ch buf).recvBuf ++
        (readOutcome recvBuf ch buf).chan.queue.flatten = recvBuf ++ ch.queue.flatten := by
  by_cases hlong : buf.length < recvBuf.length
  · rw [bytes_long ch hlong, readOutcome_long ch hlong, List.take_append_drop]
  · have hfit := Nat.le_of_not_lt hlong
    cases hr : ch.tryRecv with
    | error e =>
      have hq := (Chan.tryRecv_error_iff.mp hr).1
      rw [bytes_vain hfit hq, readOutcome_vain hfit hq]
      obtain rfl | hne := h hfit
      · rfl
      · exact absurd hq hne
    | ok p =>
      obtain ⟨msg, ch'⟩ := p
      rw [bytes_next hfit hr, readOutcome_next hfit hr, (Chan.tryRecv_ok hr).1, List.flatten_cons,
        List.append_assoc recvBuf, List.take_append_drop, List.append_assoc]

end ObfsWs
