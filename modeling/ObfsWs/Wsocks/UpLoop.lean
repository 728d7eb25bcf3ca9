import ObfsWs.Wsocks.Forward

/-!
# `up_fut` at the end of the file

`up_fut` alone: the local TCP connection delivers some bytes and then the end of the file, there
is no deadline, and the mux stream takes every frame. A read at the end of the file returns zero
bytes, which `up_fut` treats as it treats any other number.

## Main definitions

* `upLoop` — the iterations of `up_fut`
* `StopsAtEof` — it returns, having sent what there was to read

## Main results

* `UpRun.turn_steps` — an iteration is three steps of the loop
* `not_stopsAtEof` — it never does, and goes on sending empty frames

## Why this is a file of its own

The relay is not affected by it in any of its statements: an empty read makes a frame with an
empty payload, which is received and writes nothing. What goes wrong is that the loop never ends,
so the connection is never given up by this side, and frames with nothing in them go over the
stream as fast as it takes them. The commented-out code in the source, a copy of the two
directions, would have stopped there.

The chunks that a read returns are chosen by a function of the turn, cut to the size of the buffer
and to what is there. A read before the end of the file that asks for at least one byte gets at
least one.
-/

namespace ObfsWs

/-- What `conn.read` returns: at least one byte while there is one, at most what the buffer
holds, and nothing at the end of the file. -/
def readChunk (size : ℕ) (conn : List UInt8) : Chunk :=
  ⟨conn.take (min (size + 1) upBufLen), by rw [List.length_take]; omega⟩

/-- `up_fut` between two iterations. -/
structure UpRun where
  /-- It goes on, or has returned. -/
  next : ForwardLoop.Next
  /-- The bytes not yet read. -/
  conn : List UInt8
  /-- The frames sent. -/
  sent : List Frame

/-- One iteration. -/
def UpRun.turn (r : UpRun) (size : ℕ) (paddingLen : PaddingLen) : UpRun :=
  match r.next with
  | .error _ => r
  | .ok fw =>
    let chunk := readChunk size r.conn
    let conn := r.conn.drop chunk.val.length
    match fw.upRead chunk paddingLen with
    | (.ok fw, _) =>
      ⟨.ok { fw with up := .check }, conn, r.sent ++ [upFrame fw.offerId chunk paddingLen]⟩
    | (.error exit, _) => ⟨.error exit, conn, r.sent⟩

/-- An iteration is three steps of the loop. -/
theorem UpRun.turn_steps (offerId : BitVec 128) (down : DownFut) (broken : Bool)
    (input : List UInt8) (chunk : Chunk) (paddingLen : PaddingLen) :
    let fw (up : UpFut) : ForwardLoop := ⟨offerId, false, up, down⟩
    let f := upFrame offerId chunk paddingLen
    (fw .check).step broken input (.upCheck false) = some (.ok (fw .read), ⟨input, [], .tau⟩) ∧
    (fw .read).step broken input (.read (.ok chunk) paddingLen) =
      some (.ok (fw (.send (Frame.stream.enc f))), ⟨input, [], .read chunk f⟩) ∧
    (fw (.send (Frame.stream.enc f))).step broken input (.send (Frame.stream.enc f).length) =
      some (.ok (fw .check), ⟨input, Frame.stream.enc f, .tau⟩) := by
  refine ⟨rfl, ?_, ?_⟩
  · simp only [ForwardLoop.step, ForwardLoop.upRead_eq]
  · simp only [ForwardLoop.step, writeAll, List.drop_length, List.take_length]

/-- The first `n` iterations; `sizes` and `paddingLens` are what the environment chooses. -/
def upLoop (offerId : BitVec 128) (conn : List UInt8) (sizes : ℕ → ℕ)
    (paddingLens : ℕ → PaddingLen) : ℕ → UpRun
  | 0 => ⟨.ok (.start offerId false), conn, []⟩
  | n + 1 => (upLoop offerId conn sizes paddingLens n).turn (sizes n) (paddingLens n)

section

variable (offerId : BitVec 128) (conn : List UInt8) (sizes : ℕ → ℕ) (paddingLens : ℕ → PaddingLen)

/-- What an iteration does: one more frame, whatever was read. -/
theorem UpRun.turn_of_start {r : UpRun} (h : r.next = .ok (.start offerId false)) (size : ℕ)
    (paddingLen : PaddingLen) :
    r.turn size paddingLen = ⟨.ok (.start offerId false),
      r.conn.drop (readChunk size r.conn).val.length,
      r.sent ++ [upFrame offerId (readChunk size r.conn) paddingLen]⟩ := by
  rw [turn, h]
  simp only [ForwardLoop.upRead_eq]
  rfl

/-- It never returns. -/
theorem upLoop_next (n : ℕ) :
    (upLoop offerId conn sizes paddingLens n).next = .ok (.start offerId false) := by
  induction n with
  | zero => rfl
  | succ n ih => rw [upLoop, UpRun.turn_of_start offerId ih]

theorem upLoop_sent_succ (n : ℕ) :
    (upLoop offerId conn sizes paddingLens (n + 1)).sent =
      (upLoop offerId conn sizes paddingLens n).sent ++
        [upFrame offerId (readChunk (sizes n) (upLoop offerId conn sizes paddingLens n).conn)
          (paddingLens n)] := by
  rw [upLoop, UpRun.turn_of_start offerId (upLoop_next offerId conn sizes paddingLens n)]

/-- Every iteration reads while there is something to read. -/
theorem length_upLoop_conn (n : ℕ) :
    (upLoop offerId conn sizes paddingLens n).conn.length ≤ conn.length - n := by
  induction n with
  | zero => exact le_rfl
  | succ n ih =>
    rw [upLoop, UpRun.turn_of_start offerId (upLoop_next offerId conn sizes paddingLens n)]
    have hpos : 0 < min (sizes n + 1) upBufLen := by
      rw [upBufLen]
      omega
    simp only [List.length_drop, readChunk, List.length_take]
    omega

/-- At the end of the file an iteration sends a frame with an empty payload. -/
theorem upLoop_sent_eof {n : ℕ} (hn : conn.length ≤ n) :
    (upLoop offerId conn sizes paddingLens (n + 1)).sent =
      (upLoop offerId conn sizes paddingLens n).sent ++
        [.fromProtocol (.tcpData offerId []) (paddingLens n)] := by
  have hnil : (upLoop offerId conn sizes paddingLens n).conn = [] := by
    have hlen := length_upLoop_conn offerId conn sizes paddingLens n
    exact List.eq_nil_of_length_eq_zero (by omega)
  rw [upLoop_sent_succ, hnil]
  simp only [upFrame, readChunk, List.take_nil]

/-- Forwarding stops at the end of the file: after some iterations `up_fut` has returned, and has
sent what there was to read, in frames none of which is empty. -/
def StopsAtEof : Prop :=
  ∃ n exit, (upLoop offerId conn sizes paddingLens n).next = .error exit ∧
    (upLoop offerId conn sizes paddingLens n).sent.flatMap Frame.payload = conn ∧
    ∀ f ∈ (upLoop offerId conn sizes paddingLens n).sent, f.payload ≠ []

/-- **Forwarding never stops at the end of the file.** Whatever there was to read, `up_fut` does
not return, and from then on every iteration sends one more frame without payload. -/
theorem not_stopsAtEof :
    ¬ StopsAtEof offerId conn sizes paddingLens ∧
      ∀ n, conn.length ≤ n →
        (upLoop offerId conn sizes paddingLens (n + 1)).sent =
          (upLoop offerId conn sizes paddingLens n).sent ++
            [.fromProtocol (.tcpData offerId []) (paddingLens n)] := by
  refine ⟨?_, fun n hn => upLoop_sent_eof offerId conn sizes paddingLens hn⟩
  rintro ⟨n, exit, hexit, -⟩
  rw [upLoop_next] at hexit
  cases hexit

end

/-- One byte and the end of the file. -/
theorem stopsAtEof_fails :
    ¬ StopsAtEof 7 [1] (fun _ => 0) (fun _ => ⟨1, by decide⟩) := by
  rintro ⟨n, exit, hexit, -⟩
  rw [upLoop_next] at hexit
  cases hexit

/-- The same with padding of one byte; the fourth iteration. -/
theorem not_stopsAtEof_one :
    (upLoop 7 [1] (fun _ => 0) (fun _ => ⟨1, by decide⟩) 4).sent =
      (upLoop 7 [1] (fun _ => 0) (fun _ => ⟨1, by decide⟩) 3).sent ++
        [.fromProtocol (.tcpData 7 []) 1] :=
  (not_stopsAtEof 7 [1] (fun _ => 0) (fun _ => ⟨1, by decide⟩)).2 3 (by decide)

end ObfsWs
