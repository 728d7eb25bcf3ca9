import ObfsWs.Lib.Link
import ObfsWs.Wsocks.Reply

/-!
# `tcp_forward_loop`

The two futures of `tcp_forward_loop`, each with its own program counter: `up_fut` reads from the
TCP connection and sends data frames, `down_fut` receives frames and writes their payload to the
TCP connection. They are raced, so the loop ends when one of them does.

A step stands for what happens between two points at which a future can be left pending. A write
may take any number of bytes at a time.

## Granularity

A future gives way in an await only. Between two awaits it does what it does without anybody
looking, so that is one step: the read of a chunk, the building of a frame and the beginning of
its sending go together, as do the receipt of a frame and the comparison of its id. `write_all`
gives way after any number of bytes, and is a step for each piece.

A check of the deadline is a step of its own, because other tasks look at the same channel.
Whether it finds the value is an argument of the step, and is decided by whoever owns the channel
(`Deadline` does); a loop without a deadline does not have the step.

## What is observed

`Obs` says what a step did that others can see: a frame that was built or received, bytes that
were read from the TCP connection or written to it, an answer to the application. The state has
none of it. Which bytes are still to be written is state, and is what `Books` accounts for.

## Main definitions

* `Exit` — how a task ends
* `ForwardLoop`, `ForwardLoop.step` — the two futures
* `Books` — what a step of a task does to the bytes and frames it deals with

## Main results

* `fits_upFrame` — a data frame of one read always fits
* `ForwardLoop.rule_of_step` — what a step can be
* `ForwardLoop.Rule.books` — a loop passes on what it reads and receives

## What is assumed

The TCP connection delivers any chunks of at most 60000 bytes, the empty one included, and fails
at any moment; it takes any number of the bytes written to it. The id of a connection and the
lengths of paddings are any values. `race` drops the other future when one of the two has
returned.
-/

namespace ObfsWs

/-! ### How tasks end

The texts are those of the source. `unexpected` marks the ends that are the fault of the peer: a
frame that cannot be decoded, a frame that should not come, an id that is another connection's. -/

/-- The `Err` of a task. -/
inductive TaskError
  /-- The mux stream failed. -/
  | stream
  /-- The TCP connection failed. -/
  | socket
  | send (e : SendError)
  | recv (e : RecvError)
  | deadline
  /-- `anyhow::bail!`. -/
  | bail (text : String)
  deriving DecidableEq

/-- Why a task panics. -/
inductive TaskPanic
  /-- `unwrap` of an `Err`. -/
  | unwrap (e : TaskError)
  /-- `assert_eq!(id, offer_id)`. -/
  | assertId
  /-- `todo!()` for a frame that is not `TcpData`. -/
  | todoFrame
  /-- `todo!()` for an offer that is an error. -/
  | todoOffer
  deriving DecidableEq

/-- How a task ends. -/
inductive Exit
  | ok
  | err (e : TaskError)
  | panic (p : TaskPanic)
  deriving DecidableEq

/-- The task was sent what it did not expect. -/
def TaskError.unexpected : TaskError → Bool
  | .recv (.decode _) => true
  | .bail _ => true
  | _ => false

/-- The task was sent what it did not expect. -/
def TaskPanic.unexpected : TaskPanic → Bool
  | .unwrap e => e.unexpected
  | .assertId => true
  | .todoFrame => true
  | .todoOffer => false

/-- The task was sent what it did not expect: bytes that do not decode, a frame of the wrong kind
or one with the wrong id. -/
def Exit.unexpected : Exit → Bool
  | .ok => false
  | .err e => e.unexpected
  | .panic p => p.unexpected

/-- What is observed of a step of a task. -/
inductive Obs
  | tau
  /-- A frame was built to be sent. -/
  | built (f : Frame)
  /-- A frame was built of what was read from the TCP connection. -/
  | read (chunk : List UInt8) (f : Frame)
  /-- Such a frame was rejected by `Frame::send`. -/
  | rejected (chunk : List UInt8)
  /-- A frame was received. -/
  | recvd (f : Frame)
  /-- Bytes were written to the TCP connection. -/
  | wrote (bs : List UInt8)
  /-- The application was told this, or could not be told. -/
  | told (reply : Reply) (ok : Bool)

/-- The frames built in a step. -/
def Obs.framesBuilt : Obs → List Frame
  | .built f => [f]
  | .read _ f => [f]
  | _ => []

/-- The frames received. -/
def Obs.framesRecvd : Obs → List Frame
  | .recvd f => [f]
  | _ => []

/-- The bytes read from the TCP connection. -/
def Obs.bytesRead : Obs → List UInt8
  | .read chunk _ => chunk
  | .rejected chunk => chunk
  | _ => []

/-- The bytes written to the TCP connection. -/
def Obs.bytesWritten : Obs → List UInt8
  | .wrote bs => bs
  | _ => []

/-- What the application was told, and whether that succeeded. -/
def Obs.replies : Obs → List (Reply × Bool)
  | .told reply ok => [(reply, ok)]
  | _ => []

/-! ### The futures

Each future has its own program counter, and they share the ends of the two connections. A step
belongs to one of them. When it ends its future it ends the loop, because the race drops the
other. -/

/-- Where `up_fut` stands. -/
inductive UpFut
  /-- Before the check of the deadline. -/
  | check
  /-- In `conn.read`. -/
  | read
  /-- In `frame.send`, these bytes being still to be written. -/
  | send (rest : List UInt8)

/-- Where `down_fut` stands. -/
inductive DownFut
  /-- Before the check of the deadline. -/
  | check
  /-- In `Frame::recv`. -/
  | recv
  /-- In `conn.write_all`, these bytes being still to be written. -/
  | write (rest : List UInt8)

/-- `tcp_forward_loop`. -/
structure ForwardLoop where
  /-- `offer_id`. -/
  offerId : BitVec 128
  /-- `deadline_rx` is `Some`. -/
  hasDeadline : Bool
  /-- `up_fut`. -/
  up : UpFut
  /-- `down_fut`. -/
  down : DownFut

/-- The size of the buffer of `up_fut`. -/
def upBufLen : ℕ := 60000

/-- What one `conn.read` can return. -/
abbrev Chunk := {bs : List UInt8 // bs.length ≤ upBufLen}

/-- A length of padding, `fastrand::usize(1..=128)`. -/
abbrev PaddingLen := {n : ℕ // 1 ≤ n ∧ n ≤ 128}

/-- The choices the environment makes. -/
inductive ForwardAct
  /-- `up_fut` checks the deadline and finds it reached or not. -/
  | upCheck (reached : Bool)
  /-- `conn.read` returns; `paddingLen` is drawn. -/
  | read (r : Except Unit Chunk) (paddingLen : PaddingLen)
  /-- The stream takes `n` bytes. -/
  | send (n : ℕ)
  | sendFail
  | downCheck (reached : Bool)
  /-- `Frame::recv` returns. -/
  | recv
  | recvFail
  /-- The TCP connection takes `n` bytes. -/
  | write (n : ℕ)
  | writeFail

/-- The frame that `up_fut` builds of what it read. -/
def upFrame (offerId : BitVec 128) (chunk : Chunk) (paddingLen : PaddingLen) : Frame :=
  .fromProtocol (.tcpData offerId chunk) paddingLen

/-- What `write_all` still has to write after `n` more bytes; it returns when nothing is left. -/
def writeAll {σ : Type} (again : List UInt8 → σ) (done : σ) (rest : List UInt8) (n : ℕ) : σ :=
  match rest.drop n with
  | [] => done
  | rest => again rest

namespace ForwardLoop

/-- The loop as it is started. -/
def start (offerId : BitVec 128) (hasDeadline : Bool) : ForwardLoop :=
  ⟨offerId, hasDeadline, .check, .check⟩

/-- Returned by one of the futures, or the loop goes on. -/
abbrev Next := Except Exit ForwardLoop

/-- `up_fut` after `conn.read`. -/
def upRead (fw : ForwardLoop) (chunk : Chunk) (paddingLen : PaddingLen) : Next × Obs :=
  let frame := upFrame fw.offerId chunk paddingLen
  match frame.message with
  | .ok msg => (.ok { fw with up := .send msg }, .read chunk frame)
  | .error e => (.error (.err (.send e)), .rejected chunk)

/-- `down_fut` after `Frame::recv`. -/
def downRecv (fw : ForwardLoop) (frame : Frame) : Next :=
  match frame.protocol with
  | .tcpData id payload =>
    if id = fw.offerId then .ok { fw with down := .write payload }
    else .error (.panic .assertId)
  | _ => .error (.panic .todoFrame)

/-- One step, with `input` under way on the mux stream. -/
def step (fw : ForwardLoop) (broken : Bool) (input : List UInt8) :
    ForwardAct → Option (Next × Effect Obs)
  | .upCheck reached =>
    match fw.up, reached, fw.hasDeadline with
    | .check, true, true => some (.error (.err .deadline), ⟨input, [], .tau⟩)
    | .check, false, _ => some (.ok { fw with up := .read }, ⟨input, [], .tau⟩)
    | _, _, _ => none
  | .read r paddingLen =>
    match fw.up, r with
    | .read, .ok chunk =>
      let r := fw.upRead chunk paddingLen
      some (r.1, ⟨input, [], r.2⟩)
    | .read, .error () => some (.error (.err .socket), ⟨input, [], .tau⟩)
    | _, _ => none
  | .send n =>
    match fw.up with
    | .send rest =>
      some (.ok { fw with up := writeAll .send .check rest n }, ⟨input, rest.take n, .tau⟩)
    | _ => none
  | .sendFail =>
    match fw.up, broken with
    | .send _, true => some (.error (.err .stream), ⟨input, [], .tau⟩)
    | _, _ => none
  | .downCheck reached =>
    match fw.down, reached, fw.hasDeadline with
    | .check, true, true => some (.error (.err .deadline), ⟨input, [], .tau⟩)
    | .check, false, _ => some (.ok { fw with down := .recv }, ⟨input, [], .tau⟩)
    | _, _, _ => none
  | .recv =>
    match fw.down with
    | .recv =>
      match Frame.recv input with
      | .ok (frame, input) => some (fw.downRecv frame, ⟨input, [], .recvd frame⟩)
      -- it waits for more bytes, which do not come when the stream is broken
      | .error .unexpectedEof =>
        if broken then some (.error (.err (.recv .unexpectedEof)), ⟨input, [], .tau⟩) else none
      | .error e => some (.error (.err (.recv e)), ⟨input, [], .tau⟩)
    | _ => none
  | .recvFail =>
    match fw.down, broken with
    | .recv, true => some (.error (.err .stream), ⟨input, [], .tau⟩)
    | _, _ => none
  | .write n =>
    match fw.down with
    | .write rest =>
      some (.ok { fw with down := writeAll .write .check rest n },
        ⟨input, [], .wrote (rest.take n)⟩)
    | _ => none
  | .writeFail =>
    match fw.down with
    | .write _ => some (.error (.err .socket), ⟨input, [], .tau⟩)
    | _ => none

/-- What `up_fut` still has to put on the stream. -/
def pending (fw : ForwardLoop) : List UInt8 :=
  match fw.up with
  | .send rest => rest
  | _ => []

/-- What `down_fut` still has to write to the TCP connection. -/
def toWrite (fw : ForwardLoop) : List UInt8 :=
  match fw.down with
  | .write rest => rest
  | _ => []

end ForwardLoop

/-! ### Data frames fit -/

/-- **A data frame of one read always fits**: 60000 bytes, the header and the longest padding are
60164 bytes. -/
theorem fits_upFrame (offerId : BitVec 128) (chunk : Chunk) (paddingLen : PaddingLen) :
    (upFrame offerId chunk paddingLen).fits = true := by
  have hchunk : chunk.val.length ≤ 60000 := chunk.property
  have hpad : paddingLen.val ≤ 128 := paddingLen.property.2
  rw [Frame.fits_iff, upFrame, Frame.fromProtocol, length_serialize_tcpData,
    List.length_replicate]
  omega

theorem ForwardLoop.upRead_eq (fw : ForwardLoop) (chunk : Chunk) (paddingLen : PaddingLen) :
    fw.upRead chunk paddingLen =
      (.ok { fw with up := .send (Frame.stream.enc (upFrame fw.offerId chunk paddingLen)) },
        .read chunk (upFrame fw.offerId chunk paddingLen)) := by
  have hmsg := Frame.message_of_fits (fits_upFrame fw.offerId chunk paddingLen)
  rw [upRead]
  simp only [hmsg]
  rfl

/-! ### What a step can be

As for the pipe, the rules are the step function read by outcome. A write of any length is treated
once, by `writeAll_induct`: what holds while `write_all` goes on, and when it is done, holds after
whatever part of it. -/

/-- What holds wherever `write_all` goes on, and holds after it, holds after a part of it. -/
theorem writeAll_induct {σ : Type} {P : σ → Prop} (again : List UInt8 → σ) (done : σ)
    (rest : List UInt8) (n : ℕ) (hagain : ∀ left, P (again left)) (hdone : P done) :
    P (writeAll again done rest n) := by
  rw [writeAll]
  rcases rest.drop n with _ | ⟨b, bs⟩
  · exact hdone
  · exact hagain _

/-- `write_all` writes what it still has to write, in order. -/
theorem take_writeAll {σ : Type} {again : List UInt8 → σ} {done : σ} {f : σ → List UInt8}
    (hagain : ∀ rest, f (again rest) = rest) (hdone : f done = []) (rest : List UInt8) (n : ℕ) :
    rest = rest.take n ++ f (writeAll again done rest n) := by
  have hf : f (writeAll again done rest n) = rest.drop n := by
    rw [writeAll]
    rcases rest.drop n with _ | ⟨b, bs⟩
    · exact hdone
    · exact hagain _
  rw [hf, List.take_append_drop]

namespace ForwardLoop

/-- The frame carries data of the connection `id`. -/
def IsData (id : BitVec 128) (f : Frame) : Prop := ∃ payload, f.protocol = .tcpData id payload

/-- What a step can be. -/
inductive Rule (fw : ForwardLoop) (broken : Bool) (input : List UInt8) :
    Next → Effect Obs → Prop
  | tau {fw' : ForwardLoop} : fw'.offerId = fw.offerId → fw'.pending = fw.pending →
      fw'.toWrite = fw.toWrite → Rule fw broken input (.ok fw') ⟨input, [], .tau⟩
  | read {fw' : ForwardLoop} {chunk : List UInt8} {f : Frame} :
      f.protocol = .tcpData fw.offerId chunk → f.fits = true → fw'.offerId = fw.offerId →
      fw.pending = [] → fw'.pending = Frame.stream.enc f → fw'.toWrite = fw.toWrite →
      Rule fw broken input (.ok fw') ⟨input, [], .read chunk f⟩
  | send {fw' : ForwardLoop} {bs : List UInt8} : fw'.offerId = fw.offerId →
      fw.pending = bs ++ fw'.pending → fw'.toWrite = fw.toWrite →
      Rule fw broken input (.ok fw') ⟨input, bs, .tau⟩
  | recv {fw' : ForwardLoop} {payload rest : List UInt8} {f : Frame} :
      Frame.recv input = .ok (f, rest) → f.protocol = .tcpData fw.offerId payload →
      fw'.offerId = fw.offerId → fw'.pending = fw.pending → fw.toWrite = [] →
      fw'.toWrite = payload → Rule fw broken input (.ok fw') ⟨rest, [], .recvd f⟩
  | write {fw' : ForwardLoop} {bs : List UInt8} : fw'.offerId = fw.offerId →
      fw'.pending = fw.pending → fw.toWrite = bs ++ fw'.toWrite →
      Rule fw broken input (.ok fw') ⟨input, [], .wrote bs⟩
  /-- Reading, writing or the deadline ends the loop. -/
  | fail {e : TaskError} :
      (e.unexpected = true → ∃ de, Frame.recv input = .error (.decode de)) →
      Rule fw broken input (.error (.err e)) ⟨input, [], .tau⟩
  /-- A frame that is not expected ends it. -/
  | reject {p : TaskPanic} {f : Frame} {rest : List UInt8} :
      Frame.recv input = .ok (f, rest) → ¬ IsData fw.offerId f →
      Rule fw broken input (.error (.panic p)) ⟨rest, [], .recvd f⟩

variable {fw : ForwardLoop} {broken : Bool} {input : List UInt8} {next : Next} {e : Effect Obs}

/-- `down_fut` after a frame. -/
theorem rule_downRecv {f : Frame} {rest : List UInt8} (hdown : fw.down = .recv)
    (hrecv : Frame.recv input = .ok (f, rest)) :
    Rule fw broken input (fw.downRecv f) ⟨rest, [], .recvd f⟩ := by
  have hto : fw.toWrite = [] := by rw [toWrite, hdown]
  rw [downRecv]
  rcases hf : f.protocol with ⟨dst, port⟩ | o | ⟨id, payload⟩
  · refine .reject hrecv ?_
    rintro ⟨payload, h⟩
    rw [hf] at h
    cases h
  · refine .reject hrecv ?_
    rintro ⟨payload, h⟩
    rw [hf] at h
    cases h
  · by_cases hid : id = fw.offerId
    · subst hid
      simp only
      exact .recv hrecv hf rfl rfl hto rfl
    · simp only [if_neg hid]
      refine .reject hrecv ?_
      rintro ⟨payload', h⟩
      rw [hf] at h
      exact hid (Protocol.tcpData.inj h).1

theorem rule_of_step {a : ForwardAct} (h : fw.step broken input a = some (next, e)) :
    Rule fw broken input next e := by
  obtain ⟨offerId, hasDeadline, up, down⟩ := fw
  cases a with
  | upCheck reached =>
    simp only [step] at h
    split at h
    · obtain ⟨rfl, rfl⟩ := Machine.next_inj h
      exact .fail fun he => by cases he
    · obtain ⟨rfl, rfl⟩ := Machine.next_inj h
      exact .tau rfl rfl rfl
    · cases h
  | read r paddingLen =>
    simp only [step] at h
    split at h
    · rename_i chunk
      rw [upRead_eq] at h
      obtain ⟨rfl, rfl⟩ := Machine.next_inj h
      exact .read rfl (fits_upFrame offerId chunk paddingLen) rfl rfl rfl rfl
    · obtain ⟨rfl, rfl⟩ := Machine.next_inj h
      exact .fail fun he => by cases he
    · cases h
  | send n =>
    simp only [step] at h
    split at h
    · rename_i rest
      obtain ⟨rfl, rfl⟩ := Machine.next_inj h
      exact .send rfl (take_writeAll (f := fun u => pending ⟨offerId, hasDeadline, u, down⟩)
        (fun _ => rfl) rfl rest n) rfl
    · cases h
  | sendFail =>
    simp only [step] at h
    split at h
    · obtain ⟨rfl, rfl⟩ := Machine.next_inj h
      exact .fail fun he => by cases he
    · cases h
  | downCheck reached =>
    simp only [step] at h
    split at h
    · obtain ⟨rfl, rfl⟩ := Machine.next_inj h
      exact .fail fun he => by cases he
    · obtain ⟨rfl, rfl⟩ := Machine.next_inj h
      exact .tau rfl rfl rfl
    · cases h
  | recv =>
    simp only [step] at h
    split at h
    · split at h
      · rename_i frame rest hrecv
        obtain ⟨rfl, rfl⟩ := Machine.next_inj h
        exact rule_downRecv rfl hrecv
      · split at h
        · obtain ⟨rfl, rfl⟩ := Machine.next_inj h
          exact .fail fun he => by cases he
        · cases h
      · rename_i re _ hrecv
        obtain ⟨rfl, rfl⟩ := Machine.next_inj h
        refine .fail fun hunexp => ?_
        rcases re with _ | de
        · cases hunexp
        · exact ⟨de, hrecv⟩
    · cases h
  | recvFail =>
    simp only [step] at h
    split at h
    · obtain ⟨rfl, rfl⟩ := Machine.next_inj h
      exact .fail fun he => by cases he
    · cases h
  | write n =>
    simp only [step] at h
    split at h
    · rename_i rest
      obtain ⟨rfl, rfl⟩ := Machine.next_inj h
      exact .write rfl rfl (take_writeAll (f := fun d => toWrite ⟨offerId, hasDeadline, up, d⟩)
        (fun _ => rfl) rfl rest n)
    · cases h
  | writeFail =>
    simp only [step] at h
    split at h
    · obtain ⟨rfl, rfl⟩ := Machine.next_inj h
      exact .fail fun he => by cases he
    · cases h

end ForwardLoop

/-! ### The books

Whatever a task does, it writes the frames it built and reads whole frames, and it passes on the
payload of the frames it received. -/

/-- What a step of a task does to its books: to the bytes it still has to put on the stream and
those it still has to write to the TCP connection. -/
structure Books (input pending toWrite : List UInt8) (e : Effect Obs)
    (pending' toWrite' : List UInt8) (done' : Bool) : Prop where
  ok : ∀ f ∈ e.obs.framesBuilt, f.fits = true
  writes : done' = false →
    pending ++ Frame.stream.wire e.obs.framesBuilt = e.output ++ pending'
  stops : done' = true → e.output = [] ∧ e.obs.framesBuilt = [] ∧ e.obs.bytesWritten = []
  reads : (e.input = input ∧ e.obs.framesRecvd = []) ∨
    ∃ f, Frame.recv input = .ok (f, e.input) ∧ e.obs.framesRecvd = [f]
  bytesRead : e.obs.bytesRead = e.obs.framesBuilt.flatMap Frame.payload
  bytesWritten : done' = false →
    toWrite ++ e.obs.framesRecvd.flatMap Frame.payload = e.obs.bytesWritten ++ toWrite'
  accepted : ∀ chunk, e.obs ≠ .rejected chunk

namespace Books

variable {input pending toWrite pending' toWrite' rest bs : List UInt8} {f : Frame}

/-- A step that is not observed. -/
theorem tau (hw : pending = bs ++ pending') (hto : toWrite = toWrite') :
    Books input pending toWrite ⟨input, bs, .tau⟩ pending' toWrite' false where
  ok _ hf := absurd hf List.not_mem_nil
  writes _ := by rw [hw]; exact List.append_nil _
  stops h := by cases h
  reads := .inl ⟨rfl, rfl⟩
  bytesRead := rfl
  bytesWritten _ := by rw [hto]; exact List.append_nil _
  accepted _ := by simp

/-- Telling the application has nothing to do with the stream. -/
theorem answered {reply : Reply} {success done' : Bool}
    (h : done' = false → pending = pending' ∧ toWrite = toWrite') :
    Books input pending toWrite ⟨input, [], .told reply success⟩ pending' toWrite' done' where
  ok _ hf := absurd hf List.not_mem_nil
  writes hd := by rw [(h hd).1]; exact List.append_nil _
  stops _ := ⟨rfl, rfl, rfl⟩
  reads := .inl ⟨rfl, rfl⟩
  bytesRead := rfl
  bytesWritten hd := by rw [(h hd).2]; exact List.append_nil _
  accepted _ := by simp

/-- A frame that is not read from the TCP connection is built. -/
theorem built (hfits : f.fits = true) (hpay : f.payload = []) :
    Books input [] toWrite ⟨input, [], .built f⟩ (Frame.stream.enc f) toWrite false where
  ok g hg := by rw [List.mem_singleton.mp hg, hfits]
  writes _ := List.append_nil _
  stops h := by cases h
  reads := .inl ⟨rfl, rfl⟩
  bytesRead := by
    show [] = f.payload ++ []
    rw [hpay, List.append_nil]
  bytesWritten _ := List.append_nil _
  accepted _ := by simp

/-- A frame is built of what was read. -/
theorem read {chunk : List UInt8} (hfits : f.fits = true) (hpay : f.payload = chunk) :
    Books input [] toWrite ⟨input, [], .read chunk f⟩ (Frame.stream.enc f) toWrite false where
  ok g hg := by rw [List.mem_singleton.mp hg, hfits]
  writes _ := List.append_nil _
  stops h := by cases h
  reads := .inl ⟨rfl, rfl⟩
  bytesRead := by
    show chunk = f.payload ++ []
    rw [hpay, List.append_nil]
  bytesWritten _ := List.append_nil _
  accepted _ := by simp

/-- Bytes are written. -/
theorem wrote (hto : toWrite = bs ++ toWrite') :
    Books input pending toWrite ⟨input, [], .wrote bs⟩ pending toWrite' false where
  ok _ hf := absurd hf List.not_mem_nil
  writes _ := List.append_nil _
  stops h := by cases h
  reads := .inl ⟨rfl, rfl⟩
  bytesRead := rfl
  bytesWritten _ := by rw [hto]; exact List.append_nil _
  accepted _ := by simp

/-- A frame is received; the payload is what is to be written next. -/
theorem recvd (hrecv : Frame.recv input = .ok (f, rest)) :
    Books input pending [] ⟨rest, [], .recvd f⟩ pending f.payload false where
  ok _ hg := absurd hg List.not_mem_nil
  writes _ := List.append_nil _
  stops h := by cases h
  reads := .inr ⟨f, hrecv, rfl⟩
  bytesRead := rfl
  bytesWritten _ := List.append_nil _
  accepted _ := by simp

/-- The task stops without having received anything. -/
theorem stop : Books input pending toWrite ⟨input, [], .tau⟩ pending' toWrite' true where
  ok _ hg := absurd hg List.not_mem_nil
  writes h := by cases h
  stops _ := ⟨rfl, rfl, rfl⟩
  reads := .inl ⟨rfl, rfl⟩
  bytesRead := rfl
  bytesWritten h := by cases h
  accepted _ := by simp

/-- The task stops because of a frame. -/
theorem reject (hrecv : Frame.recv input = .ok (f, rest)) :
    Books input pending toWrite ⟨rest, [], .recvd f⟩ pending' toWrite' true where
  ok _ hg := absurd hg List.not_mem_nil
  writes h := by cases h
  stops _ := ⟨rfl, rfl, rfl⟩
  reads := .inr ⟨f, hrecv, rfl⟩
  bytesRead := rfl
  bytesWritten h := by cases h
  accepted _ := by simp

end Books

namespace ForwardLoop

variable {fw fw' : ForwardLoop} {broken : Bool} {input : List UInt8} {e : Effect Obs}

theorem Rule.books (h : Rule fw broken input (.ok fw') e) :
    Books input fw.pending fw.toWrite e fw'.pending fw'.toWrite false := by
  cases h with
  | tau _ hp hw => exact .tau hp.symm hw.symm
  | read hf hfits _ hp hp' hw =>
    rw [hp, hp', hw]
    exact .read hfits (by rw [Frame.payload, hf])
  | send _ hp hw => exact .tau hp hw.symm
  | @recv _ payload rest f hrecv hf _ hp hw hw' =>
    have hpay : f.payload = payload := by rw [Frame.payload, hf]
    rw [hp, hw, hw', ← hpay]
    exact .recvd hrecv
  | write _ hp hw =>
    rw [hp]
    exact .wrote hw

theorem Rule.books_stop {exit : Exit} (h : Rule fw broken input (.error exit) e)
    (pending' toWrite' : List UInt8) :
    Books input fw.pending fw.toWrite e pending' toWrite' true := by
  cases h with
  | fail _ => exact .stop
  | reject hrecv _ => exact .reject hrecv

end ForwardLoop

end ObfsWs
