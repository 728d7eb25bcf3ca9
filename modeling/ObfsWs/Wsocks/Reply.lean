import ObfsWs.Wsocks.Destination

/-!
# The answers of the front ends

What a front end writes to the application when the server's offer is in, before it passes bytes
on. Behind it stands a chain of three: the server turns the error of its attempt to connect into a
`NetworkError`, which is sent in the offer; the SOCKS front end turns that into a status of the
version in which it was asked; and the application reads whether it is connected.

The HTTP front end has an answer to a success only. To an offer that is an error it has `todo!()`,
which is `none` here and a panic of the task in `Client.answer`.

## Main definitions

* `FrontEnd`, `FrontEnd.reply` — who asked, and its answer to an offer
* `Reply.granted` — whether the application reads that it is connected
* `SocksV5RequestStatus.expected` — what the kind of an error should be reported as
* `FrontEnd.Reports` — the answer reports a result

## Main results

* `FrontEnd.reply_ok` — every front end has an answer to a success, and it says so
* `FrontEnd.reports_of_reply` — an answer to the offer for a result reports that result

## What is not modelled

The bytes of a SOCKS answer are made by the `socksv5` crate; what is modelled is what it is called
with. The HTTP answer is the text itself. How a request is parsed is not part of this either: the
front ends begin with a destination and a port, which `Destination` derives.

## Three conversions

An `io::Error` has a kind, and the server keeps the kind only: four of them are one
`NetworkError`, and what has no name there is `Other` with the text of the error. For SOCKS 5
every `NetworkError` has a status and `Other` is a general failure. For SOCKS 4 there is one word
for all of them. So the kind is lost on the way in exactly the places that the tables name, and
`expected` is the composition of the two tables, written down from what the kinds mean and
compared with what the code computes.
-/

namespace ObfsWs

/-! ### The statuses -/

/-- `SocksVersion`. -/
inductive SocksVersion
  | v4
  | v5
  deriving DecidableEq

/-- `SocksV4RequestStatus`, as far as it is used. -/
inductive SocksV4RequestStatus
  | granted
  | failed
  deriving DecidableEq

/-- `SocksV5RequestStatus`, as far as it is used. -/
inductive SocksV5RequestStatus
  | success
  | serverFailure
  | connectionNotAllowed
  | networkUnreachable
  | hostUnreachable
  | connectionRefused
  | ttlExpired
  deriving DecidableEq

/-- `From<NetworkError> for SocksV4RequestStatus`. -/
def SocksV4RequestStatus.fromNetworkError (_ : NetworkError) : SocksV4RequestStatus := .failed

/-- `From<NetworkError> for SocksV5RequestStatus`. -/
def SocksV5RequestStatus.fromNetworkError (val : NetworkError) : SocksV5RequestStatus :=
  match val with
  | .serverFailure => .serverFailure
  | .connectionNotAllowed => .connectionNotAllowed
  | .networkUnreachable => .networkUnreachable
  | .hostUnreachable => .hostUnreachable
  | .connectionRefused => .connectionRefused
  | .ttlExpired => .ttlExpired
  | .other _ => .serverFailure

/-! ### The answers -/

/-- What a front end writes to the application before it passes bytes on. -/
inductive Reply
  /-- `socksv5::v4::write_request_status`. -/
  | socksV4 (status : SocksV4RequestStatus) (host : ByteArr 4) (port : UInt16)
  /-- `socksv5::v5::write_request_status`. -/
  | socksV5 (status : SocksV5RequestStatus) (host : SocksV5Host) (port : UInt16)
  /-- `write_all`. -/
  | http (text : String)

/-- The application reads that it is connected: the status that says so, or the status line of a
response with code 200. -/
def Reply.granted : Reply → Bool
  | .socksV4 status _ _ => status = .granted
  | .socksV5 status _ _ => status = .success
  | .http text => "HTTP/1.0 200 ".toList.isPrefixOf text.toList

-- the other answer of the HTTP front end, to a request that is not for a connection
example : (Reply.http "HTTP/1.0 400 unsupported non-CONNECT request\r\n\r\n").granted = false := by
  decide

/-- `socks_fut`, when the offer is in. -/
def socksReply (version : SocksVersion) (dst : String) (port : UInt16) (offerId : Offer) : Reply :=
  match offerId with
  | .ok _ =>
    match version with
    | .v4 => .socksV4 .granted ⟨[0, 1, 1, 1], rfl⟩ port
    | .v5 => .socksV5 .success (.domain dst.toByteArray.data.toList) port
  | .error (.unableConnect err) =>
    match version with
    | .v4 => .socksV4 (.fromNetworkError err) ⟨[0, 0, 0, 0], rfl⟩ 0
    | .v5 => .socksV5 (.fromNetworkError err) (.ipv4 ⟨[0, 0, 0, 0], rfl⟩) 0

/-- `http_fut`, when the offer is in; `todo!()` when it is an error. -/
def httpReply (offerId : Offer) : Option Reply :=
  match offerId with
  | .ok _ => some (.http "HTTP/1.0 200 Connection established\r\n\r\n")
  | .error _ => none

/-- Which front end asked for the connection, and in which version of its protocol. -/
inductive FrontEnd
  | socks (version : SocksVersion)
  | http
  deriving DecidableEq

/-- Its answer. -/
def FrontEnd.reply (front : FrontEnd) (dst : String) (port : UInt16) (offerId : Offer) :
    Option Reply :=
  match front with
  | .socks version => some (socksReply version dst port offerId)
  | .http => httpReply offerId

/-- A success is told of a connection, whichever front end tells it. -/
theorem FrontEnd.reply_ok (front : FrontEnd) (dst : String) (port : UInt16) (id : BitVec 128) :
    ∃ reply, front.reply dst port (.ok id) = some reply ∧ reply.granted = true := by
  rcases front with (_ | _) | _
  · exact ⟨_, rfl, rfl⟩
  · exact ⟨_, rfl, rfl⟩
  · exact ⟨_, rfl, by decide⟩

/-! ### What is reported -/

/-- What an error of this kind should be reported as. -/
def SocksV5RequestStatus.expected (kind : IoErrorKind) : SocksV5RequestStatus :=
  match kind with
  | .connectionRefused | .connectionReset | .connectionAborted | .brokenPipe => .connectionRefused
  | .timedOut => .hostUnreachable
  | .permissionDenied => .connectionNotAllowed
  | .other => .serverFailure

theorem SocksV5RequestStatus.fromNetworkError_fromIo (err : IoError) :
    fromNetworkError (.fromIo err) = expected err.kind := by
  rw [NetworkError.fromIo]
  cases err.kind <;> rfl

theorem SocksV5RequestStatus.expected_ne_success (kind : IoErrorKind) :
    expected kind ≠ .success := by
  cases kind <;> decide

/-- The offer for the result of `TcpStream::connect`. -/
def offerOf (r : Except IoError (BitVec 128)) : Offer :=
  match r with
  | .ok id => .ok id
  | .error err => .error (.unableConnect (.fromIo err))

/-- A failure is told of an error. -/
theorem granted_socksReply_error (version : SocksVersion) (dst : String) (port : UInt16)
    (err : IoError) :
    (socksReply version dst port (offerOf (.error err))).granted = false := by
  cases version with
  | v4 => rfl
  | v5 =>
    refine decide_eq_false ?_
    rw [SocksV5RequestStatus.fromNetworkError_fromIo]
    exact SocksV5RequestStatus.expected_ne_success _

/-- The reply reports this result of the server's attempt: that it is connected, or what the kind of
the error should be reported as, where the protocol of the front end has a word for it. -/
structure FrontEnd.Reports (front : FrontEnd) (r : Except IoError (BitVec 128)) (reply : Reply) :
    Prop where
  granted : reply.granted = true ↔ ∃ id, r = .ok id
  status : front = .socks .v5 → ∀ err, r = .error err →
    reply = .socksV5 (.expected err.kind) (.ipv4 ⟨[0, 0, 0, 0], rfl⟩) 0

/-- **An answer reports the result**, when it is an answer to the offer for that result. -/
theorem FrontEnd.reports_of_reply {front : FrontEnd} {dst : String} {port : UInt16}
    {r : Except IoError (BitVec 128)} {reply : Reply}
    (h : front.reply dst port (offerOf r) = some reply) : front.Reports r reply := by
  rcases r with err | id
  · rcases front with version | _
    · obtain rfl := Option.some.inj h
      refine ⟨⟨fun hg => ?_, fun ⟨_, hid⟩ => by cases hid⟩, fun hv err' herr => ?_⟩
      · rw [granted_socksReply_error] at hg
        cases hg
      · obtain rfl := FrontEnd.socks.inj hv
        obtain rfl := Except.error.inj herr
        rw [← SocksV5RequestStatus.fromNetworkError_fromIo]
        rfl
    · cases h
  · obtain ⟨reply', hreply, hgranted⟩ := front.reply_ok dst port id
    obtain rfl := Option.some.inj (h.symm.trans hreply)
    exact ⟨⟨fun _ => ⟨id, rfl⟩, fun _ => hgranted⟩, fun _ err herr => by cases herr⟩

end ObfsWs
