import ObfsWs.Lib.Base64
import ObfsWs.Listener

/-!
# The handshake

`pipe_get_metadata`, the callback that decides on an upgrade request. It lets a request through
exactly when the first `Sec-Websocket-Key` is the base64 of 16 bytes, and then hands that key to
the task of the connection over a channel of one slot.

A `HeaderMap` is the list of its headers in the order of their arrival, names in lower case. A
result of `none` is a panic.

## What the callback reads

Of the request it reads one header, and of that header the first value. It decodes it and looks at
the length. It does not look at the method, the path, the version or the `Upgrade` header: all of
these are the websocket crate's business and have been checked before the callback is called, or
are checked after it. So a request is its headers here.

The status and the header of the answer are built with functions that can fail, and their results
are unwrapped. `res400` is the same composition with `none` for a panic, and that it is never
`none` is a fact about its three constants.

## Main definitions

* `HeaderMap`, `Request`, `Response` — of the `http` crate, what the callback uses
* `pipeGetMetadata` — the callback
* `IsKey` — the keys that it is meant to accept
* `Listener.HandsOver` — the connection's task gets the key at once

## Main results

* `pipeGetMetadata_exact` — what the callback answers to any request, and how the listener goes on

## What is assumed

`HeaderMap::get` returns the first value that was inserted under a name, names being compared
without regard to case; `HeaderValue::to_str` succeeds on visible ASCII, blanks and tabs. The
base64 engine is the standard one, which demands padding and zero spare bits (`Base64`). What
happens to an answer that the callback returns as an error is up to the websocket crate, and ends
the handshake.

The same decoding is done by the server later. That it succeeds there on every key that was let
through here is proved (`exists_fromKey`) and not assumed.
-/

namespace ObfsWs

/-! ### Headers -/

/-- The bytes of a header's value. -/
abbrev HeaderValue := List UInt8

namespace HeaderValue

/-- `is_visible_ascii`: printable, or a tab. -/
def isVisibleAscii (b : UInt8) : Bool := 32 ≤ b.toNat && b.toNat < 127 || b.toNat == 9

theorem isVisibleAscii_iff {b : UInt8} :
    isVisibleAscii b = true ↔ 32 ≤ b.toNat ∧ b.toNat < 127 ∨ b.toNat = 9 := by
  simp only [isVisibleAscii, Bool.or_eq_true, Bool.and_eq_true, decide_eq_true_eq, beq_iff_eq]

/-- `HeaderValue::to_str`. -/
def toStr (v : HeaderValue) : Option String :=
  if v.all isVisibleAscii then some (asciiString v) else none

/-- `is_valid`: the bytes that may stand in a value. -/
def isValid (b : UInt8) : Bool := 32 ≤ b.toNat && b.toNat != 127 || b.toNat == 9

/-- `HeaderValue::try_from`. -/
def tryFrom (s : String) : Option HeaderValue :=
  if (utf8 s).all isValid then some (utf8 s) else none

/-- A value with a string has the bytes of that string. -/
theorem utf8_of_toStr {v : HeaderValue} {s : String} (h : toStr v = some s) : utf8 s = v := by
  unfold toStr at h
  split at h
  · rename_i hv
    obtain rfl := Option.some.inj h
    refine utf8_asciiString fun b hb => ?_
    have := isVisibleAscii_iff.mp (List.all_eq_true.mp hv b hb)
    omega
  · cases h

/-- Base64 can be read as a string. -/
theorem exists_toStr_encode (raw : List UInt8) : ∃ s, toStr (Base64.encode raw) = some s := by
  refine ⟨_, if_pos (List.all_eq_true.mpr fun b hb => ?_)⟩
  exact isVisibleAscii_iff.mpr (.inl (Base64.encode_visible hb))

end HeaderValue

/-- A name as `HeaderName` keeps it. -/
def headerName (name : String) : String := String.ofList (name.toList.map Char.toLower)

/-- The headers of a message. -/
abbrev HeaderMap := List (String × HeaderValue)

namespace HeaderMap

/-- `HeaderMap::get`: the first value under that name. -/
def get (hs : HeaderMap) (name : String) : Option HeaderValue :=
  (hs.find? fun h => h.1 == headerName name).map (·.2)

/-- `HeaderMap::insert`: the only value under that name from now on. -/
def insert (hs : HeaderMap) (name : String) (v : HeaderValue) : HeaderMap :=
  hs.filter (fun h => h.1 != headerName name) ++ [(headerName name, v)]

end HeaderMap

/-! ### Messages -/

/-- An upgrade request. -/
structure Request where
  headers : HeaderMap

/-- A response. -/
structure Response (β : Type) where
  status : ℕ
  headers : HeaderMap
  body : β
  deriving DecidableEq

/-- `Response::new`. -/
def Response.new {β : Type} (body : β) : Response β := ⟨200, [], body⟩

/-- The response to a request that is refused. -/
abbrev ErrorResponse := Response (Option String)

/-- `StatusCode::try_from`. -/
def StatusCode.tryFrom (n : ℕ) : Option ℕ := if 100 ≤ n ∧ n < 1000 then some n else none

/-! ### The callback -/

/-- `res400`. -/
def res400 : Option ErrorResponse := do
  let r := Response.new none
  let status ← StatusCode.tryFrom 400
  let close ← HeaderValue.tryFrom "close"
  some { r with status, headers := HeaderMap.insert r.headers "Connection" close }

/-- `pipe_get_metadata`: the answer, and the channel after it. -/
def pipeGetMetadata (mdTx : Chan String Unit) (req : Request) (res : Response Unit) :
    Option (Except ErrorResponse (Response Unit) × Chan String Unit) := do
  let res400 ← res400
  match req.headers.get "Sec-Websocket-Key" with
  | some md =>
    match Base64.decode md with
    | some v =>
      if v.length = 16 then do
        let s ← HeaderValue.toStr md
        match mdTx.trySend s with
        | .ok (mdTx, _) => some (.ok res, mdTx)
        -- the `unwrap` of the send
        | .error _ => none
      else some (.error res400, mdTx)
    | none => some (.error res400, mdTx)
  | none => some (.error res400, mdTx)

/-- The value is the canonical base64 of exactly 16 bytes. -/
def IsKey (v : HeaderValue) : Prop := ∃ raw : List UInt8, raw.length = 16 ∧ v = Base64.encode raw

theorem isKey_iff {v : HeaderValue} :
    IsKey v ↔ ∃ raw : List UInt8, raw.length = 16 ∧ Base64.decode v = some raw := by
  simp only [IsKey, Base64.decode_eq_some_iff]

/-- The response to a request that is refused: 400, closing the connection, without a body. -/
def badRequest : ErrorResponse := ⟨400, [("connection", utf8 "close")], none⟩

theorem res400_eq : res400 = some badRequest := by decide

/-- A request is let through when its first key is one, and then the key is sent. -/
theorem pipeGetMetadata_of_isKey {req : Request} {v : HeaderValue} (res : Response Unit)
    (hget : req.headers.get "Sec-Websocket-Key" = some v) (hv : IsKey v) :
    ∃ key md, utf8 key = v ∧ (Chan.bounded 1 : Chan String Unit).trySend key = .ok (md, []) ∧
      pipeGetMetadata (.bounded 1) req res = some (.ok res, md) := by
  obtain ⟨raw, hraw, hdec⟩ := isKey_iff.mp hv
  obtain ⟨key, hkey⟩ := HeaderValue.exists_toStr_encode raw
  rw [← Base64.decode_eq_some_iff.mp hdec] at hkey
  refine ⟨key, _, HeaderValue.utf8_of_toStr hkey, rfl, ?_⟩
  simp only [pipeGetMetadata, res400_eq, hget, hdec, hraw, hkey]
  rfl

/-- Otherwise it is refused, and nothing is sent. -/
theorem pipeGetMetadata_of_not {req : Request} (res : Response Unit) (mdTx : Chan String Unit)
    (hreq : ¬∃ v, req.headers.get "Sec-Websocket-Key" = some v ∧ IsKey v) :
    pipeGetMetadata mdTx req res = some (.error badRequest, mdTx) := by
  simp only [isKey_iff] at hreq
  simp only [pipeGetMetadata, res400_eq]
  cases hget : req.headers.get "Sec-Websocket-Key" with
  | none => rfl
  | some md =>
    cases hdec : Base64.decode md with
    | none => simp [hdec]
    | some raw =>
      have hlen : raw.length ≠ 16 := fun hlen => hreq ⟨md, hget, raw, hlen, hdec⟩
      simp [hdec, hlen]

/-! ### The task of the connection -/

/-- With `md` left by the callback, the task of any connection in its handshake receives `key` at
its next step. -/
def Listener.HandsOver (md : Chan String Unit) (key : String) : Prop :=
  ∀ (s : Listener) (c : ℕ), s.conns[c]? = some .handshake →
    ∃ s₁ s₂, machine.step s (.handshake c (some key)) = some (s₁, .tau) ∧
      s₁.conns[c]? = some (.metadata md.close.1) ∧
      machine.step s₁ (.recvMd c) = some (s₂, .tau) ∧
      s₂.conns[c]? = some (.queueing (.of c key))

theorem Listener.handsOver_of_sent {md : Chan String Unit} {key : String}
    (hsend : (Chan.bounded 1 : Chan String Unit).trySend key = .ok (md, [])) :
    HandsOver md key := by
  intro s c hc
  have hlt : c < s.conns.length := (List.getElem?_eq_some_iff.mp hc).1
  have hmd : (s.setConn c (.metadata md.close.1)).conns[c]? = some (.metadata md.close.1) := by
    simp [setConn, hlt]
  obtain ⟨-, -, hq, -⟩ := Chan.trySend_ok hsend
  obtain ⟨md', hrecv⟩ : ∃ md', md.close.1.tryRecv = .ok (key, md') :=
    Chan.exists_tryRecv_of_cons (q := []) hq
  refine ⟨s.setConn c (.metadata md.close.1),
    (s.setConn c (.metadata md.close.1)).setConn c (.queueing (.of c key)), ?_, hmd, ?_, ?_⟩
  · show s.handshake c (some key) = _
    simp only [handshake, hc, hsend]
  · show (s.setConn c (.metadata md.close.1)).recvMd c = _
    simp only [recvMd, hmd, Chan.pollRecv, hrecv]
  · simp [setConn, hlt]

/-- **The handshake's validation is exact and never panics.** The callback answers every request.
It answers `Ok` exactly when the first key is the base64 of 16 bytes; then it passes the response
on and leaves that one key, unchanged, to the task of the connection. Otherwise it has sent
nothing and answers 400. -/
theorem pipeGetMetadata_exact (req : Request) (res : Response Unit) :
    ∃ out md, pipeGetMetadata (.bounded 1) req res = some (out, md) ∧
      ((∃ r, out = .ok r) ↔
        ∃ v, req.headers.get "Sec-Websocket-Key" = some v ∧ IsKey v) ∧
      (∀ r, out = .ok r → r = res ∧ ∃ key, md.queue = [key] ∧
        req.headers.get "Sec-Websocket-Key" = some (utf8 key) ∧ Listener.HandsOver md key) ∧
      (∀ e, out = .error e → e = badRequest ∧ md = .bounded 1) := by
  by_cases hreq : ∃ v, req.headers.get "Sec-Websocket-Key" = some v ∧ IsKey v
  · obtain ⟨v, hget, hv⟩ := hreq
    obtain ⟨key, md, rfl, hsend, hout⟩ := pipeGetMetadata_of_isKey res hget hv
    refine ⟨.ok res, md, hout, ⟨fun _ => ⟨_, hget, hv⟩, fun _ => ⟨res, rfl⟩⟩, ?_, ?_⟩
    · intro r hr
      obtain rfl := Except.ok.inj hr
      exact ⟨rfl, key, (Chan.trySend_ok hsend).2.2.1, hget, Listener.handsOver_of_sent hsend⟩
    · intro e he
      cases he
  · refine ⟨.error badRequest, _, pipeGetMetadata_of_not res _ hreq, ⟨?_, fun h => absurd h hreq⟩,
      ?_, ?_⟩
    · rintro ⟨r, hr⟩
      cases hr
    · intro r hr
      cases hr
    · intro e he
      obtain rfl := Except.error.inj he
      exact ⟨rfl, rfl⟩

-- the sample key of the protocol is let through; a second, bad key does not matter
example : (pipeGetMetadata (.bounded 1)
    ⟨[("sec-websocket-key", utf8 "dGhlIHNhbXBsZSBub25jZQ=="), ("sec-websocket-key", [255])]⟩
    (.new ())).map (fun r => (r.1, r.2.queue)) =
      some (.ok (.new ()), ["dGhlIHNhbXBsZSBub25jZQ=="]) := by decide

end ObfsWs
