import ObfsWs.Handshake

/-!
# Connecting

`ObfsWsPipe::connect`: from a URL and some metadata to a pipe. What it works out before it uses the
network is `dial`: the address to connect to, with the default port of the scheme, and the upgrade
request, which names that address as its host and carries the metadata as its key.

The parser of URLs and the network are parameters: `Pipe.connect` is the code for any of them. What
the callback of the listener says to the request, and what the scheme of the URL is, decides whether
a connection comes about.

## The parts of the URL

Host, port, scheme and what follows are asked for separately. A URL without a host is an error
before anything is sent; a URL without a port gets 80, or 443 for the scheme that stands for TLS,
and with another scheme or none the address has no port. If it can be connected to all the same,
the request goes to the websocket crate and is refused there. So the scheme is looked at twice,
for the port and for the mode, by different rules, and both are kept.

The host is put into the request as text, with the port behind it. A host that may not stand in a
header makes the request builder fail, and its error is the error of `connect`.

## Main definitions

* `Uri`, `ClientRequest`, `Dial`, `dial` — what is worked out from the URL and the metadata
* `Network`, `Pipe.connect` — connecting
* `Network.ofListener` — a network with the listener at its other end

## Main results

* `dial_request` — what the request says, and what the listener makes of it
* `connect_exact` — when a pipe to the listener is made, and what both ends know of each other

## What is assumed

Of `client_async_tls_with_connector_and_config` only this, and only in `Network.ofListener`: it
sends nothing unless the request is a `GET` to a host by `ws` or `wss` (`ClientRequest.mode`), and
it succeeds when its request arrives, is let through by the callback, and the answer comes back.
Whether they arrive is `carries`, any predicate on requests: TLS for `wss` is part of it, because
the listener itself speaks plain text. Of a URI the model has the four things that the code asks
for; that they fit together is up to the parser.
-/

namespace ObfsWs

/-! ### The request -/

/-- `ws::Uri`: what the code uses of it. -/
structure Uri where
  host : Option String
  portU16 : Option UInt16
  schemeStr : Option String
  /-- `to_string`. -/
  text : String
  deriving DecidableEq

/-- Why no pipe is made. -/
inductive ConnectError
  | uri
  /-- `cannot parse host:port pair in provided URL({peer_url:?})!` -/
  | host
  /-- The builder of the request. -/
  | http
  | tcp
  | nodelay
  | ws
  deriving DecidableEq

/-- The port to connect to. -/
def Uri.port (uri : Uri) : Option UInt16 :=
  match uri.portU16 with
  | some port => some port
  | none =>
    match uri.schemeStr with
    | some "ws" => some 80
    | some "wss" => some 443
    | _ => none

/-- The address to connect to: the host, and the port if there is one. -/
def Uri.target (uri : Uri) (host : String) : String :=
  match uri.port with
  | some port => host ++ ":" ++ toString port.toNat
  | none => host

example : Uri.target ⟨some "host", none, some "wss", ""⟩ "host" = "host:443" := by decide

/-- The value of `User-Agent`. -/
def userAgent : String :=
  "Mozilla/5.0 (Windows NT 10.0; Win64; x64) AppleWebKit/537.36 (KHTML, like Gecko) " ++
    "Chrome/120.0.0.0 Safari/537.36 Edg/120.0.0.0"

/-- `ws::Request` as a client makes it. -/
structure ClientRequest extends Request where
  method : String
  uri : Uri

/-- `http::request::Builder`: `none` once something was refused. -/
abbrev Builder := Option ClientRequest

namespace Builder

/-- `Request::builder`: `GET /` without headers. -/
def new : Builder := some { headers := [], method := "GET", uri := ⟨none, none, none, "/"⟩ }

/-- `Builder::method`, of a name that is one. -/
def method (b : Builder) (method : String) : Builder := b.map fun req => { req with method }

/-- `Builder::uri`. -/
def uri (b : Builder) (uri : Uri) : Builder := b.map fun req => { req with uri }

/-- `Builder::header`. -/
def header (b : Builder) (name value : String) : Builder := do
  let req ← b
  let v ← HeaderValue.tryFrom value
  some { req with headers := req.headers ++ [(headerName name, v)] }

end Builder

/-- The request for a URI, to a host, with some key. -/
def request (uri : Uri) (host key : String) : Option ClientRequest :=
  let b := Builder.new
  let b := b.method "GET"
  let b := b.uri uri
  let b := b.header "Host" host
  let b := b.header "User-Agent" userAgent
  let b := b.header "Connection" "Upgrade"
  let b := b.header "Upgrade" "websocket"
  let b := b.header "Sec-Websocket-Version" "13"
  b.header "Sec-Websocket-Key" key

/-- What `connect` has worked out when it begins to use the network. -/
structure Dial where
  uri : Uri
  target : String
  request : ClientRequest

/-- `connect` up to there. -/
def dial (parse : String → Option Uri) (peerUrl peerMetadata : String) :
    Except ConnectError Dial :=
  match parse peerUrl with
  | none => .error .uri
  | some uri =>
    match uri.host with
    | none => .error .host
    | some host =>
      match request uri (uri.target host) peerMetadata with
      | none => .error .http
      | some req => .ok ⟨uri, uri.target host, req⟩

/-- The headers of a request, with the values of the two that vary. -/
def connectHeaders (host key : HeaderValue) : HeaderMap :=
  [("host", host), ("user-agent", utf8 userAgent), ("connection", utf8 "Upgrade"),
    ("upgrade", utf8 "websocket"), ("sec-websocket-version", utf8 "13"), ("sec-websocket-key", key)]

/-- The request, with what varies of it. -/
def upgradeRequest (uri : Uri) (host key : HeaderValue) : ClientRequest where
  headers := connectHeaders host key
  method := "GET"
  uri := uri

/-- What is always the same is accepted, so it depends on these two. -/
theorem request_eq (uri : Uri) (host key : String) : request uri host key =
    (HeaderValue.tryFrom host).bind fun h =>
      (HeaderValue.tryFrom key).map fun k => upgradeRequest uri h k := by
  have hagent : HeaderValue.tryFrom userAgent = some (utf8 userAgent) := by decide
  have hconn : HeaderValue.tryFrom "Upgrade" = some (utf8 "Upgrade") := by decide
  have hup : HeaderValue.tryFrom "websocket" = some (utf8 "websocket") := by decide
  have hversion : HeaderValue.tryFrom "13" = some (utf8 "13") := by decide
  have hnames : ["Host", "User-Agent", "Connection", "Upgrade", "Sec-Websocket-Version",
      "Sec-Websocket-Key"].map headerName = ["host", "user-agent", "connection", "upgrade",
        "sec-websocket-version", "sec-websocket-key"] := by decide
  simp only [List.map_cons, List.map_nil, List.cons.injEq, and_true] at hnames
  cases hhost : HeaderValue.tryFrom host with
  | none => simp [request, Builder.new, Builder.method, Builder.uri, Builder.header, hhost]
  | some h =>
    cases hkey : HeaderValue.tryFrom key with
    | none => simp [request, Builder.new, Builder.method, Builder.uri, Builder.header, hhost, hkey]
    | some k =>
      simp [request, Builder.new, Builder.method, Builder.uri, Builder.header, hhost, hkey, hagent,
        hconn, hup, hversion, hnames, upgradeRequest, connectHeaders]

/-- What `dial` gives, when it does. -/
theorem dial_eq_ok {parse : String → Option Uri} {peerUrl peerMetadata : String} {d : Dial} :
    dial parse peerUrl peerMetadata = .ok d ↔ ∃ uri host h k, parse peerUrl = some uri ∧
      uri.host = some host ∧ HeaderValue.tryFrom (uri.target host) = some h ∧
      HeaderValue.tryFrom peerMetadata = some k ∧
      d = ⟨uri, uri.target host, upgradeRequest uri h k⟩ := by
  simp only [dial, request_eq]
  constructor
  · intro hd
    split at hd
    · cases hd
    · rename_i uri huri
      split at hd
      · cases hd
      · rename_i host hhost
        split at hd
        · cases hd
        · rename_i req hreq
          obtain rfl := Except.ok.inj hd
          obtain ⟨h, hh, hreq⟩ := Option.bind_eq_some_iff.mp hreq
          obtain ⟨k, hk, rfl⟩ := Option.map_eq_some_iff.mp hreq
          exact ⟨uri, host, h, k, huri, hhost, hh, hk, rfl⟩
  · rintro ⟨uri, host, h, k, huri, hhost, hh, hk, rfl⟩
    simp only [huri, hhost, hh, hk, Option.bind_some, Option.map_some]

/-! ### The listener at the other end -/

theorem HeaderValue.eq_of_tryFrom {s : String} {v : HeaderValue} (h : tryFrom s = some v) :
    v = utf8 s := by
  unfold tryFrom at h
  split at h
  · exact (Option.some.inj h).symm
  · cases h

/-- A key may stand in a header. -/
theorem IsKey.tryFrom {s : String} (h : IsKey (utf8 s)) :
    HeaderValue.tryFrom s = some (utf8 s) := by
  obtain ⟨raw, -, hs⟩ := h
  refine if_pos (List.all_eq_true.mpr fun b hb => ?_)
  obtain ⟨hlow, hhigh⟩ := Base64.encode_visible (hs ▸ hb)
  have hne : b.toNat ≠ 127 := hhigh.ne
  simp [HeaderValue.isValid, hlow, hne]

@[simp] theorem get_connectHeaders_key (h k : HeaderValue) :
    (connectHeaders h k).get "Sec-Websocket-Key" = some k := by
  have hname : headerName "Sec-Websocket-Key" = "sec-websocket-key" := by decide
  simp [HeaderMap.get, connectHeaders, hname]

@[simp] theorem get_connectHeaders_host (h k : HeaderValue) :
    (connectHeaders h k).get "Host" = some h := by
  have hname : headerName "Host" = "host" := by decide
  simp [HeaderMap.get, connectHeaders, hname]

/-- The callback lets the request through and hands over this key. -/
def Request.Admitted (req : Request) (key : String) : Prop :=
  ∃ md, pipeGetMetadata (.bounded 1) req (.new ()) = some (.ok (.new ()), md) ∧ md.queue = [key]

theorem Request.admitted_iff {req : Request} {v key : String}
    (hget : req.headers.get "Sec-Websocket-Key" = some (utf8 v)) :
    req.Admitted key ↔ key = v ∧ IsKey (utf8 v) := by
  by_cases hkey : IsKey (utf8 v)
  · obtain ⟨key', md, hutf8, hsend, hout⟩ := pipeGetMetadata_of_isKey (.new ()) hget hkey
    obtain rfl := utf8_injective hutf8
    have hq : md.queue = [key'] := (Chan.trySend_ok hsend).2.2.1
    constructor
    · rintro ⟨md', hout', hq'⟩
      rw [hout] at hout'
      obtain ⟨-, rfl⟩ := Prod.mk.inj (Option.some.inj hout')
      exact ⟨(List.singleton_inj.mp (hq.symm.trans hq')).symm, hkey⟩
    · rintro ⟨rfl, -⟩
      exact ⟨md, hout, hq⟩
  · constructor
    · rintro ⟨md, hout, -⟩
      rw [pipeGetMetadata_of_not] at hout
      · cases hout
      · rintro ⟨v', hv, hv'⟩
        obtain rfl := Option.some.inj (hget.symm.trans hv)
        exact hkey hv'
    · rintro ⟨-, h⟩
      exact absurd h hkey

/-- **The request** names the address as its host, and is let through exactly when the metadata is
a key, which is what the listener gets. -/
theorem dial_request {parse : String → Option Uri} {peerUrl peerMetadata : String} {d : Dial}
    (hd : dial parse peerUrl peerMetadata = .ok d) :
    d.request.headers.get "Host" = some (utf8 d.target) ∧
      ∀ key, d.request.toRequest.Admitted key ↔ key = peerMetadata ∧ IsKey (utf8 peerMetadata) := by
  obtain ⟨uri, host, h, k, -, -, hh, hk, rfl⟩ := dial_eq_ok.mp hd
  obtain rfl := HeaderValue.eq_of_tryFrom hh
  obtain rfl := HeaderValue.eq_of_tryFrom hk
  exact ⟨get_connectHeaders_host _ _, fun _ => Request.admitted_iff (get_connectHeaders_key _ _)⟩

/-! ### The network -/

/-- What the network says. -/
structure Network where
  /-- `TcpStream::connect`. -/
  tcp : String → Bool
  /-- `set_nodelay`. -/
  nodelay : Bool
  /-- `client_async_tls_with_connector_and_config`. -/
  handshake : ClientRequest → Bool

/-- How the client's handshake speaks over the TCP stream. -/
inductive Mode
  | plain
  | tls
  deriving DecidableEq

/-- `uri_mode`: the schemes of the client's handshake. -/
def Uri.mode (uri : Uri) : Option Mode :=
  match uri.schemeStr with
  | some "ws" => some .plain
  | some "wss" => some .tls
  | _ => none

theorem Uri.isSome_mode {uri : Uri} :
    uri.mode.isSome = true ↔ uri.schemeStr = some "ws" ∨ uri.schemeStr = some "wss" := by
  unfold mode
  split <;> simp_all

/-- How the client sends a request, if it does. -/
def ClientRequest.mode (req : ClientRequest) : Option Mode :=
  if req.method = "GET" ∧ req.uri.host.isSome then req.uri.mode else none

/-- A network with the listener at its other end, which may fail to carry the handshake. -/
def Network.ofListener (tcp : String → Bool) (nodelay : Bool) (carries : ClientRequest → Bool) :
    Network where
  tcp := tcp
  nodelay := nodelay
  handshake req := req.mode.isSome && carries req &&
    (pipeGetMetadata (.bounded 1) req.toRequest (.new ())).any fun r => r.1.isOk

/-- `ObfsWsPipe::connect`. -/
def Pipe.connect {β : Type} (parse : String → Option Uri) (net : Network)
    (peerUrl peerMetadata : String) : Except ConnectError (Pipe β) :=
  match dial parse peerUrl peerMetadata with
  | .error e => .error e
  | .ok d =>
    if net.tcp d.target then
      if net.nodelay then
        if net.handshake d.request then .ok (.new d.uri.text peerMetadata) else .error .ws
      else .error .nodelay
    else .error .tcp

/-- What decides over the handshake with the listener. -/
theorem handshake_ofListener {tcp : String → Bool} {nodelay : Bool} {carries : ClientRequest → Bool}
    {uri : Uri} {h : HeaderValue} {key host : String} (hhost : uri.host = some host) :
    (Network.ofListener tcp nodelay carries).handshake (upgradeRequest uri h (utf8 key)) = true ↔
      (uri.schemeStr = some "ws" ∨ uri.schemeStr = some "wss") ∧
        carries (upgradeRequest uri h (utf8 key)) = true ∧ IsKey (utf8 key) := by
  generalize hreq : upgradeRequest uri h (utf8 key) = req
  have hget : req.headers.get "Sec-Websocket-Key" = some (utf8 key) :=
    hreq ▸ get_connectHeaders_key h (utf8 key)
  have hmode : req.mode = uri.mode := by
    rw [← hreq]
    exact if_pos ⟨rfl, by rw [upgradeRequest, hhost]; rfl⟩
  have hlets : (pipeGetMetadata (.bounded 1) req.toRequest (.new ())).any (fun r => r.1.isOk) =
      true ↔ IsKey (utf8 key) := by
    by_cases hkey : IsKey (utf8 key)
    · obtain ⟨-, md, -, -, hout⟩ := pipeGetMetadata_of_isKey (.new ()) hget hkey
      rw [hout]
      exact iff_of_true rfl hkey
    · rw [pipeGetMetadata_of_not]
      · exact iff_of_false (by simp [Except.isOk, Except.toBool]) hkey
      · rintro ⟨v, hv, hv'⟩
        obtain rfl := Option.some.inj (hget.symm.trans hv)
        exact hkey hv'
  show (req.mode.isSome && carries req && _) = true ↔ _
  rw [Bool.and_eq_true, Bool.and_eq_true, hlets, hmode, Uri.isSome_mode, and_assoc]

/-- When `connect` makes a pipe. -/
theorem connect_eq_ok {β : Type} {parse : String → Option Uri} {net : Network}
    {peerUrl peerMetadata : String} {p : Pipe β} :
    Pipe.connect parse net peerUrl peerMetadata = .ok p ↔
      ∃ d, dial parse peerUrl peerMetadata = .ok d ∧ net.tcp d.target = true ∧
        net.nodelay = true ∧ net.handshake d.request = true ∧ p = .new d.uri.text peerMetadata := by
  simp only [Pipe.connect]
  constructor
  · intro h
    split at h
    · cases h
    · rename_i d hd
      split at h
      · rename_i htcp
        split at h
        · rename_i hnodelay
          split at h
          · rename_i hws
            exact ⟨d, hd, htcp, hnodelay, hws, (Except.ok.inj h).symm⟩
          · cases h
        · cases h
      · cases h
  · rintro ⟨d, hd, htcp, hnodelay, hws, rfl⟩
    simp only [hd, htcp, hnodelay, hws, if_true]

/-- **Connecting to the listener.** A pipe is made exactly when the URL can be parsed, has a host
and the scheme `ws` or `wss`, the address may stand in a header and can be connected to, the network
carries the request, and the metadata is a key; it names the URL and the metadata. Whatever request
is sent asks for the URL, names the address as its host, and the listener is handed the metadata, if
it is a key, and nothing else. -/
theorem connect_exact {β : Type} (parse : String → Option Uri) (tcp : String → Bool)
    (nodelay : Bool) (carries : ClientRequest → Bool) (peerUrl peerMetadata : String) :
    (∀ p : Pipe β,
      Pipe.connect parse (.ofListener tcp nodelay carries) peerUrl peerMetadata = .ok p ↔
        ∃ uri host, parse peerUrl = some uri ∧ uri.host = some host ∧
          (uri.schemeStr = some "ws" ∨ uri.schemeStr = some "wss") ∧
          (HeaderValue.tryFrom (uri.target host)).isSome = true ∧
          tcp (uri.target host) = true ∧ nodelay = true ∧
          carries (upgradeRequest uri (utf8 (uri.target host)) (utf8 peerMetadata)) = true ∧
          IsKey (utf8 peerMetadata) ∧ p = .new uri.text peerMetadata) ∧
    ∀ d, dial parse peerUrl peerMetadata = .ok d →
      d.request.method = "GET" ∧ parse peerUrl = some d.request.uri ∧
        d.request.headers.get "Host" = some (utf8 d.target) ∧
        ∀ key, d.request.toRequest.Admitted key ↔
          key = peerMetadata ∧ IsKey (utf8 peerMetadata) := by
  refine ⟨fun p => ?_, fun d hd => ?_⟩
  · rw [connect_eq_ok]
    constructor
    · rintro ⟨d, hd, htcp, hnodelay, hws, rfl⟩
      obtain ⟨uri, host, h, k, huri, hhost, hh, hk, rfl⟩ := dial_eq_ok.mp hd
      obtain rfl := HeaderValue.eq_of_tryFrom hk
      obtain ⟨hscheme, hcarries, hkey⟩ := (handshake_ofListener hhost).mp hws
      refine ⟨uri, host, huri, hhost, hscheme, Option.isSome_iff_exists.mpr ⟨h, hh⟩, htcp, hnodelay,
        ?_, hkey, rfl⟩
      rwa [HeaderValue.eq_of_tryFrom hh] at hcarries
    · rintro ⟨uri, host, huri, hhost, hscheme, hvalid, htcp, hnodelay, hcarries, hkey, rfl⟩
      obtain ⟨h, hh⟩ := Option.isSome_iff_exists.mp hvalid
      have hd := dial_eq_ok.mpr ⟨uri, host, h, _, huri, hhost, hh, hkey.tryFrom, rfl⟩
      rw [← HeaderValue.eq_of_tryFrom hh] at hcarries
      exact ⟨_, hd, htcp, hnodelay, (handshake_ofListener hhost).mpr ⟨hscheme, hcarries, hkey⟩, rfl⟩
  · obtain ⟨hhost, hadmitted⟩ := dial_request hd
    obtain ⟨uri, host, h, k, huri, -, -, -, rfl⟩ := dial_eq_ok.mp hd
    exact ⟨rfl, huri, hhost, hadmitted⟩

end ObfsWs
