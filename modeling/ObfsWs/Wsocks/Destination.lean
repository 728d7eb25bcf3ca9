import ObfsWs.Lib.IpText
import ObfsWs.Wsocks.Frame

/-!
# The destination of a request

The SOCKS and the HTTP front end turn the target that an application asks for into the text of a
`TcpConnect`, and the server connects to that text: it is an address if it reads as one, and a name
to be looked up otherwise.

SOCKS carries the octets of an address, and the text is the one that the standard library writes.
`CONNECT` carries a URL, and the text is its host as `url` serializes it, an IPv6 address in
brackets. The server does not read that as an address.

How invalid bytes of a name are replaced, and how an IPv6 address is serialized in a URL, are
parameters.

## Main definitions

* `SocksRequest.protocol`, `httpConnect` — the front ends
* `connectTarget` — what the server connects to
* `Agree` — both front ends ask for the target, and the server reads it as that

## Main results

* `connectTarget_toString` — the text that SOCKS sends is read back as the address
* `connectTarget_bracket` — a bracketed host is looked up as a name
* `agree_iff` — the front ends agree exactly on IPv4 addresses

## What is assumed

Of the `url` crate: the host of a URL with an IPv4 address is that address in text, and with an
IPv6 address the address in brackets, in some form (`UrlOf`). Of the standard library:
`to_socket_addrs` of a pair of a text and a port reads the text as an IPv4 or IPv6 address if it
is one, and looks it up as a name otherwise; and the texts of addresses are as in `IpText`. What a
lookup answers is not modelled, so `agree_iff` is about what is asked for: the name with brackets
is one that no server knows.

Invalid bytes of a SOCKS name are replaced by `from_utf8_lossy`, which is a parameter because it
matters for names only.
-/

namespace ObfsWs

/-! ### SOCKS -/

/-- `SocksV4Host`. -/
inductive SocksV4Host
  | ip (ip4 : ByteArr 4)
  | domain (name : List UInt8)

/-- `SocksV5Host`. -/
inductive SocksV5Host
  | ipv4 (ip4 : ByteArr 4)
  | ipv6 (ip6 : ByteArr 16)
  | domain (name : List UInt8)

/-- A request of either version. -/
inductive SocksRequest
  | v4 (host : SocksV4Host) (port : UInt16)
  | v5 (host : SocksV5Host) (port : UInt16)

/-- What `socks_fut` asks the server for. -/
def SocksRequest.protocol (fromUtf8Lossy : List UInt8 → String) : SocksRequest → Protocol
  | .v4 (.ip ip4) port => .tcpConnect (Ipv4Addr.ofBytes ip4).toString port
  | .v4 (.domain name) port => .tcpConnect (fromUtf8Lossy name) port
  | .v5 (.ipv4 ip4) port => .tcpConnect (Ipv4Addr.ofBytes ip4).toString port
  | .v5 (.ipv6 ip6) port => .tcpConnect (Ipv6Addr.ofBytes ip6).toString port
  | .v5 (.domain name) port => .tcpConnect (fromUtf8Lossy name) port

/-! ### HTTP -/

/-- The URL of a request, as far as it is used. -/
structure Url where
  /-- `host_str`. -/
  hostStr : Option String
  /-- `port_or_known_default`. -/
  portOrKnownDefault : Option UInt16

/-- Why `http_fut` asks for nothing. -/
inductive HttpError
  /-- It returns an error with this context. -/
  | context (msg : String)
  /-- It answers 400: the method is not `CONNECT`. -/
  | unsupported
  deriving DecidableEq

/-- What `http_fut` asks the server for. -/
def httpConnect (method : String) (url : Url) : Except HttpError Protocol :=
  if method = "CONNECT" then
    match url.hostStr with
    | none => .error (.context "cannot parse 'host' from http proxy request")
    | some dst =>
      match url.portOrKnownDefault with
      | none => .error (.context "cannot parse 'port' from http proxy request")
      | some port => .ok (.tcpConnect dst port)
  else .error .unsupported

/-! ### The server -/

/-- `IpAddr`. -/
inductive IpAddr
  | v4 (addr : Ipv4Addr)
  | v6 (addr : Ipv6Addr)
  deriving DecidableEq

/-- What a connection is made to. -/
inductive Target
  | addr (ip : IpAddr) (port : UInt16)
  /-- A name, to be looked up. -/
  | lookup (host : String) (port : UInt16)
  deriving DecidableEq

/-- `TcpStream::connect((dst, port))`: an IPv4 address, or else an IPv6 address, or else a name. -/
def connectTarget (dst : String) (port : UInt16) : Target :=
  match Ipv4Addr.parse dst with
  | some addr => .addr (.v4 addr) port
  | none =>
    match Ipv6Addr.parse dst with
    | some addr => .addr (.v6 addr) port
    | none => .lookup dst port

/-- `to_string`. -/
def IpAddr.toString : IpAddr → String
  | .v4 addr => addr.toString
  | .v6 addr => addr.toString

/-- **An address in text is read back** as that address. -/
theorem connectTarget_toString (ip : IpAddr) (port : UInt16) :
    connectTarget ip.toString port = .addr ip port := by
  rcases ip with addr | addr
  · rw [IpAddr.toString, connectTarget, addr.parse_toString]
  · rw [IpAddr.toString, connectTarget, addr.parseIpv4_toString, addr.parse_toString]

/-- **A host in brackets** is taken for a name. -/
theorem connectTarget_bracket (s : String) (port : UInt16) :
    connectTarget ("[" ++ s) port = .lookup ("[" ++ s) port := by
  rw [connectTarget, Ipv4Addr.parse_bracket, Ipv6Addr.parse_bracket]

/-! ### Asking for an address -/

/-- The SOCKS5 request for an address. -/
def IpAddr.socksRequest (ip : IpAddr) (port : UInt16) : SocksRequest :=
  match ip with
  | .v4 addr => .v5 (.ipv4 addr.toBytes) port
  | .v6 addr => .v5 (.ipv6 addr.toBytes) port

/-- The host of a URL that has the address as a literal. -/
def IpAddr.urlHost (serialize : Ipv6Addr → String) : IpAddr → String
  | .v4 addr => addr.toString
  | .v6 addr => "[" ++ serialize addr ++ "]"

/-- The URL of a `CONNECT` to an address and a port, as `url` reads it. -/
structure UrlOf (serialize : Ipv6Addr → String) (ip : IpAddr) (port : UInt16) (url : Url) :
    Prop where
  host : url.hostStr = some (ip.urlHost serialize)
  port : url.portOrKnownDefault = some port

/-- What SOCKS asks for is the text of the address. -/
theorem protocol_socksRequest (fromUtf8Lossy : List UInt8 → String) (ip : IpAddr)
    (port : UInt16) :
    (ip.socksRequest port).protocol fromUtf8Lossy = .tcpConnect ip.toString port := by
  rcases ip with addr | addr
  · rfl
  · show Protocol.tcpConnect (Ipv6Addr.ofBytes addr.toBytes).toString port = _
    rw [Ipv6Addr.ofBytes_toBytes]
    rfl

/-- What `CONNECT` asks for is the host of the URL. -/
theorem httpConnect_of_urlOf {serialize : Ipv6Addr → String} {ip : IpAddr} {port : UInt16}
    {url : Url} (h : UrlOf serialize ip port url) :
    httpConnect "CONNECT" url = .ok (.tcpConnect (ip.urlHost serialize) port) := by
  rw [httpConnect, if_pos rfl, h.host, h.port]

/-- Both front ends ask for the same text and port, and the server reads the text as the
address. -/
def Agree (fromUtf8Lossy : List UInt8 → String) (ip : IpAddr) (port : UInt16) (url : Url) : Prop :=
  ∃ dst, (ip.socksRequest port).protocol fromUtf8Lossy = .tcpConnect dst port ∧
    httpConnect "CONNECT" url = .ok (.tcpConnect dst port) ∧
    connectTarget dst port = .addr ip port

/-- **The front ends agree exactly on IPv4 addresses.** -/
theorem agree_iff (fromUtf8Lossy : List UInt8 → String) {serialize : Ipv6Addr → String}
    {ip : IpAddr} {port : UInt16} {url : Url} (hurl : UrlOf serialize ip port url) :
    Agree fromUtf8Lossy ip port url ↔ ∃ addr, ip = .v4 addr := by
  constructor
  · rintro ⟨dst, -, hhttp, htarget⟩
    rcases ip with addr | addr
    · exact ⟨addr, rfl⟩
    · rw [httpConnect_of_urlOf hurl] at hhttp
      obtain ⟨rfl, -⟩ := Protocol.tcpConnect.inj (Except.ok.inj hhttp)
      rw [IpAddr.urlHost, String.append_assoc, connectTarget_bracket] at htarget
      cases htarget
  · rintro ⟨addr, rfl⟩
    exact ⟨addr.toString, protocol_socksRequest fromUtf8Lossy _ port, httpConnect_of_urlOf hurl,
      connectTarget_toString (.v4 addr) port⟩

/-- `CONNECT 192.0.2.1:443`. -/
theorem agree_iff_v4 :
    UrlOf Ipv6Addr.toString (.v4 ⟨192, 0, 2, 1⟩) 443 ⟨some "192.0.2.1", some 443⟩ ∧
      Agree (fun _ => "") (.v4 ⟨192, 0, 2, 1⟩) 443 ⟨some "192.0.2.1", some 443⟩ := by
  have hurl : UrlOf Ipv6Addr.toString (.v4 ⟨192, 0, 2, 1⟩) 443 ⟨some "192.0.2.1", some 443⟩ :=
    ⟨by decide, rfl⟩
  exact ⟨hurl, (agree_iff _ hurl).mpr ⟨_, rfl⟩⟩

/-- `Ipv6Addr::LOCALHOST`. -/
def Ipv6Addr.localhost : Ipv6Addr := ⟨[0, 0, 0, 0, 0, 0, 0, 1], rfl⟩

/-- `CONNECT [::1]:443`: SOCKS asks for `::1`, which is the address, and `CONNECT` for `[::1]`,
which the server looks up as a name. -/
theorem agree_fails :
    UrlOf Ipv6Addr.toString (.v6 .localhost) 443 ⟨some "[::1]", some 443⟩ ∧
      (IpAddr.socksRequest (.v6 .localhost) 443).protocol (fun _ => "") = .tcpConnect "::1" 443 ∧
      connectTarget "::1" 443 = .addr (.v6 .localhost) 443 ∧
      httpConnect "CONNECT" ⟨some "[::1]", some 443⟩ = .ok (.tcpConnect "[::1]" 443) ∧
      connectTarget "[::1]" 443 = .lookup "[::1]" 443 ∧
      ¬ Agree (fun _ => "") (.v6 .localhost) 443 ⟨some "[::1]", some 443⟩ := by
  have htext : (IpAddr.v6 .localhost).toString = "::1" := by decide
  have hsocks : (IpAddr.socksRequest (.v6 .localhost) 443).protocol (fun _ => "") =
      .tcpConnect "::1" 443 := by
    rw [protocol_socksRequest, htext]
  refine ⟨⟨by decide, rfl⟩, hsocks, by decide, rfl, by decide, ?_⟩
  rintro ⟨dst, hdst, hhttp, -⟩
  obtain ⟨rfl, -⟩ := Protocol.tcpConnect.inj (Except.ok.inj hhttp)
  rw [hsocks] at hdst
  exact absurd (Protocol.tcpConnect.inj hdst).1 (by decide)

end ObfsWs
