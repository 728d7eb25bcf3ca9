import ObfsWs.Handshake
import ObfsWs.Lib.Codec

/-!
# The etag of a client

The `Sec-Websocket-Key` of a client's handshakes carries a hash that stays the same as long as the
client runs, encrypted under a fresh nonce. The server decrypts it and takes it for the session.

The primitives are parameters: the keyed hash, the keystream of the cipher, the hasher of the
standard library and the `Debug` text of an `Etag` are functions of their arguments. Nothing else
is assumed of them. In particular nothing is assumed about collisions: two etags may have the same
hash, and then their clients share a session. And nothing is proved about secrecy: that the etag
is hidden from those who do not know the public key is a property of the cipher.

## Why decoding works

The keystream is a function of the key and of the nonce, and is added to the hash bytewise by
exclusive or. Both sides have the same key, the hash of the server's public key, and the nonce is
in the clear. So the server undoes what the client did whatever the keystream is. The hash is sent
as eight bytes, most significant first, and read back the same way.

A result of `none` is a panic.

## Main definitions

* `Primitives` — what the code takes from its libraries
* `Etag`, `Etag.generate`, `Etag.fromKey`

## Main results

* `Etag.fromKey_generate` — decoding a generated key gives the hash of the etag
* `Etag.exists_fromKey` — decoding a key that the listener accepts gives some hash
* `Etag.agrees` — client, listener and server agree

## Implementation notes

The slices and the assertions of the source are kept as operations that may fail, and both
`generate` and `fromKey` return `none` for a panic. A malformed key is an error and not a panic.
The time stamps of an etag are numbers; only their `Debug` text is ever used, which is a
parameter.
-/

namespace ObfsWs

/-- The public key of a mux. -/
structure MuxPublic where
  asBytes : ByteArr 32

/-- `Etag`. The times are the nanoseconds that they stand for. -/
structure Etag where
  random : List UInt8
  time1 : ℕ
  time2 : ℕ
  pkHash : ByteArr 32

/-- What the code takes from its libraries. -/
structure Primitives where
  /-- `blake3::keyed_hash`. -/
  keyedHash : ByteArr 32 → List UInt8 → ByteArr 32
  /-- Byte `i` of the keystream of `ChaCha20Legacy` under a key and a nonce. -/
  keystream : ByteArr 32 → ByteArr 8 → ℕ → UInt8
  /-- `DefaultHasher`: what `finish` gives after one `write`. -/
  defaultHasher : List UInt8 → UInt64
  /-- `format!("{:?}", etag)`. -/
  debugEtag : Etag → String

/-- `NS_WSOCKS_CLIENT_ETAG`. -/
def nsWsocksClientEtag : ByteArr 32 :=
  ⟨[0xb2, 0xdf, 0xa0, 0x91, 0xde, 0xc2, 0x07, 0xbf, 0xce, 0x9e, 0x9f, 0x82, 0xb4, 0xf6, 0x85, 0x16,
    0xe2, 0xb6, 0xae, 0xf8, 0xab, 0xa4, 0xa0, 0x90, 0x96, 0xd3, 0xf8, 0xfe, 0x02, 0xcb, 0xc5, 0xa8],
    rfl⟩

namespace Primitives

/-- `client_etag_hash`. -/
def clientEtagHash (lib : Primitives) (data : List UInt8) : ByteArr 32 :=
  lib.keyedHash nsWsocksClientEtag data

/-- `ChaCha20Legacy::new(key, nonce).apply_keystream(buf)`. -/
def applyKeystream (lib : Primitives) (key : ByteArr 32) (nonce : ByteArr 8) (buf : List UInt8) :
    List UInt8 :=
  buf.mapIdx fun i b => b ^^^ lib.keystream key nonce i

variable (lib : Primitives)

@[simp] theorem length_applyKeystream (key : ByteArr 32) (nonce : ByteArr 8) (buf : List UInt8) :
    (lib.applyKeystream key nonce buf).length = buf.length :=
  List.length_mapIdx

/-- Applying a keystream twice changes nothing. -/
theorem applyKeystream_applyKeystream (key : ByteArr 32) (nonce : ByteArr 8) (buf : List UInt8) :
    lib.applyKeystream key nonce (lib.applyKeystream key nonce buf) = buf := by
  rw [applyKeystream, applyKeystream, List.mapIdx_mapIdx]
  refine List.ext_getElem (by simp) fun i h₁ h₂ => ?_
  rw [List.getElem_mapIdx]
  show buf[i] ^^^ lib.keystream key nonce i ^^^ lib.keystream key nonce i = buf[i]
  rw [UInt8.xor_assoc, UInt8.xor_self, UInt8.xor_zero]

end Primitives

/-- For concrete runs: primitives that are constant. -/
def Primitives.null : Primitives where
  keyedHash _ _ := ⟨.replicate 32 0, rfl⟩
  keystream _ _ _ := 0
  defaultHasher _ := 0
  debugEtag _ := ""

/-- For concrete runs: a public key. -/
def MuxPublic.zero : MuxPublic := ⟨⟨.replicate 32 0, rfl⟩⟩

/-! ### The etag -/

/-- Why a key is not decoded. -/
inductive EtagError
  | decode
  /-- `Wrong length of Sec-Websocket-Key!` -/
  | wrongLength
  deriving DecidableEq

/-- A slice as a nonce: `nonce.into()`, which panics at another length than 8. -/
def nonceFrom (bs : List UInt8) : Option (ByteArr 8) :=
  if h : bs.length = 8 then some ⟨bs, h⟩ else none

/-- `assert_eq!(bs.len(), n)`. -/
def assertLen (bs : List UInt8) (n : ℕ) : Option Unit := if bs.length = n then some () else none

namespace Etag

/-- `Etag::new`, with the bytes drawn and the times read. -/
def new (lib : Primitives) (random : ByteArr 1024) (time1 time2 : ℕ) (pk : MuxPublic) : Etag where
  random := random.val
  time1 := time1
  time2 := time2
  pkHash := lib.clientEtagHash pk.asBytes.val

/-- `Etag::clone`. -/
def clone (e : Etag) : Etag := ⟨e.random, e.time1, e.time2, e.pkHash⟩

/-- `Etag::calc_hash`: the hasher is fed the hash of the `Debug` text. -/
def calcHash (lib : Primitives) (e : Etag) : UInt64 :=
  lib.defaultHasher (lib.clientEtagHash (utf8 (lib.debugEtag e))).val

/-- `Etag::generate`, with the nonce drawn. -/
def generate (lib : Primitives) (e : Etag) (nonce : ByteArr 8) : Option String := do
  let hash := lib.applyKeystream e.pkHash nonce (toBE 8 (e.calcHash lib).toNat)
  let out := nonce.val ++ hash
  assertLen out 16
  some (asciiString (Base64.encode out))

/-- `Etag::from`. -/
def fromKey (lib : Primitives) (pk : MuxPublic) (b64 : String) :
    Option (Except EtagError UInt64) :=
  match Base64.decode (utf8 b64) with
  | none => some (.error .decode)
  | some buf =>
    if buf.length ≠ 16 then some (.error .wrongLength)
    else do
      let nonce ← Slice.range buf 0 8
      assertLen nonce 8
      let hash ← Slice.range buf 8 buf.length
      assertLen hash 8
      let nonce ← nonceFrom nonce
      let hash := lib.applyKeystream (lib.clientEtagHash pk.asBytes.val) nonce hash
      let h ← Slice.range hash 0 8
      let h ← Slice.copyFrom (.replicate 8 0) 0 8 h
      some (.ok (.ofNat (ofBE h)))

variable (lib : Primitives) (pk : MuxPublic)

/-- What `from` makes of the base64 of a nonce and 8 more bytes. -/
theorem fromKey_of_decode {b64 : String} (nonce : ByteArr 8) {hash : List UInt8}
    (hhash : hash.length = 8) (hdec : Base64.decode (utf8 b64) = some (nonce.val ++ hash)) :
    fromKey lib pk b64 = some (.ok (.ofNat (ofBE
      (lib.applyKeystream (lib.clientEtagHash pk.asBytes.val) nonce hash)))) := by
  obtain ⟨nonce, hnonce⟩ := nonce
  have hlen : (nonce ++ hash).length = 16 := by rw [List.length_append, hnonce, hhash]
  have hto : Slice.range (nonce ++ hash) 0 8 = some nonce := by
    rw [Slice.range_to (by omega), ← hnonce, List.take_left]
  have hfrom : Slice.range (nonce ++ hash) 8 16 = some hash := by
    have := Slice.range_from (v := nonce ++ hash) (i := 8) (by omega)
    rwa [hlen, ← hnonce, List.drop_left, hnonce] at this
  generalize hplain : lib.applyKeystream (lib.clientEtagHash pk.asBytes.val) ⟨nonce, hnonce⟩ hash =
    plain
  have hp : plain.length = 8 := by rw [← hplain, Primitives.length_applyKeystream, hhash]
  have hrange : Slice.range plain 0 8 = some plain := by
    rw [Slice.range_to hp.ge, List.take_of_length_le hp.le]
  have hcopy : Slice.copyFrom (.replicate 8 0) 0 8 plain = some plain := by
    rw [Slice.copyFrom_of_le (by omega) (by simp)]
    simp
  simp only [fromKey, hdec, hlen, hto, hfrom, assertLen, hnonce, hhash, nonceFrom, ne_eq,
    not_true_eq_false, if_false, if_true, dif_pos, Option.bind_eq_bind, Option.bind_some, hplain,
    hrange, hcopy]

/-- The plaintext of a key: the hash of the etag behind a nonce, encrypted. -/
theorem length_plain (e : Etag) (nonce : ByteArr 8) :
    (nonce.val ++ lib.applyKeystream e.pkHash nonce (toBE 8 (e.calcHash lib).toNat)).length =
      16 := by
  rw [List.length_append, nonce.property, Primitives.length_applyKeystream, length_toBE]

/-- Generating never panics, and makes the base64 of the nonce and the encrypted hash. -/
theorem exists_generate (e : Etag) (nonce : ByteArr 8) :
    ∃ key, e.generate lib nonce = some key ∧ utf8 key = Base64.encode (nonce.val ++
      lib.applyKeystream e.pkHash nonce (toBE 8 (e.calcHash lib).toNat)) := by
  refine ⟨_, ?_, utf8_asciiString fun b hb => ?_⟩
  · simp only [generate, assertLen, length_plain, if_true, Option.bind_eq_bind, Option.bind_some]
  · have := Base64.encode_visible hb
    omega

/-- **Decoding a generated key** gives the hash of the etag, whatever the nonce. -/
theorem fromKey_generate {e : Etag} {nonce : ByteArr 8} {key : String}
    (hpk : e.pkHash = lib.clientEtagHash pk.asBytes.val)
    (hkey : utf8 key = Base64.encode (nonce.val ++
      lib.applyKeystream e.pkHash nonce (toBE 8 (e.calcHash lib).toNat))) :
    fromKey lib pk key = some (.ok (e.calcHash lib)) := by
  have hlen : (lib.applyKeystream e.pkHash nonce (toBE 8 (e.calcHash lib).toNat)).length = 8 := by
    rw [Primitives.length_applyKeystream, length_toBE]
  rw [fromKey_of_decode lib pk nonce hlen (Base64.decode_eq_some_iff.mpr hkey), ← hpk,
    Primitives.applyKeystream_applyKeystream, ofBE_toBE (e.calcHash lib).toNat_lt,
    UInt64.ofNat_toNat]

/-- **Decoding a key that the listener accepts** gives some hash. -/
theorem exists_fromKey {key : String} (hkey : IsKey (utf8 key)) :
    ∃ hash, fromKey lib pk key = some (.ok hash) := by
  obtain ⟨raw, hraw, hdec⟩ := isKey_iff.mp hkey
  have hnonce : (raw.take 8).length = 8 := by
    rw [List.length_take, hraw]
    rfl
  have hhash : (raw.drop 8).length = 8 := by rw [List.length_drop, hraw]
  refine ⟨_, fromKey_of_decode lib pk ⟨raw.take 8, hnonce⟩ hhash ?_⟩
  rw [hdec, List.take_append_drop]

/-- **Client, listener and server agree.** Whatever the nonce, the key of a client's etag or of a
clone of it is let through by the listener, and the server decodes it to the hash of that etag. And
whatever request the listener lets through, the server decodes its key without an error and
without tripping an assertion. -/
theorem agrees :
    (∀ (random : ByteArr 1024) (time1 time2 : ℕ) (clones : ℕ) (nonce : ByteArr 8),
      let etag := Etag.new lib random time1 time2 pk
      ∃ key, (clone^[clones] etag).generate lib nonce = some key ∧
        (∀ (req : Request) (res : Response Unit),
          req.headers.get "Sec-Websocket-Key" = some (utf8 key) →
          ∃ md, pipeGetMetadata (.bounded 1) req res = some (.ok res, md) ∧ md.queue = [key]) ∧
        fromKey lib pk key = some (.ok (etag.calcHash lib))) ∧
    (∀ (req : Request) (res r : Response Unit) (md : Chan String Unit),
      pipeGetMetadata (.bounded 1) req res = some (.ok r, md) →
      ∃ key hash, md.queue = [key] ∧
        req.headers.get "Sec-Websocket-Key" = some (utf8 key) ∧
        fromKey lib pk key = some (.ok hash)) := by
  constructor
  · intro random time1 time2 clones nonce etag
    have hclone : clone^[clones] etag = etag := Function.iterate_fixed rfl clones
    obtain ⟨key, hgen, hkey⟩ := exists_generate lib etag nonce
    rw [hclone]
    refine ⟨key, hgen, fun req res hget => ?_, fromKey_generate lib pk rfl hkey⟩
    obtain ⟨key', md, hkey', hsend, hout⟩ :=
      pipeGetMetadata_of_isKey res hget ⟨_, length_plain lib etag nonce, hkey⟩
    obtain rfl := utf8_injective hkey'
    exact ⟨md, hout, (Chan.trySend_ok hsend).2.2.1⟩
  · intro req res r md hout
    by_cases hreq : ∃ v, req.headers.get "Sec-Websocket-Key" = some v ∧ IsKey v
    · obtain ⟨v, hget, hv⟩ := hreq
      obtain ⟨key, md', rfl, hsend, hout'⟩ := pipeGetMetadata_of_isKey res hget hv
      obtain ⟨hash, hhash⟩ := exists_fromKey lib pk hv
      rw [hout] at hout'
      obtain ⟨-, rfl⟩ := Prod.mk.inj (Option.some.inj hout')
      exact ⟨key, hash, (Chan.trySend_ok hsend).2.2.1, hget, hhash⟩
    · rw [pipeGetMetadata_of_not res _ hreq] at hout
      cases hout

end Etag

end ObfsWs
