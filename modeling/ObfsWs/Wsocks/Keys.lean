import ObfsWs.Wsocks.FrontDoor

/-!
# Which keys lead to a session

A key is the base64 of a nonce and of a hash that is encrypted under it. So for every hash there is
one key for each nonce and no other: the keys that the server decodes to the hash of an etag are
the keys that this etag generates.

## Main results

* `Etag.fromKey_eq_ok_iff` — the keys that are decoded to the hash of an etag
* `front_session_exact` — the pipes of a session are those whose keys its etag can generate

## Why one key for each nonce

Under a given nonce the keystream is fixed, so what a key decodes to and what it carries determine
each other; and the base64 of sixteen bytes is one text. So a pipe cannot get into a session by a
key that the etag of the session would not have generated, and a key tells which nonce it was
generated under. That says nothing about who has generated it: whoever has seen one key of a
client can send it again.
-/

namespace ObfsWs

namespace Etag

variable {lib : Primitives} {pk : MuxPublic}

/-- The bytes of a key: a nonce and an encrypted hash. -/
def raw (lib : Primitives) (key : ByteArr 32) (hash : UInt64) (nonce : ByteArr 8) : List UInt8 :=
  nonce.val ++ lib.applyKeystream key nonce (toBE 8 hash.toNat)

/-- The bytes of a key tell its nonce. -/
theorem nonce_of_raw {key : ByteArr 32} {hash hash' : UInt64} {nonce nonce' : ByteArr 8}
    (h : raw lib key hash nonce = raw lib key hash' nonce') : nonce = nonce' :=
  Subtype.ext (List.append_inj h (nonce.property.trans nonce'.property.symm)).1

/-- **What a decoded key is made of.** -/
theorem exists_raw_of_fromKey {key : String} {hash : UInt64}
    (h : fromKey lib pk key = some (.ok hash)) :
    ∃ nonce, utf8 key = Base64.encode (raw lib (lib.clientEtagHash pk.asBytes.val) hash nonce) := by
  cases hdec : Base64.decode (utf8 key) with
  | none => simp [fromKey, hdec] at h
  | some buf =>
    by_cases hlen : buf.length = 16
    · -- the two halves
      have hnonce : (buf.take 8).length = 8 := by
        rw [List.length_take, hlen]
        rfl
      have hcrypt : (buf.drop 8).length = 8 := by rw [List.length_drop, hlen]
      have hsplit : Base64.decode (utf8 key) = some (buf.take 8 ++ buf.drop 8) := by
        rw [hdec, List.take_append_drop]
      have hof := fromKey_of_decode lib pk ⟨buf.take 8, hnonce⟩ hcrypt hsplit
      generalize hplain : lib.applyKeystream (lib.clientEtagHash pk.asBytes.val)
        ⟨buf.take 8, hnonce⟩ (buf.drop 8) = plain at hof
      have hplainLen : plain.length = 8 := by
        rw [← hplain, Primitives.length_applyKeystream, hcrypt]
      obtain rfl := Except.ok.inj (Option.some.inj (h.symm.trans hof))
      have hlt : ofBE plain < 2 ^ 64 := by
        have := ofBE_lt plain
        rwa [hplainLen] at this
      have hbytes : toBE 8 (UInt64.ofNat (ofBE plain)).toNat = plain := by
        rw [UInt64.toNat_ofNat_of_lt' hlt, ← hplainLen, toBE_ofBE]
      refine ⟨⟨buf.take 8, hnonce⟩, ?_⟩
      rw [raw, hbytes, ← hplain, Primitives.applyKeystream_applyKeystream, List.take_append_drop]
      exact Base64.decode_eq_some_iff.mp hdec
    · simp [fromKey, hdec, hlen] at h

/-- What an etag generates under a nonce. -/
theorem generate_eq_some_iff {e : Etag} {nonce : ByteArr 8} {key : String} :
    e.generate lib nonce = some key ↔
      utf8 key = Base64.encode (raw lib e.pkHash (e.calcHash lib) nonce) := by
  obtain ⟨key', hgen, hkey'⟩ := exists_generate lib e nonce
  constructor
  · intro h
    obtain rfl := Option.some.inj (h.symm.trans hgen)
    exact hkey'
  · intro h
    rw [hgen, utf8_injective (h.trans hkey'.symm)]

/-- **The keys of an etag.** A key is decoded to the hash of an etag exactly when the etag generates
it, under one nonce. -/
theorem fromKey_eq_ok_iff {e : Etag} (hpk : e.pkHash = lib.clientEtagHash pk.asBytes.val)
    {key : String} : fromKey lib pk key = some (.ok (e.calcHash lib)) ↔
      ∃! nonce, e.generate lib nonce = some key := by
  constructor
  · intro h
    obtain ⟨nonce, hkey⟩ := exists_raw_of_fromKey h
    rw [← hpk] at hkey
    refine ⟨nonce, generate_eq_some_iff.mpr hkey, fun nonce' hgen => ?_⟩
    have hkey' := generate_eq_some_iff.mp hgen
    have hraw : raw lib e.pkHash (e.calcHash lib) nonce' =
        raw lib e.pkHash (e.calcHash lib) nonce := by
      have hdec := congrArg Base64.decode (hkey'.symm.trans hkey)
      rw [Base64.decode_encode, Base64.decode_encode] at hdec
      exact Option.some.inj hdec
    exact nonce_of_raw hraw
  · rintro ⟨nonce, hgen, -⟩
    exact fromKey_generate lib pk hpk (generate_eq_some_iff.mp hgen)

end Etag

section Exact

variable {crates : PipeCrates} {lib : Primitives} {pk : MuxPublic} {tr : FrontTrace}
  {s : Listener × Wpl}

/-- A mux keeps its pipes. -/
theorem Wpl.Rule.keeps {w w' : Wpl} {a : WplAct} {o : WplOut} (h : Wpl.Rule lib pk w a o w')
    {pipe : WsPipe} (hpipe : ∃ x ∈ w.muxes, pipe ∈ x.pipes) : ∃ x ∈ w'.muxes, pipe ∈ x.pipes := by
  obtain ⟨y, hy, hp⟩ := hpipe
  -- a mux that is replaced by one with its pipes and maybe more
  have hset {m : ℕ} {x x' : Mux} {pc : WplPc} (hx : w.muxes[m]? = some x)
      (hsub : x.pipes ⊆ x'.pipes) : ∃ z ∈ (w.setMux m x' pc).muxes, pipe ∈ z.pipes := by
    obtain ⟨i, hi⟩ := List.mem_iff_getElem?.mp hy
    by_cases him : m = i
    · subst him
      obtain rfl := Option.some.inj (hx.symm.trans hi)
      have hlt := (List.getElem?_eq_some_iff.mp hx).1
      exact ⟨x', List.mem_of_getElem? (List.getElem?_set_self hlt), hsub hp⟩
    · exact ⟨y, List.mem_of_getElem? ((List.getElem?_set_ne him).trans hi), hp⟩
  cases h with
  | visit | pruned | accepted | stopped | found | dropped => exact ⟨y, hy, hp⟩
  | created => exact ⟨y, List.mem_append_left _ hy, hp⟩
  | released _ hx | upgraded _ hx _ | session hx _ => exact hset hx (List.Subset.refl _)
  | attached _ hx => exact hset hx (List.subset_append_left _ _)

/-- An attached pipe is in a mux. -/
theorem Wpl.exists_mux_of_attached {w : Wpl} {tr : Wpl.Trace}
    (h : (Wpl.machine lib pk).Run .new tr w) {pipe : WsPipe} (hpipe : pipe ∈ attachedPipes tr) :
    ∃ x ∈ w.muxes, pipe ∈ x.pipes := by
  refine h.induct (fun tr w => ∀ pipe ∈ attachedPipes tr, ∃ x ∈ w.muxes, pipe ∈ x.pipes)
    (fun pipe hp => by cases hp) ?_ pipe hpipe
  intro tr w a w' o _ ih hs pipe hp
  have hr := rule_of_step hs
  rw [attachedPipes_snoc] at hp
  rcases List.mem_append.mp hp with hp | hp
  · exact hr.keeps (ih pipe hp)
  · cases hr with
    | attached _ hx =>
      obtain rfl := List.mem_singleton.mp hp
      have hlt := (List.getElem?_eq_some_iff.mp hx).1
      exact ⟨_, List.mem_of_getElem? (List.getElem?_set_self hlt),
        List.mem_append_right _ (List.mem_singleton_self _)⟩
    | _ => cases hp

/-- **The pipes of a session.** In every run of the listener and the server, whoever the clients are
and whatever they send: a pipe that was attached is in a session of the hash of an etag exactly when
its key is one that this etag generates, and then it does so under one nonce. -/
theorem front_session_exact (h : (front crates lib pk).Run (.new, .new) tr s) {e : Etag}
    (hpk : e.pkHash = lib.clientEtagHash pk.asBytes.val) {pipe : WsPipe}
    (hpipe : pipe ∈ Wpl.attachedPipes tr.wpl) :
    (∃ x ∈ s.2.muxes, pipe ∈ x.pipes ∧ x.hash = e.calcHash lib) ↔
      ∃! nonce, e.generate lib nonce = some pipe.peerMetadata := by
  have hwpl := wpl_of_run h
  have hi := Wpl.inv_of_run hwpl
  rw [← Etag.fromKey_eq_ok_iff hpk]
  constructor
  · rintro ⟨x, hx, hp, hhash⟩
    rw [← hhash]
    exact hi.pipes x hx pipe hp
  · intro hkey
    obtain ⟨x, hx, hp⟩ := Wpl.exists_mux_of_attached hwpl hpipe
    have hsame := (hi.pipes x hx pipe hp).symm.trans hkey
    exact ⟨x, hx, hp, Except.ok.inj (Option.some.inj hsame)⟩

/-- The key of the one client is not one of the other's. -/
theorem front_session_exact_two :
    ∃ (tr : FrontTrace) (s : Listener × Wpl), (front .plain .byTime .zero).Run (.new, .new) tr s ∧
      Wpl.attachedPipes tr.wpl = [.zero 0] ∧
      (∃! nonce, (Etag.madeAt 0).generate .byTime nonce = some "AAAAAAAAAAAAAAAAAAAAAA==") ∧
      ¬ ∃! nonce, (Etag.madeAt 1).generate .byTime nonce = some "AAAAAAAAAAAAAAAAAAAAAA==" := by
  obtain ⟨tr, s, hrun, -, hatt, hhash⟩ :=
    Machine.exists_run_of_exec (front .plain .byTime .zero) (.new, .new)
      [.connect, .setNodelay 0 true,
        .handshake 0 (some ⟨[("sec-websocket-key", utf8 "AAAAAAAAAAAAAAAAAAAAAA==")]⟩),
        .recvMd 0, .sendPipe 0, .pruned, .accept (.zero 0), .entry, .created, .upgrade, .addPipe]
      (P := fun tr s => Wpl.attachedPipes (FrontTrace.wpl tr) = [.zero 0] ∧
        s.2.muxes.map (fun x => (x.hash, x.pipes)) =
          [((Etag.madeAt 0).calcHash .byTime, [.zero 0])]) (by decide)
  have hmem : WsPipe.zero 0 ∈ Wpl.attachedPipes (FrontTrace.wpl tr) :=
    hatt ▸ List.mem_singleton_self _
  refine ⟨tr, s, hrun, hatt, ?_, ?_⟩
  · obtain ⟨x, hx, heq⟩ := List.mem_map.mp (hhash ▸ List.mem_singleton_self _)
    obtain ⟨hxhash, hxpipes⟩ := Prod.mk.inj heq
    exact (front_session_exact hrun (e := .madeAt 0) rfl hmem).mp
      ⟨x, hx, hxpipes ▸ List.mem_singleton_self _, hxhash⟩
  · intro hother
    obtain ⟨x, hx, -, hxhash⟩ :=
      (front_session_exact hrun (e := .madeAt 1) rfl hmem).mpr hother
    have hmap := List.mem_map_of_mem (f := fun x : Mux => (x.hash, x.pipes)) hx
    rw [hhash, List.mem_singleton] at hmap
    have : (Etag.madeAt 1).calcHash .byTime = (Etag.madeAt 0).calcHash .byTime :=
      hxhash.symm.trans (Prod.mk.inj hmap).1
    exact absurd this (by decide)

end Exact

end ObfsWs
