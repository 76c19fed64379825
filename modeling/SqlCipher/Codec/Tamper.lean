import SqlCipher.Codec.SessionSpec

/-!
# What a read accepts

With HMAC on, a stored image is decrypted only if it carries the tag that the codec itself
puts on that ciphertext and IV for that page number. Everything else is answered with zeros,
except page 1 of a database whose whole usable first page is plaintext.

No tag of fixed size is injective on all inputs. What the comparison with other images needs
is that two particular inputs do not collide, and `Genuine.unique` asks for just that.
-/

namespace SqlCipher

open Buffer SealedPage Option CodecCtx

def CodecCtx.signed (p : Provider) (ctx : CodecCtx) (pgno : Pgno) (img : Bytes) : Bytes :=
  slice img (ctx.offset pgno).toNat
    (ctx.pageSz - ctx.reserveSz + p.ivSz - (ctx.offset pgno).toNat)

def CodecCtx.storedTag (p : Provider) (ctx : CodecCtx) (img : Bytes) : Bytes :=
  slice img (ctx.pageSz - ctx.reserveSz + p.ivSz) ctx.hmacSz

structure CodecCtx.SignsAlike (c : CodecCtx) (role : CipherRole) (c' : CodecCtx)
    (role' : CipherRole) : Prop where
  pageSz : c'.pageSz = c.pageSz
  reserveSz : c'.reserveSz = c.reserveSz
  hmacSz : c'.hmacSz = c.hmacSz
  algorithm : c'.hmacAlgorithm = c.hmacAlgorithm
  hmac : c'.flags.hmac = c.flags.hmac
  hmacKey : (c'.cipherCtx role').hmacKey = (c.cipherCtx role).hmacKey

def CodecCtx.SameOrder (c c' : CodecCtx) : Prop :=
  c'.flags.lePgno = c.flags.lePgno ∧ c'.flags.bePgno = c.flags.bePgno

/-- The image `X`, read as page `pgno` by the context `c`, is one of the codec's own. -/
structure CodecCtx.Genuine (p : Provider) (g : Globals) (c : CodecCtx) (pgno : Pgno)
    (X : Bytes) : Prop where
  /-- The codec produces an image for this page under this key with the ciphertext, IV and tag of
  `X`. -/
  produced : ∃ e P r img, sqlite3Codec p g e c P pgno .journal = some r ∧ r.out = some img ∧
    c.signed p pgno X = c.signed p pgno img ∧ c.storedTag p X = c.storedTag p img
  /-- Every image the codec produces with this tag has the same ciphertext, IV and page number
  bytes, unless the HMAC has a collision here. -/
  unique : ∀ e (c₀ : CodecCtx) P pgno' mode role r img, c₀.Wf p → P.length = c₀.pageSz →
    mode.role? = some role → sqlite3Codec p g e c₀ P pgno' mode = some r → r.out = some img →
    ¬ r.ctx.HeaderOnly pgno' → c.SignsAlike .read r.ctx role →
    c.storedTag p X = c.storedTag p img →
    (c.mac p g .read (c.signed p pgno X) (pgnoRaw g c.flags pgno) =
        c.mac p g .read (r.ctx.signed p pgno' img) (pgnoRaw g r.ctx.flags pgno') →
      c.signed p pgno X = r.ctx.signed p pgno' img ∧
        pgnoRaw g c.flags pgno = pgnoRaw g r.ctx.flags pgno') →
    c.signed p pgno X = c.signed p pgno img ∧
      pgnoRaw g c.flags pgno = pgnoRaw g r.ctx.flags pgno' ∧ (c.SameOrder r.ctx → pgno' = pgno)

inductive CodecCtx.ReadVerdict (p : Provider) (g : Globals) (e : Env) (c : CodecCtx) (pgno : Pgno)
    (X page : Bytes) : Prop where
  | genuine (L : Layout) (layout : c.HasLayout p pgno L) (h : c.Genuine p g pgno X)
      (body : L.body page = (c.pageKey p g .read).dec (L.iv X) (L.body X)) (error : c.error = .ok)
  | pastEnd (vacuum : e.autoVacuum = true) (zero : ZeroTail (c.offset pgno).toNat X)
      (body : ZeroTail (c.offset pgno).toNat page)
  | plaintext (h : c.HeaderOnly pgno)
  /-- Zeros, and an error unless the first page has no encrypted part. -/
  | rejected (body : ZeroTail (c.offset pgno).toNat page)
      (recorded : c.error ≠ .ok ∨ c.plaintextHeaderSz = (c.pageSz : Int) - c.reserveSz)

variable {p : Provider} {g : Globals} {e : Env} {ctx c : CodecCtx} {role : CipherRole}
  {pgno : Pgno} {P X img : Bytes} {L : Layout}

theorem toNat_of_bytes (v : Pgno) : v.toNat = v.toUInt8.toNat + 2 ^ 8 * (v >>> 8).toUInt8.toNat +
    2 ^ 16 * (v >>> 16).toUInt8.toNat + 2 ^ 24 * (v >>> 24).toUInt8.toNat := by
  have := v.toNat_lt
  simp only [UInt32.toNat_toUInt8, UInt32.toNat_shiftRight, UInt32.toNat_ofNat, Nat.reducePow,
    Nat.reduceMod, Nat.shiftRight_eq_div_pow]
  omega

theorem put4byteLe_injective (h : put4byteLe v = put4byteLe v') : v = v' := by
  simp only [put4byteLe, List.cons.injEq, and_true] at h
  apply UInt32.toNat_inj.mp
  rw [toNat_of_bytes v, toNat_of_bytes v', h.1, h.2.1, h.2.2.1, h.2.2.2]

theorem put4byte_injective (h : put4byte v = put4byte v') : v = v' := by
  simp only [put4byte, List.cons.injEq, and_true] at h
  apply UInt32.toNat_inj.mp
  rw [toNat_of_bytes v, toNat_of_bytes v', h.1, h.2.1, h.2.2.1, h.2.2.2]

theorem pgnoRaw_injective {flags flags' : Flags} (hle : flags'.lePgno = flags.lePgno)
    (hbe : flags'.bePgno = flags.bePgno) (h : pgnoRaw g flags v = pgnoRaw g flags' v') :
    v = v' := by
  unfold pgnoRaw at h
  rw [hle, hbe] at h
  split_ifs at h
  · exact put4byteLe_injective h
  · exact put4byte_injective h
  · exact put4byte_injective h
  · exact put4byteLe_injective h

theorem CodecCtx.HasLayout.signed_eq (hL : ctx.HasLayout p pgno L) (img : Bytes) :
    ctx.signed p pgno img = L.body img ++ L.iv img := by
  have hoff := hL.offset
  have hpos := hL.ivPos
  have hbody := L.offset_add_bodySz
  rw [signed, L.body_append_iv, hL.ivSz, ← hoff, Int.toNat_natCast]
  congr 1
  omega

theorem CodecCtx.HasLayout.storedTag_eq (hL : ctx.HasLayout p pgno L) (hh : ctx.flags.hmac = true)
    (img : Bytes) : ctx.storedTag p img = L.tag img := by
  have hpos := hL.ivPos
  have htag : L.tagSz = ctx.hmacSz := by rw [hL.tagSz, CodecCtx.tagSz, if_pos hh]
  rw [CodecCtx.storedTag, Layout.tag, htag, hL.ivSz, ← hpos, Nat.add_sub_cancel]

theorem stream_getD (h : l.length = n) : stream (fun i => l.getD i 0) n = l := by
  apply List.ext_getElem
  · simp [h]
  · intro i hi hi'
    simp [stream, hi']

theorem CodecCtx.SignsAlike.mac_eq (h : c.SignsAlike role c' role') :
    c'.mac p g role' = c.mac p g role := by
  funext msg label
  simp only [mac, h.hmac, h.algorithm, h.hmacKey]

/-- An image that the codec produced is authentic for the context the call leaves behind. -/
theorem authentic_of_encrypt (w : ctx.Wf p)
    (hP : P.length = ctx.pageSz) (hrole : mode.role? = some role)
    (hr : sqlite3Codec p g e ctx P pgno mode = some r) (hout : r.out = some img)
    (hho : ¬ r.ctx.HeaderOnly pgno) :
    ∃ L, r.ctx.HasLayout p pgno L ∧ img.length = L.pageSz ∧
      Authentic L (r.ctx.mac p g role) (pgnoRaw g r.ctx.flags pgno) img := by
  obtain ⟨_, L, hs, -⟩ := stores_of_encrypt w hP hrole hr hout
  exact ⟨L, hs.layout, hs.length.trans hs.layout.pageSz.symm, (hs.sealed hho).authentic⟩

section

variable {page : Bytes} (hL : c.HasLayout p pgno L) (w : c.Wf p) (herr : c.error = .ok)
  (hdr : 0 ≤ c.plaintextHeaderSz) (hder : c.KeysDerived) (hh : c.flags.hmac = true)
  (hho : ¬ c.HeaderOnly pgno) (hX : X.length = c.pageSz) (hpage : page.length = c.pageSz)
  (hauth : Authentic L (c.mac p g .read) (pgnoRaw g c.flags pgno) X)
  (hbody : L.body page = (c.pageKey p g .read).dec (L.iv X) (L.body X))

include hL w herr hdr hder hh hho hX hpage hauth hbody

/-- Journalling the content of an authentic page, with its own IV, gives the page back. -/
theorem produced_of_authentic :
    ∃ e P r img, sqlite3Codec p g e c P pgno .journal = some r ∧ r.out = some img ∧
      c.signed p pgno X = c.signed p pgno img ∧ c.storedTag p X = c.storedTag p img := by
  have hfit := L.fits
  have hivl : (L.iv X).length = p.ivSz :=
    (length_slice (by rw [hX, ← hL.pageSz]; omega)).trans hL.ivSz
  let e : Env := { Env.allOk with random := some fun i => (L.iv X).getD i 0 }
  have he : e.DerivesKeys := ⟨.inl rfl, fun _ _ => rfl⟩
  have hsalt := salted_of_derivesKeys he c.dropPass pgno
  have hok : c.providerOk e = true := by simp [providerOk, e, Env.allOk]
  have hready : c.ready p g e = some c.dropPass := ready_of_derived herr hdr hder
  have hrole : CodecOp.journal.role? = some .read := rfl
  obtain ⟨img, c', L', hr, henc⟩ := exists_encrypts w hrole hpage hL.fits hready hsalt rfl hok
  have hs := henc.stores_of_derived hder
  obtain rfl : L' = L := hL.unique hs.layout
  have hsealed := hs.sealed hho
  have hiv : L'.iv img = L'.iv X := by
    obtain ⟨rnd, hrnd, hiv⟩ := henc.fresh (mt henc.readied.frame.sameFormat.headerOnly.mp hho)
    cases hrnd
    rw [hiv, stream_getD hivl]
  have hbody' : L'.body img = L'.body X := by
    rw [hsealed.body, hbody, hiv, (c.pageKey p g .read).enc_dec]
    rw [L'.length_body (hX.trans hL.pageSz.symm)]
    exact hL.blockSz_dvd w hdr
  refine ⟨e, page, _, img, hr, rfl, ?_, ?_⟩
  · rw [hL.signed_eq, hL.signed_eq, hbody', hiv]
  · rw [hL.storedTag_eq hh, hL.storedTag_eq hh, hsealed.tag, hbody', hiv]
    exact hauth

theorem genuine_of_authentic : c.Genuine p g pgno X := by
  refine ⟨produced_of_authentic hL w herr hdr hder hh hho hX hpage hauth hbody, ?_⟩
  intro e c₀ P pgno' mode role r img w₀ hP hrole hr hout hho' halike htag hinj
  obtain ⟨L', hL', hlen, hauth'⟩ := authentic_of_encrypt w₀ hP hrole hr hout hho'
  rw [halike.mac_eq] at hauth'
  have hsame : L'.pageSz = L.pageSz ∧ L'.ivPos = L.ivPos ∧ L'.ivSz = L.ivSz ∧
      L'.tagSz = L.tagSz := by
    have h1 := hL'.ivPos
    have h2 := hL.ivPos
    rw [halike.pageSz, halike.reserveSz] at h1
    refine ⟨?_, by omega, hL'.ivSz.trans hL.ivSz.symm, ?_⟩
    · rw [hL'.pageSz, halike.pageSz, hL.pageSz]
    · rw [hL'.tagSz, hL.tagSz, tagSz, tagSz, halike.hmac, halike.hmacSz]
  rw [hL.storedTag_eq hh, hL.storedTag_eq hh] at htag
  rw [hL.signed_eq, hL'.signed_eq] at hinj
  obtain ⟨hlabel, rfl, hbody, hiv, -⟩ :=
    hauth.agree hauth' (hX.trans hL.pageSz.symm) hlen hsame htag hinj
  refine ⟨by rw [hL.signed_eq, hL.signed_eq, hbody, hiv], hlabel, fun horder => ?_⟩
  exact (pgnoRaw_injective horder.1 horder.2 hlabel).symm

end

theorem zeroTail_of_memsetZero (h0 : 0 ≤ off) (h : memsetZero b off len = some out)
    (hlen : off + len = b.length) : ZeroTail off.toNat out := by
  have hle : 0 ≤ len := by
    by_contra hneg
    rw [memsetZero, if_pos (by omega)] at h
    cases h
  lift off to Nat using h0
  obtain rfl : len = ((b.length - off : Nat) : Int) := by omega
  rw [memsetZero_eq (by omega)] at h
  cases h
  exact zeroTail_zeroFrom (by omega)

/-- A read without room for the reserve gives zeros, or is undefined if the tag happens to be right.
-/
theorem pageDecrypt_of_neg {offset : Int} {buffer out : Bytes}
    (hh : c.flags.hmac = true) (hneg : (c.pageSz : Int) - offset - c.reserveSz < 0)
    (h : c.pageDecrypt p g e role pgno offset X buffer = some (rc, out)) :
    (∃ b, memsetZero b offset (c.pageSz - offset) = some out) ∧
      (rc = .error ∨ rc = .ok ∧ e.autoVacuum = true ∧
        ∃ n, readAt X offset (c.pageSz - offset) = some (zeros n)) := by
  have herror {b : Bytes} (hb : c.pageError offset b = some (rc, out)) :
      (∃ b, memsetZero b offset (c.pageSz - offset) = some out) ∧ rc = .error := by
    obtain ⟨b', hb', heq⟩ := bind_eq_some_iff.mp hb
    cases heq
    exact ⟨⟨b, hb'⟩, rfl⟩
  simp only [pageDecrypt, hh, if_true, bind_eq_bind, bind_eq_some_iff] at h
  obtain ⟨iv, -, b, -, msg, -, h⟩ := h
  split at h
  · exact (herror h).imp_right .inl
  · simp only [bind_eq_some_iff] at h
    obtain ⟨b', -, stored, -, computed, -, h⟩ := h
    split_ifs at h
    · obtain ⟨body, hbody, h⟩ := bind_eq_some_iff.mp h
      split_ifs at h with hz
      · obtain ⟨b'', hb'', heq⟩ := bind_eq_some_iff.mp h
        cases heq
        exact ⟨⟨b', hb''⟩, .inr ⟨rfl, hz.1, _, hz.2 ▸ hbody⟩⟩
      · exact (herror h).imp_right .inl
    · simp only [pageDecryptBody, readAt_of_neg X offset hneg, bind_eq_bind,
        bind_none, bind_fun_none] at h
      cases h

theorem zeroTail_of_readAt (h : readAt X off (X.length - off) = some (zeros n)) :
    ZeroTail off.toNat X := by
  have hlen := length_of_readAt h
  obtain ⟨h0, hle, -, hs⟩ := readAt_eq_some.mp h
  rw [length_zeros] at hlen
  have hn : n = X.length - off.toNat := by omega
  rw [slice, List.take_of_length_le (by rw [List.length_drop]; omega), hn] at hs
  exact hs

theorem codecRead_of_not_fits (w : c.Wf p) (hdr : 0 ≤ c.plaintextHeaderSz)
    (hh : c.flags.hmac = true) (hfit : ¬ c.Fits pgno) (hX : X.length = c.pageSz)
    (h : c.codecRead p g e pgno X = some r) :
    ∃ page, r.out = some page ∧ ZeroTail (c.offset pgno).toNat page ∧
      (e.autoVacuum = true ∧ ZeroTail (c.offset pgno).toNat X ∨ r.ctx.error ≠ .ok) := by
  have hoff := offset_nonneg hdr pgno
  have hneg : (c.pageSz : Int) - c.offset pgno - c.reserveSz < 0 := by
    by_contra hsz
    exact hfit ⟨hoff, by omega⟩
  have hho : ¬ c.HeaderOnly pgno := fun hho => by
    have := hho.2
    omega
  have hhdr : c.plaintextHeaderSz ≠ (c.pageSz : Int) - c.reserveSz := fun heq =>
    hfit (w.fits (.inr ⟨hdr, heq.le⟩))
  simp only [codecRead, pageCipher_eq, if_neg hho, bind_eq_bind, bind_eq_some_iff] at h
  obtain ⟨b, hput, ⟨rc, b'⟩, hc, hdone⟩ := h
  have hlen : b'.length = c.pageSz :=
    ((length_of_pageDecrypt hc).trans (length_of_putHeader hput)).trans w.buffer
  obtain ⟨⟨b₀, hz⟩, hcase⟩ := pageDecrypt_of_neg hh hneg hc
  have htail : ZeroTail (c.offset pgno).toNat b' :=
    zeroTail_of_memsetZero hoff hz (by have := length_of_memsetZero hz; omega)
  obtain rfl | ⟨rfl, hv, n, hn⟩ := hcase
  · simp only [codecReadDone, ne_eq, reduceCtorEq, not_false_eq_true, if_true,
      bind_eq_bind, bind_eq_some_iff, if_neg hhdr] at hdone
    obtain ⟨b'', hz', page, hpage, page', hpage', heq⟩ := hdone
    have hlen' := (length_of_memsetZero hz').trans hlen
    cases (readWhole hlen').symm.trans hpage
    cases (writeWhole (hX.trans hlen'.symm)).symm.trans hpage'
    cases heq
    exact ⟨_, rfl, zeroTail_of_memsetZero hoff hz' (by omega), .inr ResultCode.noConfusion⟩
  · rw [c.codecReadDone_ok pgno hX hlen] at hdone
    cases hdone
    refine ⟨_, rfl, htail, .inl ⟨hv, zeroTail_of_readAt (n := n) ?_⟩⟩
    rw [hX]
    exact hn

theorem zeroTail_zeros (off n : Nat) : ZeroTail off (zeros n) := by
  simp [ZeroTail, zeros]

theorem memsetZero_whole (X : Bytes) : memsetZero X 0 X.length = some (zeros X.length) := by
  have h : memsetZero X (0 : Nat) ((X.length - 0 : Nat) : Int) = some (zeroFrom 0 X) :=
    memsetZero_eq (Nat.zero_le _)
  simpa [zeroFrom] using h

/-- In every context that a run leads to, a page read is the content of one of the codec's own
images for this page number, or past the end of the file, or a first page without encrypted part;
otherwise its body is zeros. Only reads with a defined result count: there is none if a buffer would
be left. -/
theorem read_verdict (p : Provider) (s : Session) (hs : s.Reachable p) (ctx : CodecCtx)
    (hc : s.codec = some ctx) (hhmac : ctx.flags.hmac = true) (e : Env) (pgno : Pgno)
    (X page : Bytes) (hX : X.length = ctx.pageSz) (r : CodecResult)
    (hr : sqlite3Codec p s.globals e ctx X pgno .read = some r) (hout : r.out = some page) :
    r.ctx.ReadVerdict p s.globals e pgno X page := by
  have w := hs.wf hc
  cases hready : ctx.ready p s.globals e with
  | none =>
    obtain ⟨herr, -, heq⟩ | ⟨c, heq, -⟩ := sqlite3Codec_of_not_ready hready X pgno .read
    · rw [heq, ← hX, memsetZero_whole] at hr
      cases hr
      cases hout
      exact .rejected (zeroTail_zeros _ _) (.inl herr)
    · cases heq.symm.trans hr
      cases hout
  | some c =>
    have hread := readied_of_ready hready
    obtain ⟨hw, hdr, hpg, -⟩ := hread.geometry w pgno
    have hh : c.flags.hmac = true := by
      obtain ⟨k, rfl⟩ := hread.frame
      exact hhmac
    have herr : c.error = .ok := by
      obtain ⟨k, rfl⟩ := hread.frame
      exact hread.error
    rw [sqlite3Codec_of_ready hready] at hr
    by_cases hfit : c.Fits pgno
    · obtain ⟨L, hL⟩ := hw.exists_layout hfit
      obtain ⟨page', c', heq, hlen, -, hcase⟩ :=
        hL.codecRead_outcome (g := s.globals) (e := e) hw hdr (hX.trans hpg.symm)
      have hoff : L.offset = (c.offset pgno).toNat := by
        rw [← hL.offset, Int.toNat_natCast]
      cases heq.symm.trans hr
      cases hout
      cases hcase with
      | headerOnly h => exact .plaintext h
      | decrypted h auth body =>
        have hframe : c.CallFrame { c with buffer := page }.markKeyUsed :=
          ⟨c, .refl c, c.useFrame_markKeyUsed (hlen.trans hw.buffer.symm)⟩
        have hL' := hL.of_sameFormat hframe.sameFormat
        exact .genuine L hL' (genuine_of_authentic hL' (hframe.wf hw) herr hdr hread.derived hh h
          (hX.trans hpg.symm) hlen auth body) body herr
      | shortRead h mismatch vacuum zero body =>
        exact .pastEnd vacuum (hoff ▸ zero) (hoff ▸ body)
      | rejected h reason body =>
        split_ifs with hhdr
        · exact .rejected (hoff ▸ body) (.inr hhdr)
        · exact .rejected (hoff ▸ body) (.inl ResultCode.noConfusion)
    · obtain ⟨page', hout', hz, hcase⟩ :=
        codecRead_of_not_fits hw hdr hh hfit (hX.trans hpg.symm) hr
      cases hout'.symm.trans hout
      obtain ⟨b, used, rc, heq, -⟩ := codecRead_frame hr
      have hoff : r.ctx.offset pgno = c.offset pgno := by rw [heq]; rfl
      rw [← hoff] at hz hcase
      obtain ⟨hv, hX0⟩ | hrec := hcase
      · exact .pastEnd hv hX0 hz
      · exact .rejected hz (.inl hrec)

/-- A page of zeros, read as page 2 of a keyed connection. -/
theorem read_verdict_zeros : ∃ (s : Session) (ctx : CodecCtx) (r : CodecResult) (page : Bytes),
    s.Reachable .toy ∧ s.codec = some ctx ∧ ctx.flags.hmac = true ∧
    sqlite3Codec .toy s.globals .allOk ctx (zeros 1024) 2 .read = some r ∧ r.out = some page ∧
    r.ctx.ReadVerdict .toy s.globals .allOk 2 (zeros 1024) page := by
  have hsome : ((sqlite3Codec .toy .initial .allOk
      { initial .toy .initial [0x6b] with pageSz := 1024, buffer := zeros 1024 }
      (zeros 1024) 2 .read).bind CodecResult.out).isSome = true := by decide +kernel
  obtain ⟨page, hpage⟩ := isSome_iff_exists.mp hsome
  obtain ⟨r, hr, hout⟩ := bind_eq_some_iff.mp hpage
  have hreach : Session.Reachable .toy ⟨.initial, some { initial .toy .initial [0x6b] with
      pageSz := 1024, buffer := zeros 1024 }, false⟩ :=
    ⟨.initial, false, [(.allOk, .attach [0x6b]), (.allOk, .pragma (.cipherPageSize 1024))], rfl⟩
  exact ⟨_, _, r, page, hreach, rfl, rfl, hr, hout, read_verdict .toy _ hreach _ rfl rfl .allOk 2
    (zeros 1024) page (length_zeros _) r hr hout⟩

end SqlCipher
