import SqlCipher.Codec.PageSpec

/-!
# What one call of the codec does

The outcomes of `sqlite3Codec`, one lemma for each mode. A call first makes the context ready:
no deferred error, keys derived, a header size that is not marked invalid. A ready context
encrypts a page into an image that `Stores` its content, or fails with an error recorded and
no result; it reads an image with one of the four results of `ReadOutcome`.
-/

namespace SqlCipher

open Buffer SealedPage List Option CodecCtx

variable (p : Provider) (g : Globals) (e : Env)

/-! ## Header and images -/

/-- The clear bytes in front of the encrypted part: the plaintext header of page 1, or the sixteen
bytes in its place. -/
def CodecCtx.clearHeader (ctx : CodecCtx) (pgno : Pgno) (pData stand : Bytes) : Bytes :=
  if pgno = 1 then
    if ctx.plaintextHeaderSz ≠ 0 then slice pData 0 (ctx.offset pgno).toNat else stand
  else []

def CodecCtx.HeaderOnly (ctx : CodecCtx) (pgno : Pgno) : Prop :=
  pgno = 1 ∧ (ctx.pageSz : Int) - ctx.offset pgno - ctx.reserveSz = 0

instance (ctx : CodecCtx) (pgno : Pgno) : Decidable (ctx.HeaderOnly pgno) :=
  inferInstanceAs (Decidable (_ ∧ _))

/-- The context stores `img` for the page `pgno` with content `P`, with `stand` in place of the
header of page 1. -/
structure CodecCtx.Stores (ctx : CodecCtx) (role : CipherRole) (pgno : Pgno) (stand P img : Bytes)
    (L : Layout) : Prop where
  layout : ctx.HasLayout p pgno L
  length : img.length = ctx.pageSz
  header : L.header img = ctx.clearHeader pgno P stand
  sealed : ¬ ctx.HeaderOnly pgno → Sealed L (ctx.pageKey p g role) (ctx.mac p g role)
    (pgnoRaw g ctx.flags pgno) (L.body P) img

inductive CodecCtx.SealOutcome (ctx : CodecCtx) (role : CipherRole) (pgno : Pgno)
    (P : Bytes) : CodecResult → Prop where
  | image (L : Layout) (img : Bytes) (stores : ctx.Stores p g role pgno ctx.kdfSalt.1 P img L)
      (fresh : ¬ ctx.HeaderOnly pgno → ∃ rnd, e.random = some rnd ∧ L.iv img = stream rnd p.ivSz) :
      SealOutcome ctx role pgno P ⟨some img, P, { ctx with buffer := img }.markKeyUsed⟩
  | failed (buffer : Bytes) (hlen : buffer.length = ctx.pageSz)
      (reason : e.random = none ∨ ctx.providerOk e = false) :
      SealOutcome ctx role pgno P ⟨none, P, { ctx with buffer := buffer }.setError .error⟩

/-- The outcomes of reading the image `X` by a ready context: always a whole page behind the clear
header. -/
inductive CodecCtx.ReadOutcome (ctx : CodecCtx) (pgno : Pgno) (X : Bytes) (L : Layout)
    (page : Bytes) : CodecCtx → Prop where
  | headerOnly (h : ctx.HeaderOnly pgno) :
      ReadOutcome ctx pgno X L page { ctx with buffer := page }.markKeyUsed
  | decrypted (h : ¬ ctx.HeaderOnly pgno)
      (auth : Authentic L (ctx.mac p g .read) (pgnoRaw g ctx.flags pgno) X)
      (body : L.body page = (ctx.pageKey p g .read).dec (L.iv X) (L.body X)) :
      ReadOutcome ctx pgno X L page { ctx with buffer := page }.markKeyUsed
  | shortRead (h : ¬ ctx.HeaderOnly pgno)
      (mismatch : ¬ Authentic L (ctx.mac p g .read) (pgnoRaw g ctx.flags pgno) X)
      (vacuum : e.autoVacuum = true) (zero : ZeroTail L.offset X) (body : ZeroTail L.offset page) :
      ReadOutcome ctx pgno X L page { ctx with buffer := page }.markKeyUsed
  | rejected (h : ¬ ctx.HeaderOnly pgno)
      (reason : ¬ Authentic L (ctx.mac p g .read) (pgnoRaw g ctx.flags pgno) X ∨
        ctx.providerOk e = false)
      (body : ZeroTail L.offset page) :
      ReadOutcome ctx pgno X L page
        (if ctx.plaintextHeaderSz = (ctx.pageSz : Int) - ctx.reserveSz then
          { ctx with buffer := page }
        else { ctx with buffer := page }.setError .error)

variable {p g e} {ctx c c' : CodecCtx} {role : CipherRole} {pgno : Pgno} {L : Layout}
  {P stand b X img : Bytes} {r : CodecResult} {mode : CodecOp}

section

variable (hL : ctx.HasLayout p pgno L)
include hL

theorem CodecCtx.HasLayout.offset_of_ne (h : pgno ≠ 1) :
    L.offset = 0 := by
  have hoff := hL.offset
  rw [CodecCtx.offset, if_neg h] at hoff
  omega

theorem CodecCtx.HasLayout.offset_of_hidden (h1 : pgno = 1)
    (h0 : ¬ ctx.plaintextHeaderSz ≠ 0) : L.offset = fileHeaderSz := by
  have hoff := hL.offset
  rw [CodecCtx.offset, if_pos h1, if_neg h0] at hoff
  omega

theorem CodecCtx.HasLayout.putHeader_spec (w : ctx.Wf p)
    (hP : P.length = ctx.pageSz) (hs : stand.length = fileHeaderSz) :
    ∃ b, ctx.putHeader pgno P stand = some b ∧ b.length = ctx.pageSz ∧
      L.header b = ctx.clearHeader pgno P stand := by
  have hle := hL.offset_le
  have hb := w.buffer
  have hoff := hL.offset
  unfold CodecCtx.putHeader CodecCtx.clearHeader
  split_ifs with h1 h2
  · have hlen : (slice P 0 L.offset).length = L.offset := length_slice (by omega)
    refine ⟨overwrite ctx.buffer 0 (slice P 0 L.offset), ?_, ?_, ?_⟩
    · rw [← hoff, readAt_zero_of_le (by omega)]
      exact writeAt_zero_of_le (by omega)
    · rw [length_overwrite (by omega), hb]
    have hself : slice (overwrite ctx.buffer 0 (slice P 0 L.offset)) 0
        (slice P 0 L.offset).length = slice P 0 L.offset := slice_overwrite_self (by omega)
    rw [hlen] at hself
    rw [← hoff, Int.toNat_natCast, Layout.header, hself]
  · have hoff16 : L.offset = stand.length := (hL.offset_of_hidden h1 h2).trans hs.symm
    refine ⟨overwrite ctx.buffer 0 stand, writeAt_zero_of_le (by omega), ?_, ?_⟩
    · rw [length_overwrite (by omega), hb]
    rw [Layout.header, hoff16]
    exact slice_overwrite_self (by omega)
  · exact ⟨_, rfl, hb, by rw [Layout.header, hL.offset_of_ne h1, slice_zero]⟩

theorem CodecCtx.HasLayout.length_zeroFrom
    (hb : b.length = ctx.pageSz) : (zeroFrom L.offset b).length = ctx.pageSz := by
  rw [SqlCipher.length_zeroFrom (hb ▸ hL.offset_le), hb]

theorem CodecCtx.HasLayout.memsetZero_eq (hb : b.length = ctx.pageSz) :
    memsetZero b (ctx.offset pgno) (ctx.pageSz - ctx.offset pgno) = some (zeroFrom L.offset b) := by
  rw [hL.rest_eq, ← hL.offset, ← hb, SqlCipher.memsetZero_eq (hb ▸ hL.offset_le)]

end

/-! ## Encryption -/

theorem slice_stream (f : Nat → UInt8) (h : n ≤ m) : slice (stream f m) 0 n = stream f n := by
  rw [slice, drop_zero, stream, stream, ← map_take, take_range, Nat.min_eq_left h]

theorem pageCipher_eq (ctx : CodecCtx) (role : CipherRole) (pgno : Pgno) (mode : CipherMode)
    (pData buffer : Bytes) :
    ctx.pageCipher p g e role pgno mode (ctx.offset pgno) pData buffer =
      if ctx.HeaderOnly pgno then some (.ok, buffer) else
      match mode with
      | .encrypt => ctx.pageEncrypt p g e role pgno (ctx.offset pgno) pData buffer
      | .decrypt => ctx.pageDecrypt p g e role pgno (ctx.offset pgno) pData buffer := by
  unfold pageCipher
  dsimp only
  by_cases h : ctx.HeaderOnly pgno
  · rw [if_pos h, if_pos ⟨h.1, h.2⟩]
  · rw [if_neg h, if_neg (fun h' : pgno = 1 ∧ _ => h h')]
    exact if_neg (Nat.ne_of_gt p.keySz_pos)

/-- A ready context with room for the header encrypts or fails, and nothing else. -/
theorem CodecCtx.HasLayout.codecSeal_outcome (hL : ctx.HasLayout p pgno L) (w : ctx.Wf p)
    (hdr : 0 ≤ ctx.plaintextHeaderSz) (hP : P.length = ctx.pageSz) (role : CipherRole) :
    ∃ r, ctx.codecSeal p g e role pgno P = some r ∧ ctx.SealOutcome p g e role pgno P r := by
  have hpg := hL.pageSz
  obtain ⟨b, hput, hb, hhead⟩ := hL.putHeader_spec w hP ctx.kdfSalt.2
  have hlz := hL.length_zeroFrom hb
  have hfail (reason : e.random = none ∨ ctx.providerOk e = false) :
      ctx.SealOutcome p g e role pgno P
        ⟨none, P, { ctx with buffer := zeroFrom L.offset (zeroFrom L.offset b) }.setError .error⟩ :=
    .failed _ (hL.length_zeroFrom hlz) reason
  unfold codecSeal
  simp only [hput, pageCipher_eq, bind_eq_bind, bind_some]
  by_cases hho : ctx.HeaderOnly pgno
  · rw [if_pos hho]
    exact ⟨_, rfl, .image L b ⟨hL, hb, hhead, (absurd hho ·)⟩ (absurd hho ·)⟩
  · rw [if_neg hho, hL.pageEncrypt_eq w hdr hP hb]
    cases hr : e.random with
    | none => exact ⟨_, by simp [hL.memsetZero_eq hlz], hfail (.inl hr)⟩
    | some rnd =>
      cases hok : ctx.providerOk e with
      | false => exact ⟨_, by simp [hL.memsetZero_eq hlz], hfail (.inr hok)⟩
      | true =>
        have hr' : L.ivPos + (stream rnd ctx.reserveSz).length = L.pageSz := by
          rw [length_stream, hL.ivPos, hpg]
        obtain ⟨hs, hiv, hh⟩ := L.sealInto_sealed (ctx.pageKey p g role) (ctx.mac p g role)
          (hb.trans hpg.symm) hr' (L.length_body (hP.trans hpg.symm))
          fun m l => (length_mac w role m l).trans hL.tagSz.symm
        have hres : L.ivSz ≤ ctx.reserveSz := by
          have := w.tagSz_le
          have := hL.ivSz
          omega
        have hfresh : L.iv (ctx.sealed p g L role pgno rnd P b) = stream rnd p.ivSz := by
          rw [sealed, hiv, slice_stream rnd hres, hL.ivSz]
        exact ⟨_, rfl, .image L _ ⟨hL, hs.length.trans hpg, hh.trans hhead, fun _ => hs⟩
          fun _ => ⟨rnd, hr, hfresh⟩⟩

/-! ## Reading -/

theorem zeroTail_zeroFrom (h : off ≤ page.length) : ZeroTail off (zeroFrom off page) := by
  have hl : (page.take off).length = off := by
    rw [length_take]
    omega
  rw [ZeroTail, length_zeroFrom h, zeroFrom, drop_append_of_le_length (by omega), ← hl]
  simp

theorem header_zeroFrom (L : Layout) (h : L.offset ≤ page.length) :
    L.header (zeroFrom L.offset page) = L.header page := by
  have hl : (page.take L.offset).length = L.offset := by
    rw [length_take]
    omega
  simp only [Layout.header, slice, drop_zero, zeroFrom]
  rw [take_append_of_le_length (by omega), take_take, Nat.min_self]

theorem readWhole {buf : Bytes} (h : buf.length = n) : readAt buf 0 n = some buf := by
  rw [readAt_zero_of_le (by omega), ← h, slice_all]

theorem writeWhole (h : a.length = b.length) : writeAt a 0 b = some b := by
  rw [writeAt_zero_of_le (by omega)]
  simp [overwrite, ← h]

theorem CodecCtx.codecReadDone_ok (pgno : Pgno) (hX : X.length = ctx.pageSz)
    (hb : b.length = ctx.pageSz) : ctx.codecReadDone pgno X .ok b =
      some ⟨some b, b, { ctx with buffer := b }.markKeyUsed⟩ := by
  simp [codecReadDone, readWhole hb, writeWhole (hX.trans hb.symm)]

theorem CodecCtx.HasLayout.codecReadDone_error (hL : ctx.HasLayout p pgno L)
    (hX : X.length = ctx.pageSz) (hb : b.length = ctx.pageSz) :
    ctx.codecReadDone pgno X .error (zeroFrom L.offset b) =
      some ⟨some (zeroFrom L.offset b), zeroFrom L.offset b,
        if ctx.plaintextHeaderSz = (ctx.pageSz : Int) - ctx.reserveSz then
          { ctx with buffer := zeroFrom L.offset b }
        else { ctx with buffer := zeroFrom L.offset b }.setError .error⟩ := by
  have hlz := hL.length_zeroFrom hb
  have hidem : zeroFrom L.offset (zeroFrom L.offset b) = zeroFrom L.offset b := by
    rw [zeroFrom, hlz, zeroFrom, hb, take_append_of_le_length, take_take, Nat.min_self]
    have := hL.offset_le
    rw [length_take]
    omega
  unfold codecReadDone
  rw [if_pos (by decide)]
  simp only [hL.memsetZero_eq hlz, hidem, readWhole hlz, writeWhole (hX.trans hlz.symm),
    bind_eq_bind, bind_some]
  split_ifs <;> rfl

/-- A ready context with room for the header reads every image, with one of four outcomes. -/
theorem CodecCtx.HasLayout.codecRead_outcome (hL : ctx.HasLayout p pgno L) (w : ctx.Wf p)
    (hdr : 0 ≤ ctx.plaintextHeaderSz) (hX : X.length = ctx.pageSz) :
    ∃ page c, ctx.codecRead p g e pgno X = some ⟨some page, page, c⟩ ∧
      page.length = ctx.pageSz ∧ L.header page = ctx.clearHeader pgno X sqliteFileHeader ∧
      ctx.ReadOutcome p g e pgno X L page c := by
  have hpg := hL.pageSz
  obtain ⟨b, hput, hb, hhead⟩ := hL.putHeader_spec w hX length_sqliteFileHeader
  have hle : L.offset ≤ b.length := hb ▸ hL.offset_le
  have hlz := hL.length_zeroFrom hb
  have hhz := (header_zeroFrom L hle).trans hhead
  have htz : ZeroTail L.offset (zeroFrom L.offset b) := zeroTail_zeroFrom hle
  unfold codecRead
  simp only [hput, pageCipher_eq, bind_eq_bind, bind_some]
  by_cases hho : ctx.HeaderOnly pgno
  · rw [if_pos hho]
    exact ⟨b, _, ctx.codecReadDone_ok pgno hX hb, hb, hhead, .headerOnly hho⟩
  rw [if_neg hho, hL.pageDecrypt_eq w hdr hX hb]
  split_ifs with hprov hauth hc hz
  · exact ⟨_, _, hL.codecReadDone_error hX hb, hlz, hhz,
      .rejected hho (.inr (by simp [providerOk, hprov])) htz⟩
  · obtain ⟨hlen, hh, hbody⟩ := L.openInto_spec (ctx.pageKey p g .read) (ctx.mac p g .read)
      (hX.trans hpg.symm) (hb.trans hpg.symm)
      fun m l => (length_mac w .read m l).trans hL.tagSz.symm
    exact ⟨_, _, ctx.codecReadDone_ok pgno hX (hlen.trans hpg), hlen.trans hpg, hh.trans hhead,
      .decrypted hho hauth hbody⟩
  · exact ⟨_, _, hL.codecReadDone_error hX hb, hlz, hhz,
      .rejected hho (.inr (by simp [providerOk, hc])) htz⟩
  · exact ⟨_, _, ctx.codecReadDone_ok pgno hX hlz, hlz, hhz, .shortRead hho hauth hz.1 hz.2 htz⟩
  · exact ⟨_, _, hL.codecReadDone_error hX hb, hlz, hhz, .rejected hho (.inl hauth) htz⟩

/-! ## Reading what was stored -/

/-- The settings that determine how page `pgno` is stored: the header size matters for page 1
only. -/
structure CodecCtx.SameFormat (c : CodecCtx) (pgno : Pgno) (c' : CodecCtx) : Prop where
  pageSz : c'.pageSz = c.pageSz
  reserveSz : c'.reserveSz = c.reserveSz
  hmacSz : c'.hmacSz = c.hmacSz
  header : pgno = 1 → c'.plaintextHeaderSz = c.plaintextHeaderSz
  algorithm : c'.hmacAlgorithm = c.hmacAlgorithm
  hmac : c'.flags.hmac = c.flags.hmac
  lePgno : c'.flags.lePgno = c.flags.lePgno
  bePgno : c'.flags.bePgno = c.flags.bePgno

theorem CodecCtx.SameFormat.refl (c : CodecCtx) : c.SameFormat pgno c :=
  ⟨rfl, rfl, rfl, fun _ => rfl, rfl, rfl, rfl, rfl⟩

/-- The cipher contexts of two roles hold the same keys, as far as pages depend on them. -/
structure CodecCtx.SameKeys (c : CodecCtx) (role : CipherRole) (c' : CodecCtx)
    (role' : CipherRole) : Prop where
  key : (c'.cipherCtx role').key = (c.cipherCtx role).key
  hmacKey : c.flags.hmac = true → (c'.cipherCtx role').hmacKey = (c.cipherCtx role).hmacKey

theorem CodecCtx.SameFormat.offset (h : c.SameFormat pgno c') : c'.offset pgno = c.offset pgno := by
  unfold CodecCtx.offset
  split
  · rw [h.header ‹_›]
  · rfl

theorem CodecCtx.SameFormat.headerOnly (h : c.SameFormat pgno c') :
    c'.HeaderOnly pgno ↔ c.HeaderOnly pgno := by
  rw [HeaderOnly, HeaderOnly, h.offset, h.pageSz, h.reserveSz]

theorem CodecCtx.SameFormat.clearHeader (h : c.SameFormat pgno c') (P stand : Bytes) :
    c'.clearHeader pgno P stand = c.clearHeader pgno P stand := by
  unfold CodecCtx.clearHeader
  rw [h.offset]
  split
  · rw [h.header ‹_›]
  · rfl

theorem CodecCtx.HasLayout.of_sameFormat (hL : c.HasLayout p pgno L) (h : c.SameFormat pgno c') :
    c'.HasLayout p pgno L where
  pageSz := by rw [h.pageSz, hL.pageSz]
  offset := by rw [h.offset, hL.offset]
  ivPos := by rw [h.pageSz, h.reserveSz, hL.ivPos]
  ivSz := hL.ivSz
  tagSz := by rw [CodecCtx.tagSz, h.hmac, h.hmacSz, hL.tagSz, CodecCtx.tagSz]

theorem CodecCtx.HasLayout.unique (h : ctx.HasLayout p pgno L) (h' : ctx.HasLayout p pgno L') :
    L' = L := by
  have hoff := h'.offset.trans h.offset.symm
  have hpos := h'.ivPos.trans h.ivPos.symm
  exact Layout.ext (h'.pageSz.trans h.pageSz.symm) (Int.ofNat_inj.mp hoff) (by omega)
    (h'.ivSz.trans h.ivSz.symm) (h'.tagSz.trans h.tagSz.symm)

theorem CodecCtx.SameFormat.symm (h : c.SameFormat pgno c') : c'.SameFormat pgno c :=
  ⟨h.pageSz.symm, h.reserveSz.symm, h.hmacSz.symm, fun h1 => (h.header h1).symm, h.algorithm.symm,
    h.hmac.symm, h.lePgno.symm, h.bePgno.symm⟩

theorem CodecCtx.SameFormat.trans {a b : CodecCtx} (h : a.SameFormat pgno b)
    (h' : b.SameFormat pgno c) : a.SameFormat pgno c :=
  ⟨h'.pageSz.trans h.pageSz, h'.reserveSz.trans h.reserveSz, h'.hmacSz.trans h.hmacSz,
    fun h1 => (h'.header h1).trans (h.header h1), h'.algorithm.trans h.algorithm,
    h'.hmac.trans h.hmac, h'.lePgno.trans h.lePgno, h'.bePgno.trans h.bePgno⟩

theorem CodecCtx.SameFormat.pgnoRaw_eq (h : c.SameFormat pgno c') :
    pgnoRaw g c'.flags pgno = pgnoRaw g c.flags pgno := by
  simp only [pgnoRaw, h.lePgno, h.bePgno]

theorem CodecCtx.SameKeys.mac_eq (hk : c.SameKeys role c' role') (hf : c.SameFormat pgno c') :
    c'.mac p g role' = c.mac p g role := by
  funext msg label
  simp only [mac, hf.hmac, hf.algorithm]
  split_ifs with hh
  · rw [hk.hmacKey hh]
  · rfl

/-- A stored image is one for every context with the same format and keys. -/
theorem CodecCtx.Stores.transport (h : c.Stores p g role pgno stand P img L)
    (hf : c.SameFormat pgno c') (hk : c.SameKeys role c' role') :
    c'.Stores p g role' pgno stand P img L := by
  have hkey : c'.pageKey p g role' = c.pageKey p g role := by
    simp only [pageKey, hk.key]
  refine ⟨h.layout.of_sameFormat hf, ?_, ?_, ?_⟩
  · rw [hf.pageSz, h.length]
  · rw [h.header, hf.clearHeader]
  · intro hne
    rw [hkey, hk.mac_eq hf, hf.pgnoRaw_eq]
    exact h.sealed (mt hf.headerOnly.mpr hne)

/-- Of the process-wide settings only the mask that shields keys and the byte order matter. -/
theorem CodecCtx.Stores.of_globals (h : ctx.Stores p g role pgno stand P img L)
    (hs : g'.shieldMask = g.shieldMask) (hb : g'.bigEndianHost = g.bigEndianHost) :
    ctx.Stores p g' role pgno stand P img L := by
  have hkey : ctx.pageKey p g' role = ctx.pageKey p g role := by simp only [pageKey, hs]
  have hmac : ctx.mac p g' role = ctx.mac p g role := by
    funext msg label
    simp only [mac, hs]
  have hraw : pgnoRaw g' ctx.flags pgno = pgnoRaw g ctx.flags pgno := by simp only [pgnoRaw, hb]
  refine ⟨h.layout, h.length, h.header, fun hne => ?_⟩
  rw [hkey, hmac, hraw]
  exact h.sealed hne

/-- Only a hidden header is replaced. -/
theorem CodecCtx.HasLayout.clearHeader_eq (hL : ctx.HasLayout p pgno L) (P stand : Bytes) :
    ctx.clearHeader pgno P stand =
      if pgno = 1 ∧ ctx.plaintextHeaderSz = 0 then stand else L.header P := by
  by_cases h1 : pgno = 1
  · by_cases h0 : ctx.plaintextHeaderSz = 0
    · simp [clearHeader, h1, h0]
    · rw [clearHeader, if_pos h1, if_pos h0, if_neg (mt And.right h0), ← hL.offset,
        Int.toNat_natCast,
        Layout.header]
  · rw [clearHeader, if_neg h1, if_neg (mt And.left h1), Layout.header, hL.offset_of_ne h1,
      slice_zero]

theorem CodecCtx.HasLayout.body_of_headerOnly (hL : ctx.HasLayout p pgno L)
    (h : ctx.HeaderOnly pgno) (page : Bytes) : L.body page = [] := by
  have hsz := hL.size_eq.symm.trans h.2
  rw [Layout.body, Int.natCast_eq_zero.mp hsz, slice_zero]

/-- A ready context reads back an image that it could have stored, unless the provider fails. -/
theorem CodecCtx.Stores.read_cases (h : ctx.Stores p g .read pgno stand P img L) (w : ctx.Wf p)
    (hdr : 0 ≤ ctx.plaintextHeaderSz) (hP : P.length = ctx.pageSz)
    (hmagic : pgno = 1 → ctx.plaintextHeaderSz = 0 → slice P 0 fileHeaderSz = sqliteFileHeader) :
    ∃ page c, ctx.codecRead p g e pgno img = some ⟨some page, page, c⟩ ∧
      page.length = ctx.pageSz ∧
      (c = { ctx with buffer := page }.markKeyUsed ∧ L.usable page = L.usable P ∨
        ctx.providerOk e = false ∧
          (ctx.plaintextHeaderSz = (ctx.pageSz : Int) - ctx.reserveSz ∨ c.error ≠ .ok)) := by
  have hL := h.layout
  obtain ⟨page, c, hread, hlen, hhead, hout⟩ :=
    hL.codecRead_outcome (g := g) (e := e) w hdr h.length
  have hheader : L.header page = L.header P := by
    have himg := h.header
    rw [hL.clearHeader_eq] at hhead himg
    split_ifs at hhead himg with hz
    · rw [hhead, Layout.header, hL.offset_of_hidden hz.1 (not_not.mpr hz.2), hmagic hz.1 hz.2]
    · rw [hhead, himg]
  have hbody (hne : ¬ ctx.HeaderOnly pgno) := h.sealed hne
  have husable (hb : L.body page = L.body P) : L.usable page = L.usable P := by
    rw [L.usable_eq, L.usable_eq, hheader, hb]
  refine ⟨page, c, hread, hlen, ?_⟩
  cases hout with
  | headerOnly ho =>
    exact .inl ⟨rfl, husable (by rw [hL.body_of_headerOnly ho, hL.body_of_headerOnly ho])⟩
  | decrypted hne auth body =>
    have hdvd : p.blockSz ∣ (L.body P).length := by
      rw [L.length_body (hP.trans hL.pageSz.symm)]
      exact hL.blockSz_dvd w hdr
    exact .inl ⟨rfl, husable (body.trans ((hbody hne).dec hdvd))⟩
  | shortRead hne mismatch => exact absurd (hbody hne).authentic mismatch
  | rejected hne reason =>
    refine .inr ⟨reason.resolve_left (not_not.mpr (hbody hne).authentic), ?_⟩
    split_ifs with hspecial
    · exact .inl hspecial
    · exact .inr ResultCode.noConfusion

/-! ## The entry point -/

def CodecCtx.ready (ctx : CodecCtx) (p : Provider) (g : Globals) (e : Env) : Option CodecCtx :=
  let r := ctx.codecKeyDerive p g e
  if ctx.error = .ok ∧ r.1 = .ok ∧ 0 ≤ r.2.plaintextHeaderSz then some r.2 else none

structure CodecCtx.Readied (ctx c : CodecCtx) : Prop where
  frame : ctx.KeyFrame c
  error : ctx.error = .ok
  header : 0 ≤ c.plaintextHeaderSz
  derived : c.KeysDerived

theorem readied_of_ready (h : ctx.ready p g e = some c) : ctx.Readied c := by
  simp only [ready, ite_none_right_eq_some, some.injEq] at h
  obtain ⟨⟨herr, hrc, hdr⟩, rfl⟩ := h
  exact ⟨codecKeyDerive_frame p g e ctx, herr, hdr, codecKeyDerive_derived hrc⟩

theorem codecKeyDerive_of_ready (h : ctx.ready p g e = some c) :
    ctx.codecKeyDerive p g e = (.ok, c) := by
  simp only [ready, ite_none_right_eq_some, some.injEq] at h
  obtain ⟨⟨-, hrc, -⟩, rfl⟩ := h
  exact Prod.ext hrc rfl

theorem sqlite3Codec_of_ready (h : ctx.ready p g e = some c) (pData : Bytes) (pgno : Pgno)
    (mode : CodecOp) :
    sqlite3Codec p g e ctx pData pgno mode = c.codecMode p g e pData pgno mode := by
  simp only [ready, ite_none_right_eq_some, some.injEq] at h
  obtain ⟨⟨herr, hrc, hdr⟩, rfl⟩ := h
  simp only [sqlite3Codec, herr, hrc, ne_eq, not_true_eq_false, if_false,
    if_neg (Int.not_lt.mpr hdr)]

/-- A call that does not get to its page operation returns nothing, or zeros for a read under a
deferred error, and leaves an error behind. -/
theorem sqlite3Codec_of_not_ready (h : ctx.ready p g e = none) (pData : Bytes) (pgno : Pgno)
    (mode : CodecOp) :
    (ctx.error ≠ .ok ∧ mode = .read ∧ sqlite3Codec p g e ctx pData pgno mode =
      (memsetZero pData 0 ctx.pageSz).map fun page => ⟨some page, page, ctx⟩) ∨
    ∃ c, sqlite3Codec p g e ctx pData pgno mode = some ⟨none, pData, c⟩ ∧ c.error ≠ .ok ∧
      (ctx.error ≠ .ok ∧ c = ctx ∨ c = (ctx.codecKeyDerive p g e).2.setError .error) := by
  have hrc (hne) : (ctx.codecKeyDerive p g e).1 = .error := (codecKeyDerive_rc ctx).resolve_left hne
  unfold sqlite3Codec
  dsimp only
  split_ifs with herr hmode hd hneg
  · left
    refine ⟨herr, hmode, ?_⟩
    cases memsetZero pData 0 ctx.pageSz <;> rfl
  · exact .inr ⟨ctx, rfl, herr, .inl ⟨herr, rfl⟩⟩
  · exact .inr ⟨(ctx.codecKeyDerive p g e).2.setError .error, by rw [hrc hd],
      ResultCode.noConfusion, .inr rfl⟩
  · exact .inr ⟨_, rfl, ResultCode.noConfusion, .inr rfl⟩
  · simp only [ready, ite_eq_right_iff, reduceCtorEq, imp_false] at h
    exact absurd ⟨not_not.mp herr, not_not.mp hd, Int.not_lt.mp hneg⟩ h

/-! ## What a call leaves alone -/

theorem CodecCtx.KeyFrame.wf (h : ctx.KeyFrame ctx') (w : ctx.Wf p) : ctx'.Wf p := by
  obtain ⟨k, rfl⟩ := h
  exact { w with }

/-- What a page operation may change: the buffer, the mark that the key was used, and the
error. -/
@[simps] def CodecCtx.withUse (ctx : CodecCtx) (buffer : Bytes) (used : Bool) (rc : ResultCode) :
    CodecCtx :=
  { ctx with buffer := buffer, error := rc, flags := { ctx.flags with keyUsed := used } }

/-- `ctx'` is `ctx` after a page operation: settings, geometry and keys are the same. -/
def CodecCtx.UseFrame (ctx ctx' : CodecCtx) : Prop :=
  ∃ buffer used rc, ctx' = ctx.withUse buffer used rc ∧ buffer.length = ctx.buffer.length ∧
    (ctx.flags.keyUsed = true → used = true)

theorem CodecCtx.useFrame_markKeyUsed (ctx : CodecCtx) {buffer : Bytes}
    (h : buffer.length = ctx.buffer.length) :
    ctx.UseFrame { ctx with buffer := buffer }.markKeyUsed :=
  ⟨buffer, true, ctx.error, rfl, h, fun _ => rfl⟩

theorem CodecCtx.useFrame_setError (ctx : CodecCtx) {buffer : Bytes}
    (h : buffer.length = ctx.buffer.length) (rc : ResultCode) :
    ctx.UseFrame ({ ctx with buffer := buffer }.setError rc) :=
  ⟨buffer, ctx.flags.keyUsed, rc, rfl, h, id⟩

theorem CodecCtx.UseFrame.refl (ctx : CodecCtx) : ctx.UseFrame ctx :=
  ctx.useFrame_setError rfl ctx.error

inductive CodecCtx.KeyStage (p : Provider) (g : Globals) (e : Env) (ctx : CodecCtx) (pgno : Pgno) :
    CodecCtx → Prop where
  | untouched : KeyStage p g e ctx pgno ctx
  | derived : KeyStage p g e ctx pgno (ctx.codecKeyDerive p g e).2
  | salted (h : (ctx.codecKeyDerive p g e).1 = .ok) :
      KeyStage p g e ctx pgno ((ctx.codecKeyDerive p g e).2.salted e pgno).2

/-- The context up to a new salt, which is all that `salted` changes. -/
theorem salted_frame (ctx : CodecCtx) (pgno : Pgno) : ctx.KeyFrame (ctx.salted e pgno).2 := by
  unfold salted
  split
  · exact initKdfSalt_frame e ctx
  · exact .refl ctx

theorem CodecCtx.KeyStage.frame (h : ctx.KeyStage p g e pgno c) : ctx.KeyFrame c := by
  cases h with
  | untouched => exact .refl ctx
  | derived => exact codecKeyDerive_frame p g e ctx
  | salted => exact (codecKeyDerive_frame p g e ctx).trans (salted_frame _ pgno)

/-- `ctx'` is `ctx` after a call: settings and geometry are the same. -/
def CodecCtx.CallFrame (ctx ctx' : CodecCtx) : Prop := ∃ c, ctx.KeyFrame c ∧ c.UseFrame ctx'

theorem CodecCtx.CallFrame.wf (h : ctx.CallFrame ctx') (w : ctx.Wf p) : ctx'.Wf p := by
  obtain ⟨c, ⟨k, rfl⟩, b, used, rc, rfl, hlen, -⟩ := h
  exact { w with buffer := hlen.trans w.buffer }

section

variable {pData buffer out : Bytes} {rc : ResultCode} {offset len : Int}

theorem length_of_memsetZero (h : memsetZero buffer offset len = some out) :
    out.length = buffer.length := by
  unfold memsetZero at h
  split_ifs at h
  exact length_of_writeAt h

theorem length_of_pageError (h : ctx.pageError offset buffer = some (rc, out)) :
    out.length = buffer.length := by
  simp only [pageError, bind_eq_bind, bind_eq_some_iff] at h
  obtain ⟨b, hb, h⟩ := h
  cases h
  exact length_of_memsetZero hb

theorem length_of_pageSign (h : ctx.pageSign p g e role pgno offset buffer = some (rc, out)) :
    out.length = buffer.length := by
  simp only [pageSign, bind_eq_bind] at h
  grind [length_of_writeAt, length_of_pageError, bind_eq_some_iff]

theorem length_of_pageEncrypt
    (h : ctx.pageEncrypt p g e role pgno offset pData buffer = some (rc, out)) :
    out.length = buffer.length := by
  unfold pageEncrypt at h
  split at h
  · exact length_of_pageError h
  · simp only [bind_eq_bind, bind_eq_some_iff] at h
    obtain ⟨b, hb, iv, -, msg, -, h⟩ := h
    refine Eq.trans ?_ (length_of_writeAt hb)
    split at h
    · exact length_of_pageError h
    · obtain ⟨b', hb', h⟩ := bind_eq_some_iff.mp h
      exact (length_of_pageSign h).trans (length_of_writeAt hb')

theorem length_of_pageMismatch (h : ctx.pageMismatch e offset pData buffer = some (rc, out)) :
    out.length = buffer.length := by
  simp only [pageMismatch, bind_eq_bind] at h
  grind [length_of_memsetZero, length_of_pageError, bind_eq_some_iff]

theorem length_of_pageDecryptBody
    (h : ctx.pageDecryptBody p g e role offset pData buffer = some (rc, out)) :
    out.length = buffer.length := by
  simp only [pageDecryptBody, bind_eq_bind] at h
  grind [length_of_writeAt, length_of_pageError, bind_eq_some_iff]

theorem length_of_pageDecrypt
    (h : ctx.pageDecrypt p g e role pgno offset pData buffer = some (rc, out)) :
    out.length = buffer.length := by
  simp only [pageDecrypt, bind_eq_bind, bind_eq_some_iff] at h
  obtain ⟨iv, -, b, hb, h⟩ := h
  refine Eq.trans ?_ (length_of_writeAt hb)
  split_ifs at h
  · obtain ⟨msg, -, h⟩ := bind_eq_some_iff.mp h
    split at h
    · exact length_of_pageError h
    · simp only [bind_eq_some_iff] at h
      obtain ⟨b', hb', stored, -, computed, -, h⟩ := h
      refine Eq.trans ?_ (length_of_writeAt hb')
      split_ifs at h
      · exact length_of_pageMismatch h
      · exact length_of_pageDecryptBody h
  · exact length_of_pageDecryptBody h

theorem length_of_pageCipher {mode : CipherMode}
    (h : ctx.pageCipher p g e role pgno mode offset pData buffer = some (rc, out)) :
    out.length = buffer.length := by
  unfold pageCipher at h
  dsimp only at h
  split_ifs at h
  · cases h
    rfl
  · exact length_of_pageError h
  · cases mode with
    | encrypt => exact length_of_pageEncrypt h
    | decrypt => exact length_of_pageDecrypt h

theorem length_of_putHeader (h : ctx.putHeader pgno pData stand = some out) :
    out.length = ctx.buffer.length := by
  unfold putHeader at h
  split_ifs at h
  · obtain ⟨header, -, hw⟩ := bind_eq_some_iff.mp h
    exact length_of_writeAt hw
  · exact length_of_writeAt h
  · cases h
    rfl

theorem codecSeal_frame (h : ctx.codecSeal p g e role pgno pData = some r) :
    ctx.UseFrame r.ctx := by
  simp only [codecSeal, bind_eq_bind, bind_eq_some_iff] at h
  obtain ⟨b, hb, ⟨rc, b'⟩, hc, h⟩ := h
  have hlen := (length_of_pageCipher hc).trans (length_of_putHeader hb)
  split_ifs at h
  · obtain ⟨b'', hz, h⟩ := bind_eq_some_iff.mp h
    cases h
    exact ctx.useFrame_setError ((length_of_memsetZero hz).trans hlen) rc
  · cases h
    exact ctx.useFrame_markKeyUsed hlen

theorem codecRead_frame (h : ctx.codecRead p g e pgno pData = some r) : ctx.UseFrame r.ctx := by
  simp only [codecRead, codecReadDone, bind_eq_bind, bind_eq_some_iff] at h
  obtain ⟨b, hb, ⟨rc, b'⟩, hc, h⟩ := h
  have hlen := (length_of_pageCipher hc).trans (length_of_putHeader hb)
  split_ifs at h
  · simp only [bind_eq_some_iff] at h
    obtain ⟨b'', hz, page, -, pd, -, h⟩ := h
    cases h
    exact ctx.useFrame_setError ((length_of_memsetZero hz).trans hlen) ctx.error
  · simp only [bind_eq_some_iff] at h
    obtain ⟨b'', hz, page, -, pd, -, h⟩ := h
    cases h
    exact ctx.useFrame_setError ((length_of_memsetZero hz).trans hlen) rc
  · simp only [bind_eq_some_iff] at h
    obtain ⟨page, -, pd, -, h⟩ := h
    cases h
    exact ctx.useFrame_markKeyUsed hlen

theorem codecEncrypt_frame (h : ctx.codecEncrypt p g e role pgno pData = some r) :
    (ctx.salted e pgno).2.UseFrame r.ctx := by
  unfold codecEncrypt at h
  dsimp only at h
  split_ifs at h
  · cases h
    exact useFrame_setError _ rfl _
  · exact codecSeal_frame h

/-- A page operation of a ready context, which for page 1 may load the salt first. -/
theorem codecMode_frame (h : ctx.codecMode p g e pData pgno mode = some r) :
    ctx.UseFrame r.ctx ∨ (ctx.salted e pgno).2.UseFrame r.ctx := by
  cases mode with
  | read => exact .inl (codecRead_frame h)
  | write => exact .inr (codecEncrypt_frame h)
  | journal => exact .inr (codecEncrypt_frame h)
  | unsupported m =>
    cases h
    exact .inl (useFrame_setError _ rfl .error)

/-- A call prepares the key state and runs one page operation. -/
theorem sqlite3Codec_stage (h : sqlite3Codec p g e ctx pData pgno mode = some r) :
    ∃ c, ctx.KeyStage p g e pgno c ∧ c.UseFrame r.ctx := by
  cases hready : ctx.ready p g e with
  | none =>
    obtain ⟨-, -, heq⟩ | ⟨c, heq, -, hc⟩ := sqlite3Codec_of_not_ready hready pData pgno mode
    · rw [heq, map_eq_some_iff] at h
      obtain ⟨page, -, rfl⟩ := h
      exact ⟨ctx, .untouched, .refl ctx⟩
    · cases heq.symm.trans h
      obtain ⟨-, rfl⟩ | rfl := hc
      · exact ⟨c, .untouched, .refl c⟩
      · exact ⟨_, .derived, useFrame_setError _ rfl _⟩
  | some c =>
    have hkeys := codecKeyDerive_of_ready hready
    obtain rfl : (ctx.codecKeyDerive p g e).2 = c := congrArg Prod.snd hkeys
    rw [sqlite3Codec_of_ready hready] at h
    obtain hu | hu := codecMode_frame h
    · exact ⟨_, .derived, hu⟩
    · exact ⟨_, .salted (congrArg Prod.fst hkeys), hu⟩

theorem sqlite3Codec_frame (h : sqlite3Codec p g e ctx pData pgno mode = some r) :
    ctx.CallFrame r.ctx := by
  obtain ⟨c, hstage, huse⟩ := sqlite3Codec_stage h
  exact ⟨c, hstage.frame, huse⟩

end

/-! ## Calls that reach the cipher -/

/-- The call on `ctx` runs `sqlcipher_page_cipher` on the context `c`: with keys and, to encrypt
page 1, a salt. -/
def CodecCtx.RunsCipher (p : Provider) (g : Globals) (e : Env) (ctx : CodecCtx) (pgno : Pgno)
    (mode : CodecOp) (c : CodecCtx) : Prop :=
  ∃ c₀, ctx.ready p g e = some c₀ ∧
    match mode with
    | .read => c₀ = c
    | .write | .journal => c₀.salted e pgno = (.ok, c)
    | .unsupported _ => False

theorem salted_eq (ctx : CodecCtx) (pgno : Pgno) : ∃ salt has,
    (ctx.salted e pgno).2 =
      { ctx with kdfSalt := salt, flags := { ctx.flags with hasKdfSalt := has } } := by
  unfold salted
  split
  · obtain ⟨salt, has, heq, -⟩ := initKdfSalt_eq e ctx
    exact ⟨salt, has, heq⟩
  · exact ⟨ctx.kdfSalt, ctx.flags.hasKdfSalt, rfl⟩

theorem CodecCtx.Readied.of_salted (h : ctx.Readied c) (hs : (c.salted e pgno).2 = c') :
    ctx.Readied c' := by
  have hframe := h.frame.trans (salted_frame (e := e) c pgno)
  obtain ⟨salt, has, heq⟩ := salted_eq (e := e) c pgno
  rw [hs] at hframe heq
  subst heq
  exact ⟨hframe, h.error, h.header, h.derived⟩

theorem CodecCtx.Readied.salted (h : ctx.Readied c) (e : Env) (pgno : Pgno) :
    ctx.Readied (c.salted e pgno).2 :=
  h.of_salted rfl

theorem CodecCtx.RunsCipher.readied (h : ctx.RunsCipher p g e pgno mode c) : ctx.Readied c := by
  obtain ⟨c₀, hready, hmode⟩ := h
  have hr := readied_of_ready hready
  cases mode with
  | read => exact hmode ▸ hr
  | write => exact hr.of_salted (congrArg Prod.snd hmode)
  | journal => exact hr.of_salted (congrArg Prod.snd hmode)
  | unsupported m => exact hmode.elim

/-! ## Calls that encrypt -/

/-- The cipher context whose key a mode encrypts under, if it encrypts. -/
def CodecOp.role? : CodecOp → Option CipherRole
  | .write => some .write
  | .journal => some .read
  | .read | .unsupported _ => none

/-- The call on `ctx` got to the context `c`, derived and salted, which stored the image under a
fresh IV. -/
structure CodecCtx.Encrypts (p : Provider) (g : Globals) (e : Env) (ctx : CodecCtx)
    (role : CipherRole) (pgno : Pgno) (P img : Bytes) (c : CodecCtx) (L : Layout) : Prop where
  ready : ∃ c₀, ctx.ready p g e = some c₀ ∧ c₀.salted e pgno = (.ok, c)
  stores : c.Stores p g role pgno c.kdfSalt.1 P img L
  fresh : ¬ c.HeaderOnly pgno → ∃ rnd, e.random = some rnd ∧ L.iv img = stream rnd p.ivSz

theorem CodecCtx.Encrypts.readied (h : ctx.Encrypts p g e role pgno P img c L) : ctx.Readied c := by
  obtain ⟨⟨c₀, hready, hsalted⟩, -, -⟩ := h
  exact (readied_of_ready hready).of_salted (congrArg Prod.snd hsalted)

theorem CodecCtx.KeyFrame.sameFormat (h : ctx.KeyFrame c) : ctx.SameFormat pgno c := by
  obtain ⟨k, rfl⟩ := h
  exact ⟨rfl, rfl, rfl, fun _ => rfl, rfl, rfl, rfl, rfl⟩

/-- With the keys derived beforehand, the image is one of the context the call started in. -/
theorem CodecCtx.Encrypts.stores_of_derived (h : ctx.Encrypts p g e role pgno P img c L)
    (hder : ctx.KeysDerived) : ctx.Stores p g role pgno c.kdfSalt.1 P img L := by
  have hframe := h.readied.frame
  obtain ⟨⟨c₀, hready, hsalted⟩, hstores, -⟩ := h
  have hc₀ := (codecKeyDerive_of_derived hder).symm.trans (codecKeyDerive_of_ready hready)
  obtain ⟨salt, has, heq⟩ := salted_eq (e := e) c₀ pgno
  have hkeys (role : CipherRole) : c.cipherCtx role = ctx.dropPass.cipherCtx role := by
    rw [show ctx.dropPass = c₀ from congrArg Prod.snd hc₀, show c = _ from
      (congrArg Prod.snd hsalted).symm.trans heq]
    cases role <;> rfl
  obtain ⟨hk, hh⟩ := dropPass_cipherCtx ctx role
  exact hstores.transport hframe.sameFormat.symm ⟨by rw [hkeys, hk], fun _ => by rw [hkeys, hh]⟩

/-- Without room for the reserve the encrypted part has a negative length, and only its random bytes
are drawn. -/
theorem pageEncrypt_of_neg {offset : Int} {pData buffer : Bytes}
    (h : (ctx.pageSz : Int) - offset - ctx.reserveSz < 0) :
    ctx.pageEncrypt p g e role pgno offset pData buffer =
      if e.random.isSome then none else ctx.pageError offset buffer := by
  unfold pageEncrypt
  cases e.random with
  | none => rfl
  | some rnd =>
    simp only [readAt_of_neg pData _ h, bind_eq_bind, bind_none, isSome_some, if_true]
    cases writeAt buffer (offset + (ctx.pageSz - offset - ctx.reserveSz))
      (stream rnd ctx.reserveSz) with
    | none => rfl
    | some b => exact bind_fun_none _

theorem offset_nonneg (hdr : 0 ≤ ctx.plaintextHeaderSz) (pgno : Pgno) : 0 ≤ ctx.offset pgno := by
  unfold offset
  split_ifs <;> omega

/-- No buffer is returned where the header leaves no room for the reserve. -/
theorem codecSeal_of_not_fits (hdr : 0 ≤ ctx.plaintextHeaderSz) (hfit : ¬ ctx.Fits pgno)
    (h : ctx.codecSeal p g e role pgno P = some r) :
    e.random = none ∧ r.pData = P ∧ r.out = none ∧ r.ctx.error ≠ .ok := by
  have hneg : (ctx.pageSz : Int) - ctx.offset pgno - ctx.reserveSz < 0 := by
    by_contra hsz
    exact hfit ⟨offset_nonneg hdr pgno, by omega⟩
  have hho : ¬ ctx.HeaderOnly pgno := fun hho => by
    have := hho.2
    omega
  simp only [codecSeal, pageCipher_eq, if_neg hho, pageEncrypt_of_neg hneg,
    pageError, bind_eq_bind, bind_eq_some_iff] at h
  obtain ⟨b, -, ⟨rc, b'⟩, hc, h⟩ := h
  split_ifs at hc with hr
  obtain ⟨b₁, -, heq⟩ := bind_eq_some_iff.mp hc
  cases heq
  obtain ⟨b₂, -, heq⟩ := bind_eq_some_iff.mp h
  cases heq
  exact ⟨not_isSome_iff_eq_none.mp hr, rfl, rfl, ResultCode.noConfusion⟩

theorem sqlite3Codec_of_ready_encrypt (hready : ctx.ready p g e = some c)
    (hrole : mode.role? = some role) (P : Bytes) :
    sqlite3Codec p g e ctx P pgno mode = c.codecEncrypt p g e role pgno P := by
  rw [sqlite3Codec_of_ready hready]
  cases mode <;> cases hrole <;> rfl

theorem CodecCtx.Readied.geometry (h : ctx.Readied c) (w : ctx.Wf p) (pgno : Pgno) :
    c.Wf p ∧ 0 ≤ c.plaintextHeaderSz ∧ c.pageSz = ctx.pageSz ∧ (c.Fits pgno ↔ ctx.Fits pgno) := by
  obtain ⟨⟨k, rfl⟩, -, hdr, -⟩ := h
  exact ⟨{ w with }, hdr, rfl, Iff.rfl⟩

theorem exists_codecSeal (w : ctx.Wf p) (hP : P.length = ctx.pageSz) (hfit : ctx.Fits pgno)
    (hready : ctx.ready p g e = some c) (role : CipherRole) :
    ∃ r, (c.salted e pgno).2.codecSeal p g e role pgno P = some r ∧
      (c.salted e pgno).2.SealOutcome p g e role pgno P r := by
  obtain ⟨hw, hhdr, hpg, hiff⟩ := ((readied_of_ready hready).salted e pgno).geometry w pgno
  obtain ⟨L, hL⟩ := hw.exists_layout (hiff.mpr hfit)
  exact hL.codecSeal_outcome hw hhdr (hP.trans hpg.symm) role

/-- A call that encrypts leaves the page alone. It returns an image, or nothing and an error. -/
theorem sqlite3Codec_encrypt (w : ctx.Wf p) (hrole : mode.role? = some role)
    (hP : P.length = ctx.pageSz) (h : sqlite3Codec p g e ctx P pgno mode = some r) :
    r.pData = P ∧ (r.out = none ∧ r.ctx.error ≠ .ok ∨
      ∃ img c L, r = ⟨some img, P, { c with buffer := img }.markKeyUsed⟩ ∧
        ctx.Encrypts p g e role pgno P img c L) := by
  cases hready : ctx.ready p g e with
  | none =>
    obtain ⟨-, rfl, -⟩ | ⟨c, heq, hc, -⟩ := sqlite3Codec_of_not_ready hready P pgno mode
    · cases hrole
    · cases heq.symm.trans h
      exact ⟨rfl, .inl ⟨rfl, hc⟩⟩
  | some c =>
    rw [sqlite3Codec_of_ready_encrypt hready hrole, codecEncrypt] at h
    split_ifs at h with hsalt
    · cases h
      exact ⟨rfl, .inl ⟨rfl, hsalt⟩⟩
    by_cases hfit : ctx.Fits pgno
    · obtain ⟨r', heq, hout⟩ := exists_codecSeal w hP hfit hready role
      cases heq.symm.trans h
      cases hout with
      | failed b hlen reason => exact ⟨rfl, .inl ⟨rfl, ResultCode.noConfusion⟩⟩
      | image L img stores fresh =>
        exact ⟨rfl, .inr ⟨img, _, L, rfl, ⟨c, hready, Prod.ext (not_not.mp hsalt) rfl⟩, stores,
          fresh⟩⟩
    · obtain ⟨-, hdr, -, hiff⟩ := ((readied_of_ready hready).salted e pgno).geometry w pgno
      obtain ⟨-, hp, hout, herr⟩ := codecSeal_of_not_fits hdr (mt hiff.mp hfit) h
      exact ⟨hp, .inl ⟨hout, herr⟩⟩

theorem salted_of_derivesKeys (he : e.DerivesKeys) (c : CodecCtx) (pgno : Pgno) :
    (c.salted e pgno).1 = .ok := by
  unfold CodecCtx.salted
  split
  · exact initKdfSalt_of_derivesKeys he _
  · rfl

theorem exists_encrypts (w : ctx.Wf p) (hrole : mode.role? = some role)
    (hP : P.length = ctx.pageSz) (hfit : ctx.Fits pgno) (hready : ctx.ready p g e = some c)
    (hsalt : (c.salted e pgno).1 = .ok) (hrnd : e.random = some rnd)
    (hok : ctx.providerOk e = true) :
    ∃ img c L, sqlite3Codec p g e ctx P pgno mode =
        some ⟨some img, P, { c with buffer := img }.markKeyUsed⟩ ∧
      ctx.Encrypts p g e role pgno P img c L := by
  have hok' : (c.salted e pgno).2.providerOk e = true := by
    obtain ⟨k, hk⟩ := ((readied_of_ready hready).salted e pgno).frame
    rw [hk]
    exact hok
  obtain ⟨r, heq, hout⟩ := exists_codecSeal w hP hfit hready role
  cases hout with
  | image L img stores fresh =>
    refine ⟨img, _, L, ?_, ⟨c, hready, Prod.ext hsalt rfl⟩, stores, fresh⟩
    rw [sqlite3Codec_of_ready_encrypt hready hrole, codecEncrypt, if_neg (not_not.mpr hsalt), heq]
  | failed b hlen reason =>
    obtain hbad | hbad := reason
    · cases hbad.symm.trans hrnd
    · cases hbad.symm.trans hok'

/-- With room for the reserve, or with no key to encrypt under, every call that encrypts
returns. -/
theorem exists_sqlite3Codec_encrypt (w : ctx.Wf p) (hrole : mode.role? = some role)
    (hP : P.length = ctx.pageSz) (hfit : ∀ c, ctx.ready p g e = some c → ctx.Fits pgno) :
    ∃ r, sqlite3Codec p g e ctx P pgno mode = some r := by
  cases hready : ctx.ready p g e with
  | none =>
    obtain ⟨-, rfl, -⟩ | ⟨c, heq, -⟩ := sqlite3Codec_of_not_ready hready P pgno mode
    · cases hrole
    · exact ⟨_, heq⟩
  | some c =>
    obtain ⟨r, heq, -⟩ := exists_codecSeal w hP (hfit c hready) hready role
    rw [sqlite3Codec_of_ready_encrypt hready hrole, codecEncrypt, heq]
    split_ifs <;> exact ⟨_, rfl⟩

/-! ## Calls that read -/

def CodecCtx.usable (ctx : CodecCtx) (page : Bytes) : Bytes :=
  slice page 0 (ctx.pageSz - ctx.reserveSz)

theorem CodecCtx.SameFormat.usable_eq (h : ctx.SameFormat pgno c) (page : Bytes) :
    c.usable page = ctx.usable page := by
  rw [CodecCtx.usable, h.pageSz, h.reserveSz, CodecCtx.usable]

theorem CodecCtx.HasLayout.usable_eq (hL : ctx.HasLayout p pgno L) (page : Bytes) :
    L.usable page = ctx.usable page := by
  have hpos : L.ivPos = ctx.pageSz - ctx.reserveSz := by
    have := hL.ivPos
    omega
  rw [Layout.usable, hpos, CodecCtx.usable]

theorem ready_of_derived (herr : ctx.error = .ok) (hdr : 0 ≤ ctx.plaintextHeaderSz)
    (hder : ctx.KeysDerived) : ctx.ready p g e = some ctx.dropPass := by
  have hd : 0 ≤ ctx.dropPass.plaintextHeaderSz := by
    obtain ⟨k, hk⟩ := dropPass_frame ctx
    rw [hk]
    exact hdr
  rw [ready, codecKeyDerive_of_derived hder]
  exact if_pos ⟨herr, rfl, hd⟩

theorem CodecCtx.UseFrame.sameFormat (h : ctx.UseFrame c) : ctx.SameFormat pgno c := by
  obtain ⟨b, used, rc, rfl, -⟩ := h
  exact ⟨rfl, rfl, rfl, fun _ => rfl, rfl, rfl, rfl, rfl⟩

theorem CodecCtx.sameFormat_markKeyUsed (c : CodecCtx) (buffer : Bytes) :
    c.SameFormat pgno { c with buffer := buffer }.markKeyUsed :=
  ⟨rfl, rfl, rfl, fun _ => rfl, rfl, rfl, rfl, rfl⟩

/-- An image that the codec produced is stored under the context the call leaves behind. -/
theorem stores_of_encrypt (w : ctx.Wf p) (hP : P.length = ctx.pageSz)
    (hrole : mode.role? = some role) (hr : sqlite3Codec p g e ctx P pgno mode = some r)
    (hout : r.out = some img) : ∃ stand L, r.ctx.Stores p g role pgno stand P img L ∧
      (¬ r.ctx.HeaderOnly pgno → ∃ rnd, e.random = some rnd ∧ L.iv img = stream rnd p.ivSz) := by
  obtain ⟨-, ⟨hnone, -⟩ | ⟨img', c, L, rfl, henc⟩⟩ := sqlite3Codec_encrypt w hrole hP hr
  · cases hnone.symm.trans hout
  · cases hout
    refine ⟨_, L, henc.stores.transport (c.sameFormat_markKeyUsed img) ?_, henc.fresh⟩
    cases role <;> exact ⟨rfl, fun _ => rfl⟩

theorem CodecCtx.CallFrame.sameFormat (h : ctx.CallFrame c) : ctx.SameFormat pgno c := by
  obtain ⟨c', hkey, huse⟩ := h
  exact hkey.sameFormat.trans huse.sameFormat

/-- A context without error that has its keys reads an image it could have stored. -/
theorem CodecCtx.Stores.sqlite3Codec_read (h : ctx.Stores p g .read pgno stand P img L)
    (w : ctx.Wf p) (herr : ctx.error = .ok) (hdr : 0 ≤ ctx.plaintextHeaderSz)
    (hder : ctx.KeysDerived) (hP : P.length = ctx.pageSz)
    (hmagic : pgno = 1 → ctx.plaintextHeaderSz = 0 → slice P 0 fileHeaderSz = sqliteFileHeader)
    (hok : ctx.providerOk e = true) :
    ∃ page c, sqlite3Codec p g e ctx img pgno .read = some ⟨some page, page, c⟩ ∧
      c.error = .ok ∧ page.length = ctx.pageSz ∧ L.usable page = L.usable P := by
  have hframe := dropPass_frame ctx
  have hkeys := dropPass_cipherCtx ctx .read
  have hs : ctx.dropPass.Stores p g .read pgno stand P img L :=
    h.transport hframe.sameFormat ⟨hkeys.1, fun _ => hkeys.2⟩
  have hw := hframe.wf w
  rw [sqlite3Codec_of_ready (ready_of_derived herr hdr hder)]
  obtain ⟨k, hk⟩ := hframe
  rw [hk] at hs hw ⊢
  obtain ⟨page, c, hread, hlen, ⟨rfl, huse⟩ | ⟨hbad, -⟩⟩ := hs.read_cases (e := e) hw hdr hP hmagic
  · exact ⟨page, _, hread, herr, hlen, huse⟩
  · cases hbad.symm.trans hok

end SqlCipher
