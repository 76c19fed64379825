import SqlCipher.Codec.SessionSpec

/-!
# Reading what was written

A page that the codec encrypts for the file or for the journal is read back with the same
content. This needs the header of page 1 to leave room for the reserve of a page. Nothing
compares the two once the header size is stored: a smaller page or a larger reserve set later
makes the length of the encrypted part negative, and then there is no image to read back.
-/

namespace SqlCipher

open Buffer SealedPage CodecCtx

/-- What the context encrypts for page `pgno`, for the file or the journal, it reads back up to the
reserve, without touching the content. There is an image if the provider works, the keys are there
or can be derived, and the header size is valid. -/
def CodecCtx.RoundTrips (p : Provider) (g : Globals) (ctx : CodecCtx) (pgno : Pgno) : Prop :=
  ∀ (e e' : Env) (mode : CodecOp) (role : CipherRole) (P : Bytes),
    mode.role? = some role → P.length = ctx.pageSz →
    (pgno = 1 → ctx.plaintextHeaderSz = 0 → slice P 0 fileHeaderSz = sqliteFileHeader) →
    ctx.providerOk e' = true →
    ∃ r, sqlite3Codec p g e ctx P pgno mode = some r ∧ r.pData = P ∧
      (ctx.error = .ok → 0 ≤ ctx.plaintextHeaderSz → ctx.HasKeyMaterial → e.DerivesKeys →
        e.random.isSome = true → ctx.providerOk e = true → r.out.isSome = true) ∧
      ∀ img, r.out = some img → r.ctx.SameKeys role r.ctx .read →
        ∃ page c, sqlite3Codec p g e' r.ctx img pgno .read = some ⟨some page, page, c⟩ ∧
          c.error = .ok ∧
          slice page 0 (ctx.pageSz - ctx.reserveSz) = slice P 0 (ctx.pageSz - ctx.reserveSz)

variable {p : Provider} {g : Globals} {e : Env} {ctx c : CodecCtx} {role : CipherRole}
  {pgno : Pgno} {P img : Bytes} {L : Layout}

/-- An image is read back by the context that the call leaves behind. -/
theorem CodecCtx.Encrypts.readBack (h : ctx.Encrypts p g e role pgno P img c L) (w : ctx.Wf p)
    (hP : P.length = ctx.pageSz)
    (hmagic : pgno = 1 → ctx.plaintextHeaderSz = 0 → slice P 0 fileHeaderSz = sqliteFileHeader)
    (hok : ctx.providerOk e' = true) (hkeys : c.SameKeys role c .read) :
    ∃ page c', sqlite3Codec p g e' { c with buffer := img }.markKeyUsed img pgno .read =
        some ⟨some page, page, c'⟩ ∧ c'.error = .ok ∧
      slice page 0 (ctx.pageSz - ctx.reserveSz) = slice P 0 (ctx.pageSz - ctx.reserveSz) := by
  obtain ⟨hframe, herr, hdr, hder⟩ := h.readied
  have hs : ({ c with buffer := img }.markKeyUsed).Stores p g .read pgno c.kdfSalt.1 P img L :=
    h.stores.transport (c.sameFormat_markKeyUsed img) ⟨hkeys.key, hkeys.hmacKey⟩
  have hw : ({ c with buffer := img }.markKeyUsed).Wf p :=
    CallFrame.wf ⟨c, .refl c,
      c.useFrame_markKeyUsed (h.stores.length.trans (hframe.wf w).buffer.symm)⟩ (hframe.wf w)
  obtain ⟨k, rfl⟩ := hframe
  obtain ⟨page, c', hread, herr', -, huse⟩ :=
    hs.sqlite3Codec_read (e := e') hw herr hdr hder hP hmagic hok
  rw [hs.layout.usable_eq, hs.layout.usable_eq] at huse
  exact ⟨page, c', hread, herr', huse⟩

theorem CodecCtx.ready_of_derivesKeys (he : e.DerivesKeys) (herr : ctx.error = .ok)
    (hdr : 0 ≤ ctx.plaintextHeaderSz) (hkey : ctx.HasKeyMaterial) :
    ctx.ready p g e = some (ctx.codecKeyDerive p g e).2 := by
  refine if_pos ⟨herr, codecKeyDerive_of_derivesKeys he hkey, ?_⟩
  obtain ⟨k, hk⟩ := codecKeyDerive_frame p g e ctx
  rw [hk]
  exact hdr

/-- Room for the reserve, where the codec gets to encrypt at all, is enough. -/
theorem CodecCtx.Wf.roundTrips (w : ctx.Wf p)
    (hfit : ∀ e c, ctx.ready p g e = some c → ctx.Fits pgno) : ctx.RoundTrips p g pgno := by
  intro e e' mode role P hrole hP hmagic hok
  obtain ⟨r, hr⟩ := exists_sqlite3Codec_encrypt w hrole hP (hfit e)
  obtain ⟨hp, hout⟩ := sqlite3Codec_encrypt w hrole hP hr
  refine ⟨r, hr, hp, fun herr hdr hkey he hrnd hok' => ?_, ?_⟩
  · have hready := ready_of_derivesKeys (p := p) (g := g) he herr hdr hkey
    obtain ⟨rnd, hrnd⟩ := Option.isSome_iff_exists.mp hrnd
    obtain ⟨img, c, L, heq, -⟩ := exists_encrypts w hrole hP (hfit e _ hready) hready
      (salted_of_derivesKeys he _ pgno) hrnd hok'
    cases hr.symm.trans heq
    rfl
  obtain ⟨hnone, -⟩ | ⟨img, c, L, rfl, henc⟩ := hout
  · intro img himg
    cases hnone.symm.trans himg
  · intro img' himg hkeys
    cases himg
    exact henc.readBack w hP hmagic hok ⟨hkeys.key, hkeys.hmacKey⟩

/-- Room for the reserve is necessary once the keys can be derived. -/
theorem CodecCtx.RoundTrips.fits (h : ctx.RoundTrips p g pgno) (w : ctx.Wf p)
    (herr : ctx.error = .ok) (hdr : 0 < ctx.plaintextHeaderSz) (hkey : ctx.HasKeyMaterial) :
    ctx.Fits pgno := by
  by_contra hfit
  have hready := ready_of_derivesKeys (p := p) (g := g) Env.allOk_derivesKeys herr hdr.le hkey
  obtain ⟨hw, hhdr, hpg, hiff⟩ := ((readied_of_ready hready).salted .allOk pgno).geometry w pgno
  obtain ⟨r, hr, -⟩ := h .allOk .allOk .write .write (zeros ctx.pageSz) rfl (length_zeros _)
    (fun _ h0 => absurd h0 hdr.ne') (by simp [providerOk, Env.allOk])
  rw [sqlite3Codec_of_ready_encrypt hready rfl, codecEncrypt] at hr
  split_ifs at hr with hsalt
  · exact hsalt (salted_of_derivesKeys Env.allOk_derivesKeys _ pgno)
  · have := (codecSeal_of_not_fits hhdr (mt hiff.mp hfit) hr).1
    cases this

/-- In every context that settings can lead to, a page is read back as written unless it is page 1
with a header that leaves no room for the reserve. -/
theorem roundTrips_iff (p : Provider) (s : Session) (hs : s.Reachable p) (ctx : CodecCtx)
    (hc : s.codec = some ctx) (herr : ctx.error = .ok) (pgno : Pgno) :
    ctx.RoundTrips p s.globals pgno ↔
      pgno ≠ 1 ∨ ctx.plaintextHeaderSz ≤ (ctx.pageSz : Int) - ctx.reserveSz ∨
        ¬ ctx.HasKeyMaterial := by
  have w := hs.wf hc
  constructor
  · intro h
    by_contra! hcon
    obtain ⟨h1, hgt, hkey⟩ := hcon
    have := w.reserveSz_le
    have := w.pageSz_ge
    have hfit := (h.fits w herr (by omega) hkey).2
    rw [offset, if_pos h1, if_pos (by omega)] at hfit
    omega
  · intro h
    refine w.roundTrips fun e c hready => ?_
    obtain ⟨hframe, -, hdr, -⟩ := readied_of_ready hready
    have hdr' : 0 ≤ ctx.plaintextHeaderSz := by
      obtain ⟨k, rfl⟩ := hframe
      exact hdr
    have hrc : (ctx.codecKeyDerive p s.globals e).1 = .ok :=
      congrArg Prod.fst (codecKeyDerive_of_ready hready)
    obtain h | h | h := h
    · exact w.fits (.inl h)
    · exact w.fits (.inr ⟨hdr', h⟩)
    · exact absurd (hasKeyMaterial_of_codecKeyDerive_ok hrc) h

/-- Page 2 of a freshly keyed connection. -/
theorem roundTrips_initial : ∃ ctx : CodecCtx,
    (Session.attach .toy (Session.start .initial false) [0x6b]).2.codec = some ctx ∧
      ctx.RoundTrips .toy .initial 2 :=
  ⟨.initial .toy .initial [0x6b], rfl,
    (roundTrips_iff .toy ⟨.initial, some (.initial .toy .initial [0x6b]), false⟩
      ⟨.initial, false, [(.allOk, .attach [0x6b])], rfl⟩ _ rfl rfl 2).mpr (.inl (by decide))⟩

/-- A plaintext header of 4016 bytes, accepted for pages of 4096 bytes, stays with pages of 1024.
The call that writes page 1 then copies past the end of the page. -/
theorem not_roundTrips_shrunk : ∃ (s : Session) (ctx : CodecCtx),
    Run.exec (Session.step .toy) (Session.start .initial false)
      [(.allOk, .attach [0x6b]), (.allOk, .pragma (.cipherPlaintextHeaderSize 4016)),
        (.allOk, .pragma (.cipherPageSize 1024))] = some s ∧
    s.codec = some ctx ∧ ctx.error = .ok ∧ ctx.plaintextHeaderSz = 4016 ∧ ctx.pageSz = 1024 ∧
    sqlite3Codec .toy s.globals .allOk ctx (zeros 1024) 1 .write = none ∧
    ¬ ctx.RoundTrips .toy s.globals 1 := by
  have hnone : sqlite3Codec .toy .initial .allOk
      { initial .toy .initial [0x6b] with
        plaintextHeaderSz := 4016, pageSz := 1024, buffer := zeros 1024 } (zeros 1024) 1 .write =
        none := by decide +kernel
  refine ⟨_, _, rfl, rfl, rfl, rfl, rfl, hnone, fun h => ?_⟩
  obtain ⟨r, hr, -⟩ := h .allOk .allOk .write .write (zeros 1024) rfl (length_zeros _)
    (fun _ h0 => absurd h0 (by decide)) rfl
  cases hnone.symm.trans hr

end SqlCipher
