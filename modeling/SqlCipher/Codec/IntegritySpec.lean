import SqlCipher.Codec.FailClosed
import SqlCipher.Codec.UsedKey

/-!
# The integrity check against the codec

The integrity check computes the parts of a page on its own, and finds the same ones as the codec
(`checkPage_eq`). So a page that the codec wrote is not reported, and a page that is not reported is
decrypted by the codec.

Two pages are special: that of the lock bytes is skipped, and a first page without encrypted part
carries no tag, and is reported although the codec wrote it.
-/

namespace SqlCipher

open Buffer SealedPage List Option CodecCtx Session

variable {p : Provider} {g : Globals} {e : Env} {ctx c : CodecCtx} {f : CheckEnv} {page : Nat}
  {L : Layout}

/-! ## One page -/

def CheckEnv.image (f : CheckEnv) (pageSz page : Nat) : Bytes :=
  slice f.content ((page - 1) * pageSz) pageSz

def CodecCtx.Verifies (p : Provider) (g : Globals) (ctx : CodecCtx) (pgno : Pgno) (img : Bytes) :
    Prop :=
  ctx.storedTag p img = ctx.mac p g .read (ctx.signed p pgno img) (pgnoRaw g ctx.flags pgno)

def CheckEnv.HasPage (f : CheckEnv) (pageSz page : Nat) : Prop :=
  1 ≤ page ∧ page * pageSz ≤ f.content.length

/-- The check reports nothing about a page: it skips it, or can read it and finds the right tag. -/
def CodecCtx.Passes (p : Provider) (g : Globals) (ctx : CodecCtx) (f : CheckEnv) (page : Nat) :
    Prop :=
  page = lckPgno g f.pageSize ∨ f.readOk page = true ∧ f.hmacOk page = true ∧
    ctx.Verifies p g (UInt32.ofNat page) (f.image ctx.pageSz page)

theorem CheckEnv.HasPage.page_end {pageSz : Nat} (h : f.HasPage pageSz page) :
    (page - 1) * pageSz + pageSz ≤ f.content.length := by
  obtain ⟨h1, hle⟩ := h
  rwa [← Nat.succ_mul, Nat.succ_eq_add_one, Nat.sub_add_cancel h1]

theorem CheckEnv.HasPage.length_image {pageSz : Nat} (h : f.HasPage pageSz page) :
    (f.image pageSz page).length = pageSz :=
  length_slice h.page_end

theorem CodecCtx.HasLayout.verifies_iff (hL : ctx.HasLayout p pgno L)
    (hh : ctx.flags.hmac = true) (img : Bytes) :
    ctx.Verifies p g pgno img ↔ Authentic L (ctx.mac p g .read) (pgnoRaw g ctx.flags pgno) img := by
  rw [Verifies, hL.signed_eq, hL.storedTag_eq hh, Authentic]

section

variable (hL : ctx.HasLayout p (UInt32.ofNat page) L)
include hL

/-- The check reads the page from the end of its header on. -/
theorem CodecCtx.HasLayout.check_read (hpage : f.HasPage ctx.pageSz page) :
    f.read page ((page - 1 : Nat) * ctx.pageSz + ctx.offset (UInt32.ofNat page))
        (ctx.pageSz - ctx.offset (UInt32.ofNat page)) =
      if f.readOk page then
        some (slice (f.image ctx.pageSz page) L.offset (ctx.pageSz - L.offset)) else none := by
  have hend := hpage.page_end
  have hle := hL.offset_le
  have hpos : ((page - 1 : Nat) * ctx.pageSz + ctx.offset (UInt32.ofNat page) : Int) =
      (((page - 1) * ctx.pageSz + L.offset : Nat) : Int) := by
    rw [← hL.offset]
    push_cast
    rfl
  rw [CheckEnv.read, hL.rest_eq, hpos, readAt_of_le (by omega), CheckEnv.image,
    slice_slice _ (by omega)]

theorem CodecCtx.HasLayout.offset_add_le :
    L.offset + (L.bodySz + L.ivSz + L.tagSz) ≤ ctx.pageSz := by
  have := L.offset_add_bodySz
  have := L.fits
  have := hL.pageSz
  omega

theorem CodecCtx.HasLayout.payload_eq :
    (ctx.pageSz : Int) - ctx.reserveSz + p.ivSz - ctx.offset (UInt32.ofNat page) =
      ((L.bodySz + L.ivSz : Nat) : Int) := by
  have := hL.size_eq
  have := hL.ivSz
  omega

/-- Body, vector and tag lie in the buffer of the check without the header before them. -/
theorem CodecCtx.HasLayout.check_parts (himg : img.length = ctx.pageSz)
    (hb : b = overwrite (zeros ctx.pageSz) 0 (slice img L.offset (ctx.pageSz - L.offset))) :
    b.length = ctx.pageSz ∧
      readAt b 0 ((L.bodySz + L.ivSz : Nat) : Int) = some (L.body img ++ L.iv img) ∧
      readAt b ((L.bodySz + L.ivSz : Nat) : Int) L.tagSz = some (L.tag img) := by
  have hle := hL.offset_add_le
  have hbytes : (slice img L.offset (ctx.pageSz - L.offset)).length = ctx.pageSz - L.offset :=
    length_slice (by omega)
  have hin : 0 + (slice img L.offset (ctx.pageSz - L.offset)).length ≤
      (zeros ctx.pageSz).length := by
    rw [length_zeros]
    omega
  have hlen : b.length = ctx.pageSz := by
    rw [hb, length_overwrite hin, length_zeros]
  refine ⟨hlen, ?_, ?_⟩
  · rw [readAt_zero_of_le (by omega), L.body_append_iv, hb, slice_overwrite_head hin (by omega),
      slice_slice img (by omega), Nat.add_zero]
  · have hinner := slice_overwrite_inner (o := L.bodySz + L.ivSz) (n := L.tagSz) hin (by omega)
    rw [Nat.zero_add] at hinner
    rw [readAt_of_le (by omega), hb, hinner, slice_slice img (by omega), Layout.tag,
      ← L.offset_add_bodySz, Nat.add_assoc]

theorem CodecCtx.HasLayout.checkPage_eq (w : ctx.Wf p)
    (hh : ctx.flags.hmac = true) (hpage : f.HasPage ctx.pageSz page) :
    ∃ reports b, ctx.checkPage p g e f page = some (reports, { ctx with buffer := b }) ∧
      b.length = ctx.pageSz ∧ (∀ r ∈ reports, r.page? = some page) ∧
      (reports = [] ↔ ctx.Passes p g f page) := by
  have htag : ctx.hmacSz = L.tagSz := by rw [hL.tagSz, CodecCtx.tagSz, if_pos hh]
  unfold CodecCtx.checkPage
  by_cases hlck : page = lckPgno g f.pageSize
  · rw [if_pos hlck]
    exact ⟨[], ctx.buffer, rfl, w.buffer, (by simp), iff_of_true rfl (.inl hlck)⟩
  rw [if_neg hlck]
  have hsz : ¬ (ctx.pageSz : Int) - ctx.offset (UInt32.ofNat page) < 0 := by
    have := hL.offset_add_le
    have := hL.offset
    omega
  have hzero : memsetZero ctx.buffer 0 ctx.pageSz = some (zeros ctx.pageSz) := by
    rw [← w.buffer]
    exact memsetZero_whole ctx.buffer
  have hreport {r : IntegrityReport} (hr : r.page? = some page) :
      ∀ r' ∈ [r], r'.page? = some page := by
    rintro r' hr'
    rwa [mem_singleton.mp hr']
  simp only [hzero, hL.check_read hpage, Option.bind_eq_bind, Option.bind_some, if_neg hsz]
  by_cases hread : f.readOk page = true
  · rw [if_pos hread]
    obtain ⟨hlen, hmsg, hstored⟩ := hL.check_parts hpage.length_image rfl
    generalize hb : overwrite (zeros ctx.pageSz) 0 _ = b at hlen hmsg hstored
    have hwrite : writeAt (zeros ctx.pageSz) 0 (slice (f.image ctx.pageSz page) L.offset
        (ctx.pageSz - L.offset)) = some b := by
      rw [← hb]
      refine writeAt_zero_of_le ?_
      have := hL.offset_add_le
      rw [length_slice (by rw [hpage.length_image]; omega), length_zeros]
      omega
    rw [hL.payload_eq, htag]
    simp only [hwrite, Option.bind_some, hmsg, hstored, CodecCtx.pageHmac]
    by_cases hmac : f.hmacOk page = true
    · simp only [hmac, if_true]
      have hiff : L.tag (f.image ctx.pageSz page) = p.hmac ctx.hmacAlgorithm
          (shield g.shieldMask (ctx.cipherCtx .read).hmacKey)
          (L.body (f.image ctx.pageSz page) ++ L.iv (f.image ctx.pageSz page))
          (pgnoRaw g ctx.flags (UInt32.ofNat page)) ↔ ctx.Passes p g f page := by
        rw [CodecCtx.Passes, hL.verifies_iff hh, Authentic, CodecCtx.mac, if_pos hh]
        simp only [hlck, hread, hmac, false_or, true_and]
      split_ifs with hbad
      · exact ⟨_, b, rfl, hlen, hreport rfl, iff_of_false (cons_ne_nil _ _) (mt hiff.mpr hbad)⟩
      · exact ⟨[], b, rfl, hlen, (by simp), iff_of_true rfl (hiff.mp (not_not.mp hbad))⟩
    · simp only [hmac]
      exact ⟨_, b, rfl, hlen, hreport rfl, iff_of_false (cons_ne_nil _ _)
        (fun h => h.elim hlck fun h => hmac h.2.1)⟩
  · rw [if_neg hread]
    exact ⟨_, _, rfl, length_zeros _, hreport rfl, iff_of_false (cons_ne_nil _ _)
      (fun h => h.elim hlck fun h => hread h.1)⟩

end

/-! ## The whole file -/

/-- The header size is one that the setting accepts for the current page size. -/
def CodecCtx.AcceptsHeader (ctx : CodecCtx) : Prop :=
  0 ≤ ctx.plaintextHeaderSz ∧ ctx.plaintextHeaderSz ≤ (ctx.pageSz : Int) - ctx.reserveSz

theorem CodecCtx.Wf.exists_layout_of_accepts (w : ctx.Wf p) (hdr : ctx.AcceptsHeader)
    (pgno : Pgno) : ∃ L, ctx.HasLayout p pgno L :=
  w.exists_layout (w.fits (.inr hdr))

theorem checkPages_eq (w : ctx.Wf p) (hh : ctx.flags.hmac = true) (hdr : ctx.AcceptsHeader)
    (hpages : ∀ page ∈ pages, f.HasPage ctx.pageSz page) :
    ∃ reports b, ctx.checkPages p g e f pages = some (reports, { ctx with buffer := b }) ∧
      b.length = ctx.pageSz ∧ (∀ r ∈ reports, r.page? ≠ none) ∧
      ∀ page, (∃ r ∈ reports, r.page? = some page) ↔
        page ∈ pages ∧ ¬ ctx.Passes p g f page := by
  induction pages generalizing ctx with
  | nil => exact ⟨[], ctx.buffer, rfl, w.buffer, nofun, fun page => by simp⟩
  | cons q pages ih =>
    obtain ⟨L, hL⟩ := w.exists_layout_of_accepts hdr (UInt32.ofNat q)
    obtain ⟨reports, b, heq, hb, hq, hiff⟩ :=
      hL.checkPage_eq (g := g) (e := e) w hh (hpages q mem_cons_self)
    -- the verdicts do not depend on the buffer that the first page leaves behind
    obtain ⟨rest, b', heq', hb', hrest, hiff'⟩ := @ih { ctx with buffer := b }
      { w with buffer := hb } hh hdr
      fun page hp => hpages page (mem_cons_of_mem q hp)
    refine ⟨reports ++ rest, b', ?_, hb', ?_, fun page => ?_⟩
    · simp only [checkPages, heq, Option.bind_eq_bind, Option.bind_some, heq', Option.pure_def]
    · intro r hr
      obtain hr | hr := mem_append.mp hr
      · exact (hq r hr).symm ▸ some_ne_none q
      · exact hrest r hr
    · have hhead : (∃ r ∈ reports, r.page? = some page) ↔ page = q ∧ ¬ ctx.Passes p g f page := by
        constructor
        · rintro ⟨r, hr, hp⟩
          obtain rfl : q = page := some.inj ((hq r hr).symm.trans hp)
          exact ⟨rfl, mt hiff.mpr (ne_nil_of_mem hr)⟩
        · rintro ⟨rfl, hnot⟩
          obtain ⟨r, hr⟩ := exists_mem_of_ne_nil _ (mt hiff.mp hnot)
          exact ⟨r, hr, hq r hr⟩
      have htail : (∃ r ∈ rest, r.page? = some page) ↔ page ∈ pages ∧ ¬ ctx.Passes p g f page :=
        hiff' page
      simp only [mem_append, mem_cons, or_and_right, exists_or, hhead, htail]

theorem mem_range'_iff_hasPage {pageSz : Nat} (hpos : 0 < pageSz) :
    page ∈ range' 1 (f.content.length / pageSz) ↔ f.HasPage pageSz page := by
  rw [mem_range'_1, CheckEnv.HasPage, ← Nat.le_div_iff_mul_le hpos]
  omega

theorem CodecCtx.KeyFrame.acceptsHeader (h : ctx.KeyFrame c) (hdr : ctx.AcceptsHeader) :
    c.AcceptsHeader := by
  obtain ⟨k, rfl⟩ := h
  exact hdr

/-- A check that gets to the pages of a file of whole pages reports exactly those that do not pass.
-/
theorem integrityCheck_eq (w : ctx.Wf p) (hkeys : ctx.codecKeyDerive p g e = (.ok, c))
    (hh : ctx.flags.hmac = true) (hdr : ctx.AcceptsHeader) (hopen : f.isOpen = true)
    (hsize : f.sizeOk = true) (hwhole : f.content.length % ctx.pageSz = 0) :
    ∃ reports b, ctx.integrityCheck p g e f = some (reports, { c with buffer := b }) ∧
      b.length = ctx.pageSz ∧ (∀ r ∈ reports, r.page? ≠ none) ∧
      ∀ page, (∃ r ∈ reports, r.page? = some page) ↔
        f.HasPage ctx.pageSz page ∧ ¬ c.Passes p g f page := by
  have hframe : ctx.KeyFrame c := by
    have := codecKeyDerive_frame p g e ctx
    rwa [hkeys] at this
  have hformat : ctx.SameFormat 1 c := hframe.sameFormat
  have hpos : 0 < ctx.pageSz := by
    have := w.pageSz_ge
    omega
  obtain ⟨reports, b, heq, hb, hpage, hiff⟩ := checkPages_eq (g := g) (e := e) (hframe.wf w)
    (hformat.hmac.trans hh) (hframe.acceptsHeader hdr)
    fun page h => (mem_range'_iff_hasPage (f := f) (hformat.pageSz ▸ hpos)).mp h
  rw [hformat.pageSz] at hb hiff heq
  refine ⟨reports, b, ?_, hb, hpage, fun page => ?_⟩
  · have hneg : ¬ c.plaintextHeaderSz < 0 := Int.not_lt.mpr (hframe.acceptsHeader hdr).1
    simp [integrityCheck, hopen, hh, hkeys, hsize, hneg, heq, hformat.pageSz, hwhole]
  · rw [hiff, mem_range'_iff_hasPage hpos]

/-! ## Pages that pass -/

variable {pgno : Pgno} {img : Bytes}

theorem dropPass_mac (ctx : CodecCtx) (role : CipherRole) :
    ctx.dropPass.mac p g role = ctx.mac p g role := by
  unfold dropPass
  split <;> cases role <;> rfl

theorem dropPass_pageKey (ctx : CodecCtx) (role : CipherRole) :
    ctx.dropPass.pageKey p g role = ctx.pageKey p g role := by
  unfold dropPass
  split <;> cases role <;> rfl

def CodecCtx.Decrypts (p : Provider) (g : Globals) (e : Env) (c : CodecCtx) (pgno : Pgno)
    (img : Bytes) : Prop :=
  ∃ page c', sqlite3Codec p g e c img pgno .read = some ⟨some page, page, c'⟩ ∧
    c'.error = .ok ∧ (c.HeaderOnly pgno ∨ ∃ L, c.HasLayout p pgno L ∧
      L.body page = (c.pageKey p g .read).dec (L.iv img) (L.body img))

theorem CodecCtx.Verifies.decrypts (h : c.Verifies p g pgno img) (w : c.Wf p)
    (herr : c.error = .ok) (hdr : c.AcceptsHeader) (hder : c.KeysDerived) (hh : c.flags.hmac = true)
    (himg : img.length = c.pageSz) (hok : c.providerOk e = true) : c.Decrypts p g e pgno img := by
  obtain ⟨L, hL⟩ := w.exists_layout_of_accepts hdr pgno
  have hauth := (hL.verifies_iff hh img).mp h
  have hframe := dropPass_frame c
  have hformat : c.SameFormat pgno c.dropPass := hframe.sameFormat
  have hd : 0 ≤ c.dropPass.plaintextHeaderSz := by
    obtain ⟨k, hk⟩ := hframe
    rw [hk]
    exact hdr.1
  rw [Decrypts, sqlite3Codec_of_ready (ready_of_derived herr hdr.1 hder)]
  obtain ⟨page, c', hread, -, -, hout⟩ := (hL.of_sameFormat hformat).codecRead_outcome (g := g)
    (e := e) (hframe.wf w) hd (himg.trans hformat.pageSz.symm)
  rw [← hformat.pgnoRaw_eq, ← dropPass_mac] at hauth
  refine ⟨page, c', hread, ?_⟩
  cases hout with
  | headerOnly ho => exact ⟨hframe.error.trans herr, .inl (hformat.headerOnly.mp ho)⟩
  | decrypted _ _ body =>
    exact ⟨hframe.error.trans herr, .inr ⟨L, hL, body.trans (by rw [dropPass_pageKey])⟩⟩
  | shortRead _ mismatch => exact absurd hauth mismatch
  | rejected _ reason =>
    have hok' : c.dropPass.providerOk e = true := by
      obtain ⟨k, hk⟩ := hframe
      rw [hk]
      exact hok
    obtain hbad | hbad := reason
    · exact absurd hauth hbad
    · cases hok'.symm.trans hbad

/-! ## Pages that the codec wrote -/

/-- In the run `ops` from `s₀` the codec handed out `img` for a write of page `pgno`. -/
def Session.Writes (p : Provider) (s₀ : Session) (ops : List (Env × Op)) (pgno : Pgno)
    (img : Bytes) : Prop :=
  ∃ before e P after s ctx r, ops = before ++ (e, .page P pgno .write) :: after ∧
    Run.exec (step p) s₀ before = some s ∧ s.codec = some ctx ∧
    sqlite3Codec p s.globals e ctx P pgno .write = some r ∧ r.out = some img

/-- Page operations do not touch the process-wide settings, and a context without an error keeps its
keys. -/
theorem Session.step_page (c : CodecCtx) (pgno : Pgno) {s s' : Session} (ho : o.2.isPage = true)
    (h : s.globals = g ∧ ∃ ctx, s.codec = some ctx ∧ (ctx.error = .ok → c.Keyed pgno ctx))
    (hstep : s.step p o = some s') :
    s'.globals = g ∧ ∃ ctx, s'.codec = some ctx ∧ (ctx.error = .ok → c.Keyed pgno ctx) := by
  obtain ⟨hg, ctx, hctx, hset⟩ := h
  obtain ⟨e, op⟩ := o
  cases op with
  | page P q mode =>
    simp only [step, hctx] at hstep
    split_ifs at hstep with hlen
    obtain ⟨r, hr, rfl⟩ := map_eq_some_iff.mp hstep
    refine ⟨hg, r.ctx, rfl, fun herr => ?_⟩
    obtain ⟨c₀, hs, hu⟩ := sqlite3Codec_stage hr
    exact (hset (error_of_sqlite3Codec hlen hr herr)).call hs hu herr
  | _ => cases ho

/-- What was written in a run of page operations is authentic at its end. -/
theorem Session.Writes.verifies (h : s₀.Writes p ops pgno img) (hs₀ : s₀.Reachable p)
    (hops : ∀ o ∈ ops, o.2.isPage = true) (hrun : Run.exec (step p) s₀ ops = some s)
    (hc : s.codec = some ctx) (herr : ctx.error = .ok) (hh : ctx.flags.hmac = true)
    (hkeys : ctx.SameKeys .write ctx .read) (hho : ¬ ctx.HeaderOnly pgno) :
    ctx.KeysDerived ∧ ctx.Verifies p s.globals pgno img := by
  obtain ⟨before, e, P, after, s₁, ctx₁, r, rfl, hbefore, hc₁, hr, hout⟩ := h
  rw [Run.exec_append, hbefore, Option.bind_some, Run.exec_cons_eq_some] at hrun
  obtain ⟨s₂, hstep, hafter⟩ := hrun
  have hreach₁ := hs₀.exec hbefore
  have hreach₂ := hreach₁.step hstep
  simp only [step, hc₁, hr, map_some] at hstep
  split_ifs at hstep with hlen
  cases hstep
  have hset := keyed_of_encrypt (hreach₁.wf hc₁) (hreach₂.hasSalt rfl) rfl hlen hr hout
  obtain ⟨hg, ctx', hctx', hend⟩ := Run.exec_invariant
    (fun _ _ _ h ho hs => step_page r.ctx pgno ho h hs)
    ⟨rfl, r.ctx, rfl, fun _ => hset.1⟩
    (Run.along_of_forall (fun o ho => hops o (mem_append_right before
      (mem_cons_of_mem _ ho))) _) hafter
  cases hctx'.symm.trans hc
  have hs := hend herr
  obtain ⟨L, hL, -, hauth⟩ := authentic_of_encrypt (hreach₁.wf hc₁) hlen rfl hr hout
    (mt hs.format.headerOnly.mpr hho)
  refine ⟨hs.derived, ((hL.of_sameFormat hs.format).verifies_iff hh img).mpr ?_⟩
  have hself : ctx.SameFormat pgno ctx := hs.format.symm.trans hs.format
  rw [hg, hkeys.mac_eq hself, (hs.keys .write).mac_eq hs.format, hs.format.pgnoRaw_eq]
  exact hauth

/-! ## Agreement -/

structure CheckEnv.Works (f : CheckEnv) : Prop where
  isOpen : f.isOpen = true
  sizeOk : f.sizeOk = true
  readOk : ∀ page, f.readOk page = true
  hmacOk : ∀ page, f.hmacOk page = true

/-- Deriving keys again does not change which images verify. -/
theorem CodecCtx.Verifies.dropPass (h : ctx.Verifies p g pgno img) :
    ctx.dropPass.Verifies p g pgno img := by
  have hformat : ctx.SameFormat pgno ctx.dropPass := (dropPass_frame ctx).sameFormat
  rw [Verifies, storedTag, signed, dropPass_mac, hformat.pgnoRaw_eq, hformat.offset, hformat.pageSz,
    hformat.reserveSz, hformat.hmacSz]
  exact h

/-- A check without a row about the file as a whole went through the pages. -/
theorem integrityCheck_started (h : ctx.integrityCheck p g e f = some (reports, c))
    (hrows : ∀ r ∈ reports, r.page? ≠ none) :
    f.isOpen = true ∧ f.sizeOk = true ∧ (ctx.codecKeyDerive p g e).1 = .ok := by
  unfold integrityCheck at h
  dsimp only at h
  split_ifs at h with hopen hmac hkeys hsize
  · cases h
    exact absurd rfl (hrows .fileUndefined mem_cons_self)
  · cases h
    exact absurd rfl (hrows .hmacDisabled mem_cons_self)
  · cases h
    exact absurd rfl (hrows .keyDerivation mem_cons_self)
  · cases h
    exact absurd rfl (hrows .fileSize mem_cons_self)
  all_goals
    exact ⟨Bool.not_eq_false _ ▸ hopen, Bool.not_eq_false _ ▸ hsize, not_not.mp hkeys⟩

section Agreement

variable (herr : ctx.error = .ok) (hhmac : ctx.flags.hmac = true) (hdr : ctx.AcceptsHeader)
  (hwhole : f.content.length % ctx.pageSz = 0)
include herr hhmac hdr hwhole

theorem written_not_reported (hs₀ : s₀.Reachable p)
    (hops : ∀ o ∈ ops, o.2.isPage = true) (hrun : Run.exec (step p) s₀ ops = some s)
    (hc : s.codec = some ctx) (hf : f.Works) (hsame : ctx.SameKeys .write ctx .read)
    (hho : ¬ ctx.HeaderOnly 1)
    (hwrites : ∀ page, f.HasPage ctx.pageSz page → page ≠ lckPgno s.globals f.pageSize →
      s₀.Writes p ops (UInt32.ofNat page) (f.image ctx.pageSz page)) :
    (ctx.integrityCheck p s.globals e f).map Prod.fst =
      some (if (ctx.codecKeyDerive p s.globals e).1 = .ok then [] else [.keyDerivation]) := by
  split_ifs with hrc
  · obtain ⟨reports, b, hcheck, -, hrows, hiff⟩ := integrityCheck_eq ((hs₀.exec hrun).wf hc)
      (Prod.ext hrc rfl) hhmac hdr hf.isOpen hf.sizeOk hwhole
    rw [hcheck, map_some]
    refine congrArg some (eq_nil_iff_forall_not_mem.mpr fun r hr => ?_)
    obtain ⟨page, hp⟩ := ne_none_iff_exists'.mp (hrows r hr)
    obtain ⟨hpage, hfail⟩ := (hiff page).mp ⟨r, hr, hp⟩
    have hformat : ctx.SameFormat 1 (ctx.codecKeyDerive p s.globals e).2 :=
      (codecKeyDerive_frame p s.globals e ctx).sameFormat
    rw [Passes, hformat.pageSz] at hfail
    refine hfail (or_iff_not_imp_left.mpr fun hlck => ⟨hf.readOk page, hf.hmacOk page, ?_⟩)
    obtain ⟨hder, hver⟩ := (hwrites page hpage hlck).verifies hs₀ hops hrun hc herr hhmac hsame
      fun h => hho (h.1 ▸ h)
    rw [codecKeyDerive_of_derived hder]
    exact hver.dropPass
  · simp [integrityCheck, hf.isOpen, hhmac, hrc]

/-- The codec decrypts what a check that went through the pages did not report. -/
theorem unreported_decrypts (w : ctx.Wf p)
    (hcheck : ctx.integrityCheck p g e f = some (reports, c))
    (hrows : ∀ r ∈ reports, r.page? ≠ none) (hpage : f.HasPage ctx.pageSz page)
    (hlck : page ≠ lckPgno g f.pageSize) (hnot : ∀ r ∈ reports, r.page? ≠ some page)
    (hok : c.providerOk e' = true) :
    c.Decrypts p g e' (UInt32.ofNat page) (f.image ctx.pageSz page) := by
  obtain ⟨hopen, hsize, hrc⟩ := integrityCheck_started hcheck hrows
  obtain ⟨c₀, hkeys⟩ : ∃ c₀, ctx.codecKeyDerive p g e = (.ok, c₀) := ⟨_, Prod.ext hrc rfl⟩
  obtain ⟨reports', b, heq, hb, -, hiff⟩ := integrityCheck_eq w hkeys hhmac hdr hopen hsize hwhole
  have hframe := codecKeyDerive_frame p g e ctx
  have hder := codecKeyDerive_derived hrc
  rw [hkeys] at hframe hder
  have hformat : ctx.SameFormat 1 c₀ := hframe.sameFormat
  cases heq.symm.trans hcheck
  have hpass : c₀.Passes p g f page := by
    by_contra hfail
    obtain ⟨r, hr, hp⟩ := (hiff page).mpr ⟨hpage, hfail⟩
    exact hnot r hr hp
  rw [Passes, hformat.pageSz] at hpass
  obtain ⟨-, -, hver⟩ := hpass.resolve_left hlck
  have hw := hframe.wf w
  exact Verifies.decrypts (c := { c₀ with buffer := b }) hver
    { hw with buffer := hb.trans hformat.pageSz.symm }
    (hframe.error.trans herr) (hframe.acceptsHeader hdr) hder (hformat.hmac.trans hhmac)
    (hpage.length_image.trans hformat.pageSz.symm) hok

end Agreement

/-- The check and the codec agree, for every context that a run can lead to, with HMAC on and a
header size that its page size admits, and any page size of the pager.

* If every page of the file but that of the lock bytes is an image the codec handed out for
  writing, and the first page has an encrypted part, nothing is reported about the pages.
* If the check goes through the pages, the codec decrypts every page that is not reported, but
  for that of the lock bytes. -/
theorem check_agrees (p : Provider) (s₀ : Session) (hs₀ : s₀.Reachable p) (ops : List (Env × Op))
    (hops : ∀ o ∈ ops, o.2.isPage = true) (s : Session)
    (hrun : Run.exec (step p) s₀ ops = some s) (ctx : CodecCtx) (hc : s.codec = some ctx)
    (herr : ctx.error = .ok) (hhmac : ctx.flags.hmac = true) (hdr : ctx.AcceptsHeader)
    (f : CheckEnv) (hwhole : f.content.length % ctx.pageSz = 0) (e : Env) :
    (f.Works → ctx.SameKeys .write ctx .read → ¬ ctx.HeaderOnly 1 →
      (∀ page, f.HasPage ctx.pageSz page → page ≠ lckPgno s.globals f.pageSize →
        s₀.Writes p ops (UInt32.ofNat page) (f.image ctx.pageSz page)) →
      (ctx.integrityCheck p s.globals e f).map Prod.fst =
        some (if (ctx.codecKeyDerive p s.globals e).1 = .ok then [] else [.keyDerivation])) ∧
    (∀ reports c, ctx.integrityCheck p s.globals e f = some (reports, c) →
      (∀ r ∈ reports, r.page? ≠ none) →
      ∀ page, f.HasPage ctx.pageSz page → page ≠ lckPgno s.globals f.pageSize →
      (∀ r ∈ reports, r.page? ≠ some page) → ∀ e', c.providerOk e' = true →
      ∃ content c', sqlite3Codec p s.globals e' c (f.image ctx.pageSz page) (UInt32.ofNat page)
          .read = some ⟨some content, content, c'⟩ ∧ c'.error = .ok ∧
        (c.HeaderOnly (UInt32.ofNat page) ∨ ∃ L, c.HasLayout p (UInt32.ofNat page) L ∧
          L.body content = (c.pageKey p s.globals .read).dec (L.iv (f.image ctx.pageSz page))
            (L.body (f.image ctx.pageSz page)))) := by
  refine ⟨fun hf hsame hho hwrites => ?_,
    fun reports c hcheck hrows page hpage hlck hnot e' hok => ?_⟩
  · exact written_not_reported herr hhmac hdr hwhole hs₀ hops hrun hc hf hsame hho hwrites
  · exact unreported_decrypts herr hhmac hdr hwhole ((hs₀.exec hrun).wf hc) hcheck hrows hpage hlck
      hnot hok

/-- A database of one page, checked by the connection that wrote it. -/
theorem check_agrees_onePage : ∃ (r : CodecResult) (img : Bytes),
    sqlite3Codec .toy .initial .allOk .keyed1024 (zeros 1024) 1 .write = some r ∧
    r.out = some img ∧
    (r.ctx.integrityCheck .toy .initial .allOk (.ofContent 1024 img)).map Prod.fst = some [] := by
  have hfacts : (sqlite3Codec .toy .initial .allOk .keyed1024 (zeros 1024) 1 .write).map (fun r =>
      ((r.out.map length, r.ctx.pageSz, r.ctx.reserveSz, r.ctx.plaintextHeaderSz),
        r.ctx.error, r.ctx.flags.hmac, decide (r.ctx.readCtx = r.ctx.writeCtx),
        (r.ctx.codecKeyDerive .toy .initial .allOk).1)) =
      some ((some 1024, 1024, 80, 0), .ok, true, true, .ok) := by decide +kernel
  obtain ⟨r, hr, hfacts⟩ := map_eq_some_iff.mp hfacts
  simp only [Prod.mk.injEq, map_eq_some_iff, decide_eq_true_eq] at hfacts
  obtain ⟨⟨⟨img, hout, hlen⟩, hpg, hres, hdr⟩, herr, hhmac, hkeys, hrc⟩ := hfacts
  have hpage : (zeros 1024).length = keyed1024.pageSz := length_zeros 1024
  have hrun : Run.exec (Session.step .toy) .keyed1024 [(.allOk, .page (zeros 1024) 1 .write)] =
      some ⟨.initial, some r.ctx, false⟩ := by
    simp only [Run.exec_cons, Session.step, Session.keyed1024]
    rw [if_pos hpage, hr]
    rfl
  refine ⟨r, img, hr, hout, ?_⟩
  have hcheck := (check_agrees .toy .keyed1024 Session.keyed1024_reachable _ (by simp [Op.isPage]) _
    hrun r.ctx rfl herr hhmac (by simp [AcceptsHeader, hpg, hres, hdr]) (.ofContent 1024 img)
    (by simp [CheckEnv.ofContent, hpg, hlen]) .allOk).1 ⟨rfl, rfl, fun _ => rfl, fun _ => rfl⟩
    ⟨congrArg CipherCtx.key hkeys, fun _ => congrArg CipherCtx.hmacKey hkeys⟩
    (by simp [HeaderOnly, offset, hpg, hres, hdr, fileHeaderSz])
    (fun page hpage _ => ?_)
  · rwa [if_pos hrc] at hcheck
  · obtain ⟨h1, hle⟩ := hpage
    obtain rfl : page = 1 := by
      simp only [CheckEnv.ofContent, hpg, hlen] at hle
      omega
    have himg : (CheckEnv.ofContent 1024 img).image r.ctx.pageSz 1 = img := by
      rw [hpg, ← hlen, CheckEnv.image, Nat.sub_self, Nat.zero_mul]
      exact slice_all img
    rw [himg]
    exact ⟨[], .allOk, zeros 1024, [], .keyed1024, .keyed1024, r, rfl, rfl, rfl, hr, hout⟩

/-- A first page with a header up to the reserve is written, and checked. -/
def headerOnlyReports : Option (List IntegrityReport) := do
  let ctx := (keyed1024.setPlaintextHeaderSize .toy 944).2
  let r ← sqlite3Codec .toy .initial .allOk ctx (replicate 1024 1) 1 .write
  let img ← r.out
  let check ← r.ctx.integrityCheck .toy .initial .allOk (.ofContent 1024 img)
  return check.1

/-- With the lock bytes on page 2, a first page is written and a page of ones added; then the file
is checked, and page 2 read. -/
def lockPageReports : Option (List IntegrityReport × ResultCode) := do
  let g : Globals := { Globals.initial with pendingByte := 1024 }
  let r ← sqlite3Codec .toy g .allOk .keyed1024 (zeros 1024) 1 .write
  let img ← r.out
  let check ← r.ctx.integrityCheck .toy g .allOk (.ofContent 1024 (img ++ replicate 1024 1))
  let read ← sqlite3Codec .toy g .allOk check.2 (replicate 1024 1) 2 .read
  return (check.1, read.ctx.error)

/-- A page 1 without encrypted part is reported, although the codec wrote it. The lock-byte page is
not, although the codec cannot authenticate it. -/
theorem not_check_agrees :
    (keyed1024.setPlaintextHeaderSize .toy 944).1 = .ok ∧
      headerOnlyReports = some [.hmacMismatch 1] ∧ lockPageReports = some ([], .error) := by
  decide +kernel

end SqlCipher
