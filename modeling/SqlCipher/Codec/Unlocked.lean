import SqlCipher.Codec.FailClosed
import SqlCipher.Codec.Keyed

/-!
# Contexts and the keys they come to have

A context derives its keys when it is first used, under the salt at the start of the file, with the
same result whenever and however often this is tried (`codecKeyDerive_congr`). `CodecCtx.unlocked`
is the context that has them. `CodecCtx.Follows` describes the states a context goes through while
pages pass through it, `Follows.encrypt` and `Follows.read` what the calls return.
-/

namespace SqlCipher

open Buffer SealedPage

variable {p : Provider} {g : Globals} {e e' : Env} {ctx c : CodecCtx} {role : CipherRole}
  {pgno : Pgno}

/-! ## Derivation is deterministic -/

def CodecCtx.SameSalt (ctx : CodecCtx) (e e' : Env) : Prop :=
  ctx.flags.hasKdfSalt = true ∨ ∃ salt, e.fileHeader = some salt ∧ e'.fileHeader = some salt

theorem initKdfSalt_congr (h : ctx.SameSalt e e') : ctx.initKdfSalt e = ctx.initKdfSalt e' := by
  unfold CodecCtx.initKdfSalt
  obtain hs | ⟨salt, hs, hs'⟩ := h
  · rw [if_pos hs, if_pos hs]
  · rw [hs, hs']

theorem deriveFrom_congr {pass : Bytes} (h : (ctx.deriveFrom p g e role pass).1 = .ok)
    (h' : (ctx.deriveFrom p g e' role pass).1 = .ok) :
    ctx.deriveFrom p g e role pass = ctx.deriveFrom p g e' role pass := by
  unfold CodecCtx.deriveFrom at *
  dsimp only at *
  split_ifs at * <;> rfl

theorem keyDerive_congr (hs : ctx.SameSalt e e') (h : (ctx.keyDerive p g e role).1 = .ok)
    (h' : (ctx.keyDerive p g e' role).1 = .ok) :
    ctx.keyDerive p g e role = ctx.keyDerive p g e' role := by
  unfold CodecCtx.keyDerive at *
  rw [initKdfSalt_congr hs] at *
  cases hp : (ctx.cipherCtx role).pass with
  | none => rfl
  | some pass =>
    simp only [hp] at h h' ⊢
    split_ifs at *
    exact deriveFrom_congr h h'

theorem deriveRead_congr (hs : ctx.SameSalt e e') (h : (ctx.deriveRead p g e).1 = .ok)
    (h' : (ctx.deriveRead p g e').1 = .ok) : ctx.deriveRead p g e = ctx.deriveRead p g e' := by
  unfold CodecCtx.deriveRead at *
  split_ifs at *
  · exact keyDerive_congr hs h h'
  · rfl

theorem deriveWrite_congr (hs : ctx.SameSalt e e') (h : (ctx.deriveWrite p g e).1 = .ok)
    (h' : (ctx.deriveWrite p g e').1 = .ok) : ctx.deriveWrite p g e = ctx.deriveWrite p g e' := by
  unfold CodecCtx.deriveWrite at *
  split_ifs at *
  · rfl
  · exact keyDerive_congr hs h h'
  · rfl

theorem CodecCtx.SameSalt.deriveRead (hs : ctx.SameSalt e e') (h : (ctx.deriveRead p g e).1 = .ok) :
    (ctx.deriveRead p g e).2.SameSalt e e' := by
  unfold CodecCtx.deriveRead at *
  split_ifs at *
  · obtain ⟨pass, -, -, -, -, hflags⟩ := keyDerive_ok h
    exact .inl (by rw [hflags])
  · exact hs

/-- Two successful derivations from the same salt give the same context. -/
theorem codecKeyDerive_congr (hs : ctx.SameSalt e e') (h : (ctx.codecKeyDerive p g e).1 = .ok)
    (h' : (ctx.codecKeyDerive p g e').1 = .ok) :
    (ctx.codecKeyDerive p g e).2 = (ctx.codecKeyDerive p g e').2 := by
  obtain ⟨hr, hw, heq⟩ := codecKeyDerive_ok h
  obtain ⟨hr', hw', heq'⟩ := codecKeyDerive_ok h'
  have hread := deriveRead_congr hs hr hr'
  rw [heq, heq', deriveWrite_congr (hs.deriveRead hr) hw (hread ▸ hw'), hread]

/-! ## The keys of a context and a file -/

/-- The environment of a call on a file that starts with `page1`, where the salt is read if it can
be. -/
def Env.onFile (e : Env) (page1 : Bytes) : Env :=
  { e with fileHeader := e.fileHeader.map fun _ => Salt.ofBytes page1 }

structure Env.Fine (e : Env) : Prop where
  fileHeader : e.fileHeader.isSome
  random : e.random.isSome
  kdf : ∀ role use, e.kdf role use = true
  hmac : e.hmac = true
  cipher : e.cipher = true

theorem Env.Fine.onFile (h : e.Fine) (page1 : Bytes) : (e.onFile page1).Fine :=
  { h with fileHeader := by simpa [Env.onFile] using h.fileHeader }

theorem Env.Fine.derivesKeys (h : e.Fine) : e.DerivesKeys := ⟨.inl h.fileHeader, h.kdf⟩

theorem Env.Fine.providerOk (h : e.Fine) (ctx : CodecCtx) : ctx.providerOk e = true := by
  simp [CodecCtx.providerOk, h.hmac, h.cipher]

theorem Env.allOk_fine : Env.allOk.Fine := ⟨rfl, rfl, fun _ _ => rfl, rfl, rfl⟩

/-- A context that can work: no error, room for the header, and material for keys not yet derived.
-/
structure CodecCtx.Unlockable (p : Provider) (ctx : CodecCtx) : Prop where
  wf : ctx.Wf p
  error : ctx.error = .ok
  header : 0 ≤ ctx.plaintextHeaderSz
  room : ctx.plaintextHeaderSz ≤ (ctx.pageSz : Int) - ctx.reserveSz
  material : ctx.HasKeyMaterial
  hasSalt : ctx.HasSalt

/-- The context with the keys that it derives on a file that starts with `page1`. -/
def CodecCtx.unlocked (p : Provider) (g : Globals) (ctx : CodecCtx) (page1 : Bytes) : CodecCtx :=
  (ctx.codecKeyDerive p g (Env.allOk.onFile page1)).2

section

variable {page1 : Bytes} (h : ctx.Unlockable p)
include h

theorem CodecCtx.Unlockable.codecKeyDerive_ok :
    (ctx.codecKeyDerive p g (Env.allOk.onFile page1)).1 = .ok :=
  codecKeyDerive_of_derivesKeys (Env.allOk_fine.onFile page1).derivesKeys h.material

theorem CodecCtx.Unlockable.fits (pgno : Pgno) :
    ctx.Fits pgno := h.wf.fits (.inr ⟨h.header, h.room⟩)

theorem CodecCtx.Unlockable.unlocked_keyed :
    (ctx.unlocked p g page1).Keyed 1 (ctx.unlocked p g page1) := by
  have hframe : ctx.KeyFrame (ctx.unlocked p g page1) := codecKeyDerive_frame p g _ ctx
  have hder : (ctx.unlocked p g page1).KeysDerived := codecKeyDerive_derived h.codecKeyDerive_ok
  have hsalt : (ctx.unlocked p g page1).HasSalt := h.hasSalt.codecKeyDerive
  refine ⟨hframe.error.trans h.error, ?_, hder, hsalt (.inl hder.1), rfl,
    .refl _, fun _ => ⟨rfl, fun _ => rfl⟩⟩
  obtain ⟨k, hk⟩ := hframe
  rw [hk]
  exact h.header

end

theorem unlocked_sameFormat (ctx : CodecCtx) (page1 : Bytes) (pgno : Pgno) :
    ctx.SameFormat pgno (ctx.unlocked p g page1) :=
  (codecKeyDerive_frame p g _ ctx).sameFormat

theorem CodecCtx.SameFormat.all (h : ctx.SameFormat 1 c) (pgno : Pgno) : ctx.SameFormat pgno c :=
  { h with header := fun _ => h.header rfl }

/-! ## Content -/

/-- `img` is an image of page `pgno` under the key of a role, with `stand` for a hidden header and
the content of `D`. -/
structure CodecCtx.Keeps (p : Provider) (g : Globals) (ctx : CodecCtx) (role : CipherRole)
    (pgno : Pgno) (stand D img : Bytes) : Prop where
  stores : ∃ P L, ctx.Stores p g role pgno stand P img L ∧ P.length = ctx.pageSz ∧
    ctx.usable P = ctx.usable D
  magic : pgno = 1 → ctx.plaintextHeaderSz = 0 → slice D 0 fileHeaderSz = sqliteFileHeader

theorem CodecCtx.Keeps.length (h : ctx.Keeps p g role pgno stand D img) :
    img.length = ctx.pageSz := by
  obtain ⟨P, L, hs, -⟩ := h.stores
  exact hs.length

theorem CodecCtx.Keeps.transport (h : ctx.Keeps p g role pgno stand D img) (hf : ctx.SameFormat 1 c)
    (hk : ctx.SameKeys role c role') : c.Keeps p g role' pgno stand D img := by
  obtain ⟨⟨P, L, hs, hP, huse⟩, hmagic⟩ := h
  refine ⟨⟨P, L, hs.transport (hf.all pgno) hk, hP.trans hf.pageSz.symm, ?_⟩, fun h1 h0 => ?_⟩
  · rw [hf.usable_eq, hf.usable_eq, huse]
  · exact hmagic h1 ((hf.header rfl).symm.trans h0)

/-- The content of a page whose usable part is that of `D` starts with the same header. -/
theorem CodecCtx.Wf.slice_of_usable (w : ctx.Wf p) (h : ctx.usable P = ctx.usable D)
    (hle : off + len ≤ 256) : slice P off len = slice D off len := by
  have := w.pageSz_ge
  have := w.reserveSz_le
  exact slice_congr_of_le h (Nat.zero_le _) (by omega)

/-! ## The states of a context while pages pass through it -/

/-- `c` is well formed and has the format of `c₀`. -/
structure CodecCtx.Framed (p : Provider) (c₀ c : CodecCtx) : Prop where
  wf : c.Wf p
  format : c₀.SameFormat 1 c

/-- A state of `c₀` on a file that starts with `page1`: untouched, with its keys, or in error for a
reason `F`. -/
structure CodecCtx.Follows (p : Provider) (g : Globals) (c₀ : CodecCtx) (page1 : Bytes) (F : Prop)
    (c : CodecCtx) : Prop extends CodecCtx.Framed p c₀ c where
  phase : c.error = .ok ∧ (c = c₀ ∨ (c₀.unlocked p g page1).Keyed 1 c) ∨ c.error ≠ .ok ∧ F

variable {c₀ : CodecCtx} {page1 P : Bytes} {F : Prop} {mode : CodecOp} {r : CodecResult}

theorem CodecCtx.Unlockable.follows (h₀ : c₀.Unlockable p) : c₀.Follows p g page1 F c₀ :=
  ⟨⟨h₀.wf, .refl _⟩, .inl ⟨h₀.error, .inl rfl⟩⟩

theorem CodecCtx.Framed.call (h : c₀.Framed p c) (hr : sqlite3Codec p g e c P pgno mode = some r) :
    c₀.Framed p r.ctx :=
  have hframe := sqlite3Codec_frame hr
  ⟨hframe.wf h.wf, h.format.trans hframe.sameFormat⟩

theorem CodecCtx.Framed.exists_layout (h : c₀.Framed p c) (h₀ : c₀.Unlockable p) (pgno : Pgno) :
    ∃ L, c.HasLayout p pgno L := by
  obtain ⟨L, hL⟩ := h₀.wf.exists_layout (h₀.fits pgno)
  exact ⟨L, hL.of_sameFormat (h.format.all pgno)⟩

/-- With room for the header, every call on a whole page is defined. -/
theorem CodecCtx.Framed.exists_sqlite3Codec (h : c₀.Framed p c) (h₀ : c₀.Unlockable p)
    (hP : P.length = c.pageSz) (e : Env) (pgno : Pgno) (mode : CodecOp) :
    ∃ r, sqlite3Codec p g e c P pgno mode = some r := by
  obtain ⟨L, hL⟩ := h.exists_layout h₀ pgno
  by_cases hc : c.error = .ok
  · cases hready : c.ready p g e with
    | none =>
      obtain ⟨hbad, -⟩ | ⟨c', heq, -⟩ := sqlite3Codec_of_not_ready hready P pgno mode
      · exact absurd hc hbad
      · exact ⟨_, heq⟩
    | some c' =>
      have hrd := readied_of_ready hready
      cases mode with
      | read =>
        rw [sqlite3Codec_of_ready hready]
        obtain ⟨hw, hdr, hpg, -⟩ := hrd.geometry h.wf pgno
        obtain ⟨page, c'', heq, -⟩ := (hL.of_sameFormat hrd.frame.sameFormat).codecRead_outcome
          (g := g) (e := e) hw hdr (hP.trans hpg.symm)
        exact ⟨_, heq⟩
      | write => exact exists_sqlite3Codec_encrypt h.wf rfl hP fun _ _ => hL.fits
      | journal => exact exists_sqlite3Codec_encrypt h.wf rfl hP fun _ _ => hL.fits
      | unsupported m => exact ⟨_, sqlite3Codec_of_ready hready P pgno _⟩
  · exact ⟨_, sqlite3Codec_of_error hc hP mode⟩

namespace CodecCtx.Follows

variable (h : c₀.Follows p g page1 F c) (h₀ : c₀.Unlockable p)
  (hsalt : c = c₀ → c₀.SameSalt e (Env.allOk.onFile page1))
include h h₀ hsalt

theorem keyed_of_ready (hready : c.ready p g e = some c') : (c₀.unlocked p g page1).Keyed 1 c' := by
  have hc := (readied_of_ready hready).error
  obtain rfl | hk := (h.phase.resolve_right fun hbad => hbad.1 hc).2
  · have hkeys := codecKeyDerive_of_ready hready
    have heq : c' = c.unlocked p g page1 := (congrArg Prod.snd hkeys).symm.trans
      (codecKeyDerive_congr (hsalt rfl) (congrArg Prod.fst hkeys) h₀.codecKeyDerive_ok)
    rw [heq]
    exact h₀.unlocked_keyed
  · rw [ready_of_derived hc hk.header hk.derived] at hready
    cases hready
    exact hk.dropPass

theorem keyed_of_call (hP : P.length = c.pageSz) (hr : sqlite3Codec p g e c P pgno mode = some r)
    (herr : r.ctx.error = .ok) : (c₀.unlocked p g page1).Keyed 1 r.ctx := by
  have hc := error_of_sqlite3Codec hP hr herr
  cases hready : c.ready p g e with
  | none =>
    obtain ⟨hbad, -⟩ | ⟨c', heq, hbad, -⟩ := sqlite3Codec_of_not_ready hready P pgno mode
    · exact absurd hc hbad
    · cases heq.symm.trans hr
      exact absurd herr hbad
  | some c' =>
    have hk := h.keyed_of_ready h₀ hsalt hready
    have hsalted : (c'.salted e pgno).2 = c' := by
      rw [CodecCtx.salted, CodecCtx.initKdfSalt, if_pos hk.hasSalt, ite_self]
    rw [sqlite3Codec_of_ready hready] at hr
    have hu := codecMode_frame hr
    rw [hsalted, or_self] at hu
    have hstage : c'.KeyStage p g e pgno c' := .untouched
    exact hk.call hstage hu herr

theorem call (hP : P.length = c.pageSz) (hr : sqlite3Codec p g e c P pgno mode = some r)
    (hF : r.ctx.error ≠ .ok → F) : c₀.Follows p g page1 F r.ctx := by
  refine ⟨h.toFramed.call hr, ?_⟩
  by_cases herr : r.ctx.error = .ok
  · exact .inl ⟨herr, .inr (h.keyed_of_call h₀ hsalt hP hr herr)⟩
  · exact .inr ⟨herr, hF herr⟩

omit hsalt in
theorem exists_ready (hc : c.error = .ok) (he : e.Fine) : ∃ c', c.ready p g e = some c' := by
  obtain rfl | hk := (h.phase.resolve_right fun hbad => hbad.1 hc).2
  · refine ⟨(c.codecKeyDerive p g e).2, if_pos ⟨hc, ?_, ?_⟩⟩
    · exact codecKeyDerive_of_derivesKeys he.derivesKeys h₀.material
    · obtain ⟨k, hk⟩ := codecKeyDerive_frame p g e c
      rw [hk]
      exact h₀.header
  · exact ⟨_, ready_of_derived hc hk.header hk.derived⟩

/-- A page is encrypted under the keys of `unlocked`, or something has failed. -/
theorem encrypt (hrole : mode.role? = some role) (hP : P.length = c.pageSz) (hfault : ¬ e.Fine → F)
    (hr : sqlite3Codec p g e c P pgno mode = some r) :
    c₀.Follows p g page1 F r.ctx ∧
      (r.out = none ∧ r.ctx.error ≠ .ok ∧ F ∨ ∃ img L, r.out = some img ∧ r.ctx.error = .ok ∧
        (c₀.unlocked p g page1).Keyed 1 r.ctx ∧
        (c₀.unlocked p g page1).Stores p g role pgno
          (c₀.unlocked p g page1).kdfSalt.1 P img L) := by
  obtain ⟨-, ⟨hout, hbad⟩ | ⟨img, c', L, rfl, henc⟩⟩ := sqlite3Codec_encrypt h.wf hrole hP hr
  · have hF : F := by
      by_contra hF
      have he : e.Fine := by
        by_contra he
        exact hF (hfault he)
      have hc : c.error = .ok := by
        by_contra hc
        exact hF (h.phase.resolve_left fun hok => hc hok.1).2
      obtain ⟨c', hready⟩ := h.exists_ready h₀ hc he
      obtain ⟨rnd, hrnd⟩ := Option.isSome_iff_exists.mp he.random
      obtain ⟨L, hL⟩ := h.toFramed.exists_layout h₀ pgno
      obtain ⟨img, c'', L, heq, -⟩ := exists_encrypts h.wf hrole hP hL.fits hready
        (salted_of_derivesKeys he.derivesKeys c' pgno) hrnd (he.providerOk c)
      cases heq.symm.trans hr
      cases hout
    exact ⟨h.call h₀ hsalt hP hr fun _ => hF, .inl ⟨hout, hbad, hF⟩⟩
  · have herr : ({ c' with buffer := img }.markKeyUsed).error = .ok :=
      henc.readied.frame.error.trans henc.readied.error
    have hk := h.keyed_of_call h₀ hsalt hP hr herr
    refine ⟨h.call h₀ hsalt hP hr fun hbad => absurd herr hbad, .inr ⟨img, L, rfl, herr, hk, ?_⟩⟩
    have hstores := henc.stores
    rw [show c'.kdfSalt = (c₀.unlocked p g page1).kdfSalt from hk.salt] at hstores
    refine hstores.transport
      ((c'.sameFormat_markKeyUsed img).trans ((hk.format.all pgno).symm)) ⟨?_, fun hh => ?_⟩
    · rw [← (hk.keys role).key]
      cases role <;> rfl
    · rw [← (hk.keys role).hmacKey (hk.format.hmac.symm.trans hh)]
      cases role <;> rfl

/-- An image is read back, or something has failed, unnoticed only if the header covers the page. -/
theorem read (hX : (c₀.unlocked p g page1).Keeps p g .read pgno stand D X) (hfault : ¬ e.Fine → F)
    (hrecovery : c₀.plaintextHeaderSz = (c₀.pageSz : Int) - c₀.reserveSz → ¬ F)
    (hr : sqlite3Codec p g e c X pgno .read = some r) :
    c₀.Follows p g page1 F r.ctx ∧
      (r.out = none ∧ r.ctx.error ≠ .ok ∧ F ∨ ∃ page, r.out = some page ∧
        page.length = c₀.pageSz ∧ (r.ctx.error = .ok → c₀.usable page = c₀.usable D)) := by
  have hXlen : X.length = c.pageSz :=
    hX.length.trans ((unlocked_sameFormat c₀ page1 1).pageSz.trans h.format.pageSz.symm)
  suffices hs : (r.ctx.error ≠ .ok → F) ∧ (r.out = none ∧ r.ctx.error ≠ .ok ∨
      ∃ page, r.out = some page ∧ page.length = c₀.pageSz ∧
        (r.ctx.error = .ok → c₀.usable page = c₀.usable D)) from
    ⟨h.call h₀ hsalt hXlen hr hs.1, hs.2.imp_left fun hn => ⟨hn.1, hn.2, hs.1 hn.2⟩⟩
  by_cases hc : c.error = .ok
  · cases hready : c.ready p g e with
    | none =>
      have hF : F := by
        by_contra hF
        obtain ⟨c', hc'⟩ := h.exists_ready h₀ hc (by_contra fun he => hF (hfault he))
        cases hready.symm.trans hc'
      obtain ⟨hbad, -⟩ | ⟨c', heq, hbad, -⟩ := sqlite3Codec_of_not_ready hready X pgno .read
      · exact absurd hc hbad
      · cases heq.symm.trans hr
        exact ⟨fun _ => hF, .inl ⟨rfl, hbad⟩⟩
    | some c' =>
      have hk := h.keyed_of_ready h₀ hsalt hready
      obtain ⟨hw, -, -, -⟩ := (readied_of_ready hready).geometry h.wf pgno
      obtain ⟨⟨P, L, hs, hP, huse⟩, hmagic⟩ := hX.transport hk.format (hk.keys .read)
      have hformat : c₀.SameFormat 1 c' := h.format.trans (readied_of_ready hready).frame.sameFormat
      obtain ⟨page, c'', hread, hlen, hcase⟩ := hs.read_cases (e := e) hw hk.header hP
        fun h1 h0 => (hw.slice_of_usable huse (by decide)).trans (hmagic h1 h0)
      rw [sqlite3Codec_of_ready hready] at hr
      cases hread.symm.trans hr
      obtain ⟨rfl, huse'⟩ | ⟨hprov, hcase⟩ := hcase
      · refine ⟨fun hbad => absurd hk.error hbad, .inr ⟨page, rfl, hlen.trans hformat.pageSz, ?_⟩⟩
        intro _
        rw [hs.layout.usable_eq, hs.layout.usable_eq, huse, hformat.usable_eq,
          hformat.usable_eq] at huse'
        exact huse'
      · have hF : F := hfault fun he => by cases (he.providerOk c').symm.trans hprov
        rw [hformat.header rfl, hformat.pageSz, hformat.reserveSz] at hcase
        have hbad := hcase.resolve_left fun hsp => hrecovery hsp hF
        exact ⟨fun _ => hF, .inr ⟨page, rfl, hlen.trans hformat.pageSz, fun hok => absurd hok hbad⟩⟩
  · have hF : F := (h.phase.resolve_left fun hok => hc hok.1).2
    rw [sqlite3Codec_of_error hc hXlen] at hr
    cases hr
    exact ⟨fun _ => hF, .inr ⟨_, rfl, (length_zeros _).trans h.format.pageSz,
      fun hok => absurd hok hc⟩⟩

end CodecCtx.Follows

/-! ## Later writes -/

/-- Whatever pages pass through the context `c₀` from now on, those written are stored under the key
of `K`. -/
def CodecCtx.WritesUnder (p : Provider) (g : Globals) (K c₀ : CodecCtx) (page1 : Bytes) : Prop :=
  ∀ sharable ops s,
    (∀ o ∈ ops, o.2.isPage = true ∧ c₀.SameSalt o.1 (Env.allOk.onFile page1)) →
    Run.exec (Session.step p) ⟨g, some c₀, sharable⟩ ops = some s →
    ∃ c, s.codec = some c ∧ ∀ e P pgno r img, c₀.SameSalt e (Env.allOk.onFile page1) →
      P.length = c.pageSz → sqlite3Codec p g e c P pgno .write = some r → r.out = some img →
      ∃ L, K.Stores p g .write pgno K.kdfSalt.1 P img L

/-- A page operation takes a context to another state of the same keys. -/
theorem Session.step_follows {s s' : Session} (h₀ : c₀.Unlockable p)
    (ho : o.2.isPage = true ∧ c₀.SameSalt o.1 (Env.allOk.onFile page1))
    (h : s.globals = g ∧ ∃ c, s.codec = some c ∧ c₀.Follows p g page1 True c)
    (hstep : s.step p o = some s') :
    s'.globals = g ∧ ∃ c, s'.codec = some c ∧ c₀.Follows p g page1 True c := by
  obtain ⟨hg, c, hc, hf⟩ := h
  obtain ⟨e, op⟩ := o
  obtain ⟨hpage, hsalt⟩ := ho
  cases op with
  | page P pgno mode =>
    simp only [Session.step, hc] at hstep
    split_ifs at hstep with hlen
    obtain ⟨r, hr, rfl⟩ := Option.map_eq_some_iff.mp hstep
    rw [hg] at hr
    exact ⟨hg, r.ctx, rfl, hf.call h₀ (fun _ => hsalt) hlen hr fun _ => trivial⟩
  | _ => cases hpage

theorem CodecCtx.Unlockable.writesUnder (h₀ : c₀.Unlockable p) (page1 : Bytes) :
    (c₀.unlocked p g page1).WritesUnder p g c₀ page1 := by
  intro sharable ops s hops hrun
  let I (s : Session) : Prop := s.globals = g ∧ ∃ c, s.codec = some c ∧ c₀.Follows p g page1 True c
  have hstart : I ⟨g, some c₀, sharable⟩ := ⟨rfl, c₀, rfl, h₀.follows⟩
  obtain ⟨-, c, hc, hf⟩ : I s := Run.exec_invariant
    (fun _ _ _ h ho hs => Session.step_follows h₀ ho h hs) hstart (Run.along_of_forall hops _) hrun
  refine ⟨c, hc, fun e P pgno r img hsalt hP hr hout => ?_⟩
  have hrole : CodecOp.role? .write = some .write := rfl
  obtain ⟨-, ⟨hnone, -⟩ | ⟨img', L, hout', -, -, hs⟩⟩ :=
    hf.encrypt h₀ (fun _ => hsalt) hrole hP (fun _ => trivial) hr
  · cases hnone.symm.trans hout
  · cases hout'.symm.trans hout
    exact ⟨L, hs⟩

theorem CodecCtx.WritesUnder.transport {K K' : CodecCtx} (h : K.WritesUnder p g c₀ page1)
    (hf : K.SameFormat 1 K') (hk : K.SameKeys .write K' .write) (hs : K'.kdfSalt = K.kdfSalt) :
    K'.WritesUnder p g c₀ page1 := by
  intro sharable ops s hops hrun
  obtain ⟨c, hc, hwrite⟩ := h sharable ops s hops hrun
  refine ⟨c, hc, fun e P pgno r img hsalt hP hr hout => ?_⟩
  obtain ⟨L, hL⟩ := hwrite e P pgno r img hsalt hP hr hout
  rw [hs]
  exact ⟨L, hL.transport (hf.all pgno) hk⟩

end SqlCipher
