import SqlCipher.Codec.Keyed

/-!
# Settings under a used key

Once a key has been used, keying again and most settings are ignored. What remains open is the
plaintext header size, which concerns page 1 only, and the byte order of page numbers, which
concerns every page. Some pragmas record an error: an unknown algorithm label, a header size out of
range, and a b-tree that refuses the page size. Nothing else makes a page unreadable that the
context wrote before (`still_decrypts`).
-/

namespace SqlCipher

open Buffer SealedPage Option CodecCtx Session

variable {p : Provider} {g : Globals} {e : Env} {ctx c : CodecCtx} {pgno : Pgno}

/-- The pragma does not change the byte order of page numbers, and has no unknown label or header
size out of range. -/
def Pragma.Accepted (p : Provider) (ctx : CodecCtx) : Pragma → Prop
  | .cipherHmacPgno order => (ctx.setHmacPgno order).flags = ctx.flags
  | .cipherHmacAlgorithm label => label.isSome = true
  | .cipherKdfAlgorithm label => label.isSome = true
  | .cipherPlaintextHeaderSize n =>
    0 ≤ n ∧ n % p.blockSz = 0 ∧ n ≤ (ctx.pageSz : Int) - ctx.reserveSz
  | _ => True

/-- Under a used key an accepted pragma can set whether passphrases are kept and the length of the
header; the integrity check uses the buffer. -/
theorem Pragma.onCtx_of_used {pragma : Pragma} (hu : ctx.flags.keyUsed = true)
    (hsalt : ctx.flags.hasKdfSalt = true) (hset : e.setPageSize = .ok)
    (hacc : pragma.Accepted p ctx) (h : pragma.onCtx p e g ctx = some c) :
    (∃ storePass header, (header = ctx.plaintextHeaderSz ∨ 0 ≤ header) ∧
      c = { ctx with storePass := storePass, plaintextHeaderSz := header }) ∨
    ∃ f r, ctx.integrityCheck p g e f = some r ∧ c = r.2 := by
  have hsame {c : CodecCtx} (h : c = ctx) : ∃ storePass header,
      (header = ctx.plaintextHeaderSz ∨ 0 ≤ header) ∧
        c = { ctx with storePass := storePass, plaintextHeaderSz := header } :=
    ⟨ctx.storePass, ctx.plaintextHeaderSz, .inl rfl, h⟩
  cases pragma with
  | cipherIntegrityCheck f =>
    obtain ⟨r, hr, rfl⟩ := map_eq_some_iff.mp h
    exact .inr ⟨f, r, hr, rfl⟩
  | cipherStorePass on => exact .inl ⟨on, _, .inl rfl, (some.inj h).symm⟩
  | cipherPlaintextHeaderSize n =>
    refine .inl ⟨ctx.storePass, n, .inr hacc.1, (some.inj h).symm.trans ?_⟩
    rw [setPlaintextHeaderSize, if_pos ⟨hacc.1, hacc.2.1, hacc.2.2⟩]
  | cipherHmacPgno order =>
    refine .inl (hsame ((some.inj h).symm.trans ?_))
    obtain _ | _ | _ | _ := order
    · rfl
    all_goals exact congrArg (fun flags => { ctx with flags := flags }) hacc
  | cipherHmacAlgorithm label | cipherKdfAlgorithm label =>
    obtain ⟨a, rfl⟩ := isSome_iff_exists.mp hacc
    refine .inl (hsame ((some.inj h).symm.trans ?_))
    simp [noteSqliteError, byLabel, setHmacAlgorithm, setKdfAlgorithm, unlessKeyUsed, hu, hset]
  | cipherPageSize n | cipherUseHmac n | cipherCompatibility n | kdfIter n | fastKdfIter n =>
    refine .inl (hsame ((some.inj h).symm.trans ?_))
    simp [noteError, noteSqliteError, setPagesize, setUseHmac, ctx.setCompatibility_eq, setKdfIter,
      setFastKdfIter, unlessKeyUsed, hu, hset]
  | cipherSalt z =>
    refine .inl (hsame ?_)
    simpa [Pragma.onCtx, setKdfSalt, unlessKeyUsed, hu] using h.symm
  | cipherSaltQuery =>
    refine .inl (hsame ((some.inj h).symm.trans ?_))
    simp [noteError, initKdfSalt, hsalt]
  | _ => exact .inl (hsame (some.inj h).symm)

/-- The context `ctx` handles page `pgno` as `c` does, and a used key protects this. -/
structure CodecCtx.Settled (c : CodecCtx) (pgno : Pgno) (ctx : CodecCtx) : Prop extends
    c.Keyed pgno ctx where
  used : ctx.flags.keyUsed = true

theorem CodecCtx.Settled.call (h : c.Settled pgno ctx) (hs : ctx.KeyStage p g e q c₀)
    (hu : c₀.UseFrame c') (herr : c'.error = .ok) : c.Settled pgno c' := by
  refine ⟨h.toKeyed.call hs hu herr, ?_⟩
  have hused : c₀.flags.keyUsed = true := by
    obtain ⟨k, rfl⟩ := hs.frame
    exact h.used
  obtain ⟨b, used, rc, rfl, -, hmark⟩ := hu
  exact hmark hused

/-- Steps that leave pages readable: keying again, settings that are accepted and that the b-tree
does not refuse, and page operations without an error. -/
def Harmless (p : Provider) (s : Session) (o : Env × Op) : Prop :=
  match o.2 with
  | .attach _ => True
  | .pragma pragma =>
    o.1.setPageSize = .ok ∧ ∀ ctx, s.codec = some ctx → pragma.Accepted p ctx
  | .page pData pgno mode => ∀ ctx r, s.codec = some ctx →
    sqlite3Codec p s.globals o.1 ctx pData pgno mode = some r → r.ctx.error = .ok
  | .setPass _ | .keyCopy => False

def Session.Settled (g : Globals) (c : CodecCtx) (pgno : Pgno) (s : Session) : Prop :=
  s.globals.shieldMask = g.shieldMask ∧ s.globals.bigEndianHost = g.bigEndianHost ∧
    ∃ ctx, s.codec = some ctx ∧ c.Settled pgno ctx

theorem Session.step_settled {s s' : Session} (hpgno : pgno ≠ 1) (h : s.Settled g c pgno)
    (hok : Harmless p s o) (hstep : s.step p o = some s') : s'.Settled g c pgno := by
  obtain ⟨hshield, hhost, ctx, hctx, hset⟩ := h
  obtain ⟨e, op⟩ := o
  cases op with
  | attach zKey =>
    cases hstep
    have hno : ¬ s.takesKey zKey = true := by simp [takesKey, hctx, hset.used]
    rw [attach_of_not_takesKey hno]
    exact ⟨hshield, hhost, ctx, hctx, hset⟩
  | pragma pragma =>
    obtain ⟨hg, hb, -⟩ := pragma.globals_frame s.globals
    simp only [step, hctx, map_eq_some_iff] at hstep
    obtain ⟨c', hc', rfl⟩ := hstep
    refine ⟨hg.trans hshield, hb.trans hhost, c', rfl, ?_⟩
    obtain ⟨storePass, header, hhdr, rfl⟩ | ⟨f, r, hr, rfl⟩ :=
      Pragma.onCtx_of_used hset.used hset.hasSalt hok.1 (hok.2 ctx hctx) hc'
    · refine { hset with header := ?_, format := ?_, keys := sameKeys_of_eq hset.keys rfl rfl }
      · exact hhdr.elim (fun h => h ▸ hset.header) id
      · exact { hset.format with header := fun h1 => absurd h1 hpgno }
    · obtain ⟨c₀, hs, hu⟩ := integrityCheck_stage hr
      exact hset.call hs hu ((integrityCheck_error hr).trans hset.error)
  | page pData q mode =>
    simp only [step, hctx] at hstep
    split_ifs at hstep with hlen
    obtain ⟨r, hr, rfl⟩ := map_eq_some_iff.mp hstep
    obtain ⟨c₀, hs, hu⟩ := sqlite3Codec_stage hr
    exact ⟨hshield, hhost, r.ctx, rfl, hset.call hs hu (hok ctx r hctx hr)⟩
  | setPass zKey => exact hok.elim
  | keyCopy => exact hok.elim

/-- A page other than page 1 that a context of a session encrypted is still decrypted, without an
error, after any harmless steps. -/
theorem still_decrypts (p : Provider) (s₀ : Session) (hs₀ : s₀.Reachable p) (ctx₀ : CodecCtx)
    (hc₀ : s₀.codec = some ctx₀) (e : Env) (mode : CodecOp) (role : CipherRole)
    (hrole : mode.role? = some role) (pgno : Pgno) (hpgno : pgno ≠ 1) (P img : Bytes)
    (hP : P.length = ctx₀.pageSz) (r : CodecResult)
    (hr : sqlite3Codec p s₀.globals e ctx₀ P pgno mode = some r) (hout : r.out = some img)
    (hkeys : r.ctx.SameKeys role r.ctx .read) (ops : List (Env × Op)) (s : Session)
    (hops : Run.Along (step p) (Harmless p) { s₀ with codec := some r.ctx } ops)
    (hrun : Run.exec (step p) { s₀ with codec := some r.ctx } ops = some s) :
    r.ctx.flags.keyUsed = true ∧ ∃ ctx, s.codec = some ctx ∧
      ∀ e', ctx.providerOk e' = true →
        ∃ page c, sqlite3Codec p s.globals e' ctx img pgno .read = some ⟨some page, page, c⟩ ∧
          c.error = .ok ∧
          slice page 0 (ctx₀.pageSz - ctx₀.reserveSz) =
            slice P 0 (ctx₀.pageSz - ctx₀.reserveSz) := by
  have hstep : s₀.step p (e, .page P pgno mode) = some { s₀ with codec := some r.ctx } := by
    simp [step, hc₀, hP, hr]
  have hreach₁ : Reachable p { s₀ with codec := some r.ctx } := hs₀.step hstep
  have hkeyed := keyed_of_encrypt (hs₀.wf hc₀) (hreach₁.hasSalt rfl) hrole hP hr hout
  have hset₁ : Settled s₀.globals r.ctx pgno { s₀ with codec := some r.ctx } :=
    ⟨rfl, rfl, r.ctx, rfl, hkeyed.1, hkeyed.2⟩
  obtain ⟨_, L, hstores, -⟩ := stores_of_encrypt (hs₀.wf hc₀) hP hrole hr hout
  have hstores := hstores.transport (.refl r.ctx) hkeys
  obtain ⟨hshield, hhost, ctx, hctx, hset⟩ := Run.exec_invariant
    (fun _ _ _ h hok hs => step_settled hpgno h hok hs) hset₁ hops hrun
  have w := (hreach₁.exec hrun).wf hctx
  refine ⟨hkeyed.2, ctx, hctx, fun e' hok => ?_⟩
  have hs := (hstores.transport hset.format (hset.keys .read)).of_globals hshield hhost
  have hformat : ctx₀.SameFormat pgno ctx :=
    (sqlite3Codec_frame hr).sameFormat.trans hset.format
  obtain ⟨page, c', hread, herr', -, huse⟩ := hs.sqlite3Codec_read
    (e := e') w hset.error hset.header
    hset.derived (hP.trans hformat.pageSz.symm) (fun h1 => absurd h1 hpgno) hok
  rw [hs.layout.usable_eq, hs.layout.usable_eq, hformat.usable_eq, hformat.usable_eq] at huse
  exact ⟨page, c', hread, herr', huse⟩

def CodecCtx.keyed1024 : CodecCtx :=
  { initial .toy .initial [0x6b] with pageSz := 1024, buffer := zeros 1024 }

def Session.keyed1024 : Session := ⟨.initial, some .keyed1024, false⟩

theorem Session.keyed1024_reachable : keyed1024.Reachable .toy :=
  ⟨.initial, false, [(.allOk, .attach [0x6b]), (.allOk, .pragma (.cipherPageSize 1024))], rfl⟩

/-- Turning HMAC off is ignored once page 2 has been journalled, and page 2 stays readable. -/
theorem still_decrypts_useHmac : ∃ (r : CodecResult) (img page : Bytes) (s : Session)
    (ctx c : CodecCtx),
    sqlite3Codec .toy .initial .allOk .keyed1024 (zeros 1024) 2 .journal = some r ∧
    r.out = some img ∧
    Run.exec (Session.step .toy) { Session.keyed1024 with codec := some r.ctx }
      [(.allOk, .pragma (.cipherUseHmac false))] = some s ∧ s.codec = some ctx ∧
    sqlite3Codec .toy s.globals .allOk ctx img 2 .read = some ⟨some page, page, c⟩ ∧
    c.error = .ok ∧ slice page 0 (1024 - 80) = slice (zeros 1024) 0 (1024 - 80) := by
  have hsome : ((sqlite3Codec .toy .initial .allOk .keyed1024 (zeros 1024) 2 .journal).bind
      CodecResult.out).isSome = true := by decide +kernel
  obtain ⟨img, himg⟩ := isSome_iff_exists.mp hsome
  obtain ⟨r, hr, hout⟩ := bind_eq_some_iff.mp himg
  obtain ⟨-, ctx, hctx, hread⟩ := still_decrypts .toy .keyed1024 Session.keyed1024_reachable
    .keyed1024 rfl .allOk .journal .read rfl 2 (by decide) (zeros 1024) img
      (length_zeros _) r hr hout
    ⟨rfl, fun _ => rfl⟩ [(.allOk, .pragma (.cipherUseHmac false))] _
    ⟨⟨rfl, fun _ _ => trivial⟩, fun _ _ => trivial⟩ rfl
  obtain ⟨page, c, hpage, herr, hsame⟩ := hread .allOk (by simp [providerOk, Env.allOk])
  exact ⟨r, img, page, _, ctx, c, hr, hout, rfl, hctx, hpage, herr, hsame⟩

/-- A page of ones is written as page 2, a pragma given, and page 2 read back: was the key marked as
used, the content, and the error. -/
def rereadAfter (pragma : Pragma) : Option (Bool × Bytes × ResultCode) := do
  let r ← sqlite3Codec .toy .initial .allOk .keyed1024 (List.replicate 1024 1) 2 .write
  let img ← r.out
  let s ← Session.step .toy { Session.keyed1024 with codec := some r.ctx } (.allOk, .pragma pragma)
  let ctx ← s.codec
  let r' ← sqlite3Codec .toy s.globals .allOk ctx img 2 .read
  let page ← r'.out
  return (r.ctx.flags.keyUsed, slice page 0 (1024 - 80), r'.ctx.error)

/-- `cipher_hmac_pgno` has no guard against a used key: the page fails its HMAC check. An unknown
label of `cipher_kdf_algorithm` is recorded as an error. Either way the page, which a reporting
pragma leaves readable, is lost to this context. -/
theorem not_still_decrypts :
    rereadAfter .query = some (true, List.replicate 944 1, .ok) ∧
      rereadAfter (.cipherHmacPgno (some .be)) = some (true, zeros 944, .error) ∧
      rereadAfter (.cipherKdfAlgorithm none) = some (true, zeros 944, .error) := by
  decide +kernel

end SqlCipher
