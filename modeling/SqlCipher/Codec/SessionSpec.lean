import SqlCipher.Codec.Session

/-!
# What the steps of a session do

`Pragma.onCtx_effect` lists everything a pragma can do to a context, and `Session.step_cases`
everything a step can do. Invariants of sessions are proved from these two lists, without
looking at the setting functions again. The first of them is well-formedness: every context
that a run leads to satisfies `CodecCtx.Wf`.
-/

namespace SqlCipher

open Buffer Option CodecCtx Session

variable {p : Provider} {g : Globals} {e : Env} {ctx c : CodecCtx} {f : CheckEnv}
  {r : List IntegrityReport × CodecCtx} {s s' : Session} {zKey : Bytes} {o : Env × Op}

theorem compatibility_validPageSize (version : Int) :
    validPageSize (compatibility version).pageSize = true := by
  unfold compatibility
  split_ifs <;> decide

/-- All five settings take effect, or under a used key none. -/
theorem CodecCtx.setCompatibility_eq (ctx : CodecCtx) (version : Int) :
    ctx.setCompatibility p (compatibility version) =
      if ctx.flags.keyUsed then ctx
      else
        let s := compatibility version
        { ctx with
          pageSz := s.pageSize.toNat, buffer := zeros s.pageSize.toNat
          hmacAlgorithm := s.hmacAlgorithm, hmacSz := p.hmacSz s.hmacAlgorithm
          reserveSz := p.reserve s.useHmac s.hmacAlgorithm, kdfAlgorithm := s.kdfAlgorithm
          kdfIter := s.kdfIter, flags := { ctx.flags with hmac := s.useHmac }
          readCtx := { ctx.readCtx with deriveKey := true }
          writeCtx := { ctx.writeCtx with deriveKey := true } } := by
  have hv := compatibility_validPageSize version
  generalize compatibility version = s at *
  cases hu : ctx.flags.keyUsed <;>
    simp [setCompatibility, noteSqliteError, setPagesize, setHmacAlgorithm, setKdfAlgorithm,
      setKdfIter, setUseHmac, unlessKeyUsed, reserveSetup, setDeriveKey, hu, hv]

/-- The effects of pragmas on a context, but for errors. Settings that a used key blocks have one
only without it. -/
inductive Pragma.Effect (p : Provider) (g : Globals) (e : Env) (ctx : CodecCtx) :
    Pragma → CodecCtx → Prop where
  | nothing (pragma : Pragma) : Effect p g e ctx pragma ctx
  | storePass (on : Bool) : Effect p g e ctx (.cipherStorePass on) { ctx with storePass := on }
  | kdfIter (n : Int) (hu : ctx.flags.keyUsed = false) :
      Effect p g e ctx (.kdfIter n) ({ ctx with kdfIter := n }.setDeriveKey true)
  | fastKdfIter (n : Int) (hu : ctx.flags.keyUsed = false) :
      Effect p g e ctx (.fastKdfIter n) ({ ctx with fastKdfIter := n }.setDeriveKey true)
  | pageSize (n : Int) (hu : ctx.flags.keyUsed = false) (hv : validPageSize n = true) :
      Effect p g e ctx (.cipherPageSize n) { ctx with pageSz := n.toNat, buffer := zeros n.toNat }
  | useHmac (on : Bool) (hu : ctx.flags.keyUsed = false) :
      Effect p g e ctx (.cipherUseHmac on)
        ({ ctx with flags := { ctx.flags with hmac := on } }.reserveSetup p).2
  | hmacAlgorithm (a : HmacAlgorithm) (hu : ctx.flags.keyUsed = false) :
      Effect p g e ctx (.cipherHmacAlgorithm (some a))
        ({ ctx with hmacAlgorithm := a }.reserveSetup p).2
  | kdfAlgorithm (a : KdfAlgorithm) (hu : ctx.flags.keyUsed = false) :
      Effect p g e ctx (.cipherKdfAlgorithm (some a)) { ctx with kdfAlgorithm := a }
  | salt (z : Bytes) (hu : ctx.flags.keyUsed = false)
      (hz : isBlobLiteral z (fileHeaderSz * 2 + 3) = true) :
      Effect p g e ctx (.cipherSalt z)
        { ctx with
          kdfSalt := Salt.ofBytes (cipherHex2bin (slice z 2 (fileHeaderSz * 2)))
          flags := { ctx.flags with hasKdfSalt := true } }
  | compatibility (version : Int) (hu : ctx.flags.keyUsed = false) :
      Effect p g e ctx (.cipherCompatibility version)
        (ctx.setCompatibility p (SqlCipher.compatibility version))
  | header (n : Int) (size : Int)
      (h : size = -1 ∨ 0 ≤ size ∧ size % p.blockSz = 0 ∧
        size ≤ (ctx.pageSz : Int) - ctx.reserveSz) :
      Effect p g e ctx (.cipherPlaintextHeaderSize n) { ctx with plaintextHeaderSz := size }
  | hmacPgno (order : Option HmacPgno) (le be : Bool) :
      Effect p g e ctx (.cipherHmacPgno order)
        { ctx with flags := { ctx.flags with lePgno := le, bePgno := be } }
  | saltQuery : Effect p g e ctx .cipherSaltQuery (ctx.initKdfSalt e).2
  | check (f : CheckEnv) (r : List IntegrityReport × CodecCtx)
      (h : ctx.integrityCheck p g e f = some r) :
      Effect p g e ctx (.cipherIntegrityCheck f) r.2

/-- A setting under the guard has its effect without a used key, and else none. -/
theorem unlessKeyUsed_cases (ctx : CodecCtx) (f : CodecCtx → ResultCode × CodecCtx) :
    (ctx.unlessKeyUsed f).2 = ctx ∨
      ctx.flags.keyUsed = false ∧ (ctx.unlessKeyUsed f).2 = (f ctx).2 := by
  unfold unlessKeyUsed
  split
  · exact .inl rfl
  · exact .inr ⟨Bool.eq_false_iff.mpr ‹_›, rfl⟩

/-- The context after an effect, with an error that is only ever added. -/
def CodecCtx.Noted (c₀ c : CodecCtx) : Prop :=
  ∃ rc, c = c₀.setError rc ∧ (c₀.error ≠ .ok → rc ≠ .ok)

theorem CodecCtx.Noted.refl (c : CodecCtx) : c.Noted c := ⟨c.error, rfl, id⟩

theorem CodecCtx.Noted.trans {a b c : CodecCtx} (h : a.Noted b) (h' : b.Noted c) : a.Noted c := by
  obtain ⟨rc, rfl, hrc⟩ := h
  obtain ⟨rc', rfl, hrc'⟩ := h'
  exact ⟨rc', rfl, fun herr => hrc' (hrc herr)⟩

theorem noted_noteError (r : ResultCode × CodecCtx) : r.2.Noted (noteError r) := by
  unfold noteError
  split_ifs with h
  · exact ⟨r.1, rfl, fun _ => h⟩
  · exact .refl r.2

theorem noted_noteSqliteError (r : ResultCode × CodecCtx) : r.2.Noted (noteSqliteError r) := by
  unfold noteSqliteError
  split_ifs
  · exact ⟨.error, rfl, fun _ => ResultCode.noConfusion⟩
  · exact .refl r.2

/-- Everything a pragma can do to a context. -/
theorem Pragma.onCtx_effect {pragma : Pragma} (h : pragma.onCtx p e g ctx = some c) :
    ∃ c₀, pragma.Effect p g e ctx c₀ ∧ c₀.Noted c := by
  -- a guarded setting either does nothing or has the effect of its function
  have guarded {f : CodecCtx → ResultCode × CodecCtx}
      (hf : ctx.flags.keyUsed = false → pragma.Effect p g e ctx (f ctx).2) :
      pragma.Effect p g e ctx (ctx.unlessKeyUsed f).2 := by
    obtain heq | ⟨hu, heq⟩ := unlessKeyUsed_cases ctx f
    · exact heq.symm ▸ .nothing pragma
    · exact heq.symm ▸ hf hu
  cases pragma with
  | cipherStorePass on => exact ⟨_, .storePass on, some.inj h ▸ .refl _⟩
  | kdfIter n => exact ⟨(ctx.setKdfIter n).2, guarded (.kdfIter n), some.inj h ▸ .refl _⟩
  | fastKdfIter n =>
    exact ⟨(ctx.setFastKdfIter n).2, guarded (.fastKdfIter n), some.inj h ▸ .refl _⟩
  | cipherPageSize n =>
    refine ⟨(ctx.setPagesize n).2, guarded fun hu => ?_,
      some.inj h ▸ (noted_noteError _).trans (noted_noteError (e.setPageSize, _))⟩
    split_ifs with hv
    · exact .pageSize n hu hv
    · exact .nothing _
  | cipherUseHmac on =>
    exact ⟨(ctx.setUseHmac p on).2, guarded (.useHmac on),
      some.inj h ▸ (noted_noteError _).trans (noted_noteError (e.setPageSize, _))⟩
  | cipherHmacPgno order =>
    cases h
    obtain _ | _ | _ | _ := order
    · exact ⟨ctx, .nothing _, .refl _⟩
    · exact ⟨_, .hmacPgno _ true false, .refl _⟩
    · exact ⟨_, .hmacPgno _ false true, .refl _⟩
    · exact ⟨_, .hmacPgno _ false false, .refl _⟩
  | cipherPlaintextHeaderSize n =>
    cases h
    unfold setPlaintextHeaderSize
    split_ifs with hn
    · exact ⟨_, .header n n (.inr hn), .refl _⟩
    · exact ⟨_, .header n (-1) (.inl rfl), .refl _⟩
  | cipherSalt z =>
    simp only [Pragma.onCtx] at h
    split_ifs at h with hz
    · refine ⟨c, some.inj h ▸ guarded fun hu => ?_, .refl c⟩
      split_ifs
      · exact .salt z hu hz
      · exact .nothing _
    · exact ⟨ctx, .nothing _, some.inj h ▸ .refl _⟩
  | cipherSaltQuery => exact ⟨_, .saltQuery, some.inj h ▸ noted_noteError _⟩
  | cipherHmacAlgorithm label =>
    refine ⟨(ctx.byLabel (ctx.setHmacAlgorithm p) label).2, ?_, some.inj h ▸
      (noted_noteSqliteError _).trans (noted_noteSqliteError (e.setPageSize, _))⟩
    cases label with
    | none => exact .nothing _
    | some a =>
      change Effect p g e ctx _ (ctx.setHmacAlgorithm p a).2
      exact guarded (.hmacAlgorithm a)
  | cipherKdfAlgorithm label =>
    refine ⟨(ctx.byLabel ctx.setKdfAlgorithm label).2, ?_, some.inj h ▸ noted_noteSqliteError _⟩
    cases label with
    | none => exact .nothing _
    | some a =>
      change Effect p g e ctx _ (ctx.setKdfAlgorithm a).2
      exact guarded (.kdfAlgorithm a)
  | cipherCompatibility version =>
    refine ⟨ctx.setCompatibility p (SqlCipher.compatibility version), ?_,
      some.inj h ▸ noted_noteSqliteError (e.setPageSize, _)⟩
    cases hu : ctx.flags.keyUsed with
    | true =>
      rw [ctx.setCompatibility_eq, if_pos hu]
      exact .nothing _
    | false => exact .compatibility version hu
  | cipherIntegrityCheck f =>
    obtain ⟨r, hr, rfl⟩ := map_eq_some_iff.mp h
    exact ⟨_, .check f r hr, .refl _⟩
  | _ => exact ⟨ctx, .nothing _, some.inj h ▸ .refl _⟩

theorem Pragma.globals_frame (pragma : Pragma) (g : Globals) :
    (pragma.saltMask (pragma.onGlobals g)).shieldMask = g.shieldMask ∧
      (pragma.saltMask (pragma.onGlobals g)).bigEndianHost = g.bigEndianHost ∧
      (pragma.saltMask (pragma.onGlobals g)).hmacSaltMask = (pragma.saltMask g).hmacSaltMask := by
  cases pragma with
  | cipherHmacSaltMask z =>
    simp only [Pragma.onGlobals, Pragma.saltMask]
    split <;> exact ⟨rfl, rfl, trivial⟩
  | cipherDefaultHmacAlgorithm label => cases label <;> exact ⟨rfl, rfl, rfl⟩
  | cipherDefaultKdfAlgorithm label => cases label <;> exact ⟨rfl, rfl, rfl⟩
  | _ => exact ⟨rfl, rfl, rfl⟩

theorem integrityCheck_stage (h : ctx.integrityCheck p g e f = some r) :
    ∃ c, ctx.KeyStage p g e 1 c ∧ c.UseFrame r.2 := by
  obtain ⟨c, b, hc, heq, hlen⟩ := integrityCheck_frame h
  rw [heq]
  obtain rfl | rfl := hc
  · exact ⟨c, .untouched, c.useFrame_setError hlen c.error⟩
  · exact ⟨_, .derived, useFrame_setError _ hlen _⟩

theorem integrityCheck_callFrame (h : ctx.integrityCheck p g e f = some r) : ctx.CallFrame r.2 := by
  obtain ⟨c, hstage, huse⟩ := integrityCheck_stage h
  exact ⟨c, hstage.frame, huse⟩

theorem CodecCtx.KeyFrame.error (h : ctx.KeyFrame c) : c.error = ctx.error := by
  obtain ⟨k, rfl⟩ := h
  rfl

theorem integrityCheck_error (h : ctx.integrityCheck p g e f = some r) : r.2.error = ctx.error := by
  obtain ⟨c, b, hc, heq, -⟩ := integrityCheck_frame h
  rw [heq]
  obtain rfl | rfl := hc
  · rfl
  · exact (codecKeyDerive_frame p g e ctx).error

/-- Where the context after a step comes from. -/
inductive Session.CtxStep (p : Provider) (s : Session) (e : Env) : Op → CodecCtx → Prop where
  | fresh (zKey : Bytes) (hkey : zKey ≠ []) (hinit : (codecCtxInit p s.globals zKey).1 = .ok)
      (hunused : ∀ ctx, s.codec = some ctx → ctx.flags.keyUsed = false ∧ s.sharable = false) :
      CtxStep p s e (.attach zKey) (.initial p s.globals zKey)
  | kept (zKey : Bytes) (ctx : CodecCtx) (hc : s.codec = some ctx) :
      CtxStep p s e (.attach zKey) ctx
  | pragma (pragma : Pragma) (ctx c : CodecCtx) (hc : s.codec = some ctx)
      (h : pragma.onCtx p e s.globals ctx = some c) : CtxStep p s e (.pragma pragma) c
  | page (pData : Bytes) (pgno : Pgno) (mode : CodecOp) (ctx : CodecCtx) (r : CodecResult)
      (hc : s.codec = some ctx) (hlen : pData.length = ctx.pageSz)
      (h : sqlite3Codec p s.globals e ctx pData pgno mode = some r) :
      CtxStep p s e (.page pData pgno mode) r.ctx
  | setPass (zKey : Bytes) (ctx : CodecCtx) (hc : s.codec = some ctx) :
      CtxStep p s e (.setPass zKey) (ctx.setPass zKey .write)
  | keyCopy (ctx : CodecCtx) (hc : s.codec = some ctx) : CtxStep p s e .keyCopy ctx.keyCopy

theorem Session.attach_cases (hc : (s.attach p zKey).2.codec = some c) :
    s.CtxStep p e (.attach zKey) c := by
  unfold attach at hc
  dsimp only at hc
  split_ifs at hc with hkey hused hshare hinit
  · exact .kept zKey c hc
  · exact .kept zKey c hc
  · exact .kept zKey c hc
  · cases hc
    rw [(codecCtxInit_ok hinit).1]
    refine .fresh zKey hkey hinit fun ctx hctx => ?_
    simp only [hctx, any_some, isSome_some, Bool.true_and] at hused hshare
    exact ⟨Bool.eq_false_iff.mpr hused, Bool.eq_false_iff.mpr hshare⟩

theorem Session.attach_of_not_takesKey (h : ¬ s.takesKey zKey = true) :
    (s.attach p zKey).2 = s := by
  unfold attach
  dsimp only
  split_ifs with hkey hused hshare
  · rfl
  · rfl
  · rfl
  · simp [takesKey, hkey, hused, hshare] at h
  · simp [takesKey, hkey, hused, hshare] at h

/-- Everything a step can do to the context. -/
theorem Session.step_cases (h : s.step p o = some s') (hc : s'.codec = some c) :
    s.CtxStep p o.1 o.2 c := by
  obtain ⟨e, op⟩ := o
  cases op with
  | attach zKey =>
    cases h
    exact attach_cases hc
  | pragma pragma =>
    simp only [step] at h
    cases hcodec : s.codec with
    | none =>
      rw [hcodec] at h
      cases h
      cases hc
    | some ctx =>
      simp only [hcodec, map_eq_some_iff] at h
      obtain ⟨c', hc', rfl⟩ := h
      cases hc
      exact .pragma pragma ctx c hcodec hc'
  | page pData pgno mode =>
    simp only [step] at h
    cases hcodec : s.codec with
    | none =>
      rw [hcodec] at h
      cases h
      cases hcodec.symm.trans hc
    | some ctx =>
      rw [hcodec] at h
      dsimp only at h
      split_ifs at h with hlen
      obtain ⟨r, hr, rfl⟩ := map_eq_some_iff.mp h
      cases hc
      exact .page pData pgno mode ctx r hcodec hlen hr
  | setPass zKey =>
    cases h
    obtain ⟨ctx, hctx, rfl⟩ := map_eq_some_iff.mp hc
    exact .setPass zKey ctx hctx
  | keyCopy =>
    cases h
    obtain ⟨ctx, hctx, rfl⟩ := map_eq_some_iff.mp hc
    exact .keyCopy ctx hctx

theorem initial_wf (h : (codecCtxInit p g zKey).1 = .ok) : (initial p g zKey).Wf p := by
  obtain ⟨-, hv, h0, hblk, -⟩ := codecCtxInit_ok h
  have h512 := (validPageSize_spec hv).1
  refine ⟨?_, rfl, rfl, .inr ⟨h0, Int.dvd_of_emod_eq_zero hblk⟩, length_zeros _⟩
  simpa only [initial, Int.toNat_of_nonneg (show 0 ≤ g.defaultPageSize by omega)] using hv

theorem Pragma.Effect.wf {pragma : Pragma} (h : pragma.Effect p g e ctx c) (w : ctx.Wf p) :
    c.Wf p := by
  cases h with
  | pageSize n hu hv =>
    have h512 := (validPageSize_spec hv).1
    exact ⟨by rw [Int.toNat_of_nonneg (by omega)]; exact hv, w.reserveSz, w.hmacSz, w.header,
      length_zeros _⟩
  | useHmac on hu => exact ⟨w.pageSz, rfl, rfl, w.header, w.buffer⟩
  | hmacAlgorithm a hu => exact ⟨w.pageSz, rfl, rfl, w.header, w.buffer⟩
  | compatibility version hu =>
    have hv := compatibility_validPageSize version
    have h512 := (validPageSize_spec hv).1
    rw [ctx.setCompatibility_eq, if_neg (by simp [hu])]
    exact ⟨by rw [Int.toNat_of_nonneg (by omega)]; exact hv, rfl, rfl, w.header, length_zeros _⟩
  | header n size hs =>
    exact { w with header := hs.imp_right fun h => ⟨h.1, Int.dvd_of_emod_eq_zero h.2.1⟩ }
  | saltQuery => exact (initKdfSalt_frame e ctx).wf w
  | check f r hr => exact (integrityCheck_callFrame hr).wf w
  | _ => exact { w with }

theorem CodecCtx.Noted.wf (h : ctx.Noted c) (w : ctx.Wf p) : c.Wf p := by
  obtain ⟨rc, rfl, -⟩ := h
  exact { w with }

def Session.Wf (p : Provider) (s : Session) : Prop := ∀ ctx, s.codec = some ctx → ctx.Wf p

theorem Session.step_wf (w : s.Wf p) (h : s.step p o = some s') : s'.Wf p := by
  intro c hc
  obtain ⟨e, op⟩ := o
  have hstep := step_cases h hc
  cases hstep with
  | fresh zKey hkey hinit => exact initial_wf hinit
  | kept zKey ctx hctx => exact w c hctx
  | pragma pragma ctx c hctx h =>
    obtain ⟨c₀, heff, hnoted⟩ := Pragma.onCtx_effect h
    exact hnoted.wf (heff.wf (w ctx hctx))
  | page pData pgno mode ctx r hctx hlen h => exact (sqlite3Codec_frame h).wf (w ctx hctx)
  | setPass zKey ctx hctx => exact (setCipherCtx_frame ctx .write _).wf (w ctx hctx)
  | keyCopy ctx hctx => exact (setCipherCtx_frame ctx .read ctx.writeCtx).wf (w ctx hctx)

theorem Session.Reachable.exec (h : s.Reachable p) (hrun : Run.exec (step p) s ops = some s') :
    s'.Reachable p := by
  obtain ⟨g, sharable, ops₀, h₀⟩ := h
  exact ⟨g, sharable, ops₀ ++ ops, by rw [Run.exec_append, h₀]; exact hrun⟩

theorem Session.Reachable.step (h : s.Reachable p) (hstep : s.step p o = some s') :
    s'.Reachable p := by
  have hrun : Run.exec (Session.step p) s [o] = some s' := by
    rw [Run.exec_cons, hstep]
    rfl
  exact h.exec hrun

theorem Session.Reachable.wf (h : s.Reachable p) (hc : s.codec = some ctx) : ctx.Wf p := by
  obtain ⟨g, sharable, ops, hrun⟩ := h
  have hstart : (start g sharable).Wf p := fun _ h => by cases h
  exact Run.exec_invariant_of_forall (fun _ _ _ w h => step_wf w h) hstart hrun ctx hc

end SqlCipher
