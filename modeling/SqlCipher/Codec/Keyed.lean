import SqlCipher.Codec.SessionSpec

/-!
# Contexts that have their keys

Keys are derived after the salt has been loaded, and the salt is never forgotten
(`CodecCtx.HasSalt`). A context that has its keys therefore keeps keys, salt and page format in
every call that records no error (`CodecCtx.Keyed.call`).
-/

namespace SqlCipher

open Buffer SealedPage CodecCtx

variable {p : Provider} {g : Globals} {e : Env} {ctx c : CodecCtx} {pgno : Pgno}

/-- Keys are derived after the salt has been loaded, and the salt is never forgotten. -/
def CodecCtx.HasSalt (ctx : CodecCtx) : Prop :=
  ctx.readCtx.deriveKey = false ∨ ctx.writeCtx.deriveKey = false → ctx.flags.hasKdfSalt = true

theorem CodecCtx.HasSalt.keyDerive (h : ctx.HasSalt) (role : CipherRole) :
    (ctx.keyDerive p g e role).2.HasSalt := by
  by_cases hrc : (ctx.keyDerive p g e role).1 = .ok
  · obtain ⟨_, -, -, -, -, hflags⟩ := keyDerive_ok hrc
    exact fun _ => by rw [hflags]
  · obtain ⟨-, hd, hother, hkeep⟩ := keyDerive_error hrc
    intro hder
    refine hkeep (h (hder.imp ?_ ?_))
    · intro hr
      cases role with
      | read => exact hd.symm.trans hr
      | write => exact congrArg CipherCtx.deriveKey (hother .read nofun) ▸ hr
    · intro hw
      cases role with
      | read => exact congrArg CipherCtx.deriveKey (hother .write nofun) ▸ hw
      | write => exact hd.symm.trans hw

theorem CodecCtx.HasSalt.codecKeyDerive (h : ctx.HasSalt) :
    (ctx.codecKeyDerive p g e).2.HasSalt := by
  have hread : (ctx.deriveRead p g e).2.HasSalt := by
    unfold CodecCtx.deriveRead
    split
    · exact h.keyDerive .read
    · exact h
  have hwrite : ((ctx.deriveRead p g e).2.deriveWrite p g e).2.HasSalt := by
    unfold CodecCtx.deriveWrite
    split_ifs
    · exact fun hd => hread (.inl (hd.elim id id))
    · exact hread.keyDerive .write
    · exact hread
  have hdrop (c : CodecCtx) (hc : c.HasSalt) : c.dropPass.HasSalt := by
    unfold CodecCtx.dropPass
    split <;> exact hc
  unfold CodecCtx.codecKeyDerive andThen
  dsimp only
  split_ifs
  exacts [hdrop _ hwrite, hwrite, hread]

theorem CodecCtx.HasSalt.initKdfSalt (h : ctx.HasSalt) : (ctx.initKdfSalt e).2.HasSalt := by
  obtain ⟨salt, has, heq, hhas, hkeep⟩ := initKdfSalt_eq e ctx
  rw [heq]
  exact fun hd => hhas (hkeep (h hd)).1

theorem CodecCtx.HasSalt.call (h : ctx.HasSalt) (hs : ctx.KeyStage p g e pgno c₀)
    (hu : c₀.UseFrame c) : c.HasSalt := by
  have h₀ : c₀.HasSalt := by
    cases hs with
    | untouched => exact h
    | derived => exact h.codecKeyDerive
    | salted =>
      unfold salted
      split
      · exact h.codecKeyDerive.initKdfSalt
      · exact h.codecKeyDerive
  obtain ⟨b, used, rc, rfl, -⟩ := hu
  exact h₀

theorem Pragma.Effect.hasSalt {pragma : Pragma} (heff : pragma.Effect p g e ctx c)
    (h : ctx.HasSalt) : c.HasSalt := by
  cases heff with
  | kdfIter n hu => exact fun hd => by simp [setDeriveKey] at hd
  | fastKdfIter n hu => exact fun hd => by simp [setDeriveKey] at hd
  | compatibility version hu =>
    rw [ctx.setCompatibility_eq, if_neg (by simp [hu])]
    exact fun hd => by simp at hd
  | salt z hu hz => exact fun _ => rfl
  | saltQuery => exact h.initKdfSalt
  | check f r hr =>
    obtain ⟨c, hs, hu⟩ := integrityCheck_stage hr
    exact h.call hs hu
  | _ => exact h

theorem Session.step_hasSalt {s s' : Session} (h : ∀ ctx, s.codec = some ctx → ctx.HasSalt)
    (hstep : s.step p o = some s') : ∀ ctx, s'.codec = some ctx → ctx.HasSalt := by
  intro c hc
  obtain ⟨e, op⟩ := o
  have hcases := Session.step_cases hstep hc
  cases hcases with
  | fresh zKey hkey hinit => exact fun hd => by simp [initial] at hd
  | kept zKey ctx hctx => exact h c hctx
  | pragma pragma ctx c hctx hp =>
    obtain ⟨c₀, heff, rc, rfl, -⟩ := Pragma.onCtx_effect hp
    exact heff.hasSalt (h ctx hctx)
  | page pData pgno mode ctx r hctx hlen hr =>
    obtain ⟨c, hs, hu⟩ := sqlite3Codec_stage hr
    exact (h ctx hctx).call hs hu
  | setPass zKey ctx hctx => exact fun hd => h ctx hctx (.inl (hd.elim id fun h => by cases h))
  | keyCopy ctx hctx => exact fun hd => h ctx hctx (.inr (hd.elim id id))

theorem Session.Reachable.hasSalt {s : Session} (h : s.Reachable p) (hc : s.codec = some ctx) :
    ctx.HasSalt := by
  obtain ⟨g, sharable, ops, hrun⟩ := h
  exact Run.exec_invariant_of_forall (fun _ _ _ h hs => Session.step_hasSalt h hs)
    (by intro ctx h; cases h) hrun ctx hc

structure CodecCtx.Keyed (c : CodecCtx) (pgno : Pgno) (ctx : CodecCtx) : Prop where
  error : ctx.error = .ok
  header : 0 ≤ ctx.plaintextHeaderSz
  derived : ctx.KeysDerived
  hasSalt : ctx.flags.hasKdfSalt = true
  salt : ctx.kdfSalt = c.kdfSalt
  format : c.SameFormat pgno ctx
  keys : ∀ role, c.SameKeys role ctx role

theorem sameKeys_of_eq (h : ∀ role, c.SameKeys role ctx role) (hr : c'.readCtx = ctx.readCtx)
    (hw : c'.writeCtx = ctx.writeCtx) : ∀ role, c.SameKeys role c' role := by
  intro role
  have hctx : c'.cipherCtx role = ctx.cipherCtx role := by
    cases role
    exacts [hr, hw]
  exact ⟨hctx ▸ (h role).key, fun hh => hctx ▸ (h role).hmacKey hh⟩

theorem CodecCtx.Keyed.dropPass (h : c.Keyed pgno ctx) : c.Keyed pgno ctx.dropPass := by
  have hk := dropPass_cipherCtx ctx
  have hframe := dropPass_frame ctx
  have hsame : ctx.dropPass.flags = ctx.flags ∧ ctx.dropPass.kdfSalt = ctx.kdfSalt ∧
      ctx.dropPass.plaintextHeaderSz = ctx.plaintextHeaderSz := by
    unfold CodecCtx.dropPass
    split <;> exact ⟨rfl, rfl, rfl⟩
  obtain ⟨hflags, hsalt, hhdr⟩ := hsame
  exact ⟨hframe.error.trans h.error, hhdr ▸ h.header, dropPass_keysDerived h.derived,
    hflags ▸ h.hasSalt, hsalt.trans h.salt, h.format.trans hframe.sameFormat,
    fun role => ⟨(hk role).1.trans (h.keys role).key,
      fun hh => (hk role).2.trans ((h.keys role).hmacKey hh)⟩⟩

/-- Deriving and salting have nothing left to do. -/
theorem CodecCtx.Keyed.stage (h : c.Keyed pgno ctx) (hs : ctx.KeyStage p g e q c₀) :
    c.Keyed pgno c₀ := by
  cases hs with
  | untouched => exact h
  | derived =>
    rw [codecKeyDerive_of_derived h.derived]
    exact h.dropPass
  | salted =>
    rw [codecKeyDerive_of_derived h.derived, salted, initKdfSalt,
      if_pos h.dropPass.hasSalt, ite_self]
    exact h.dropPass

/-- A call that records no error leaves keys, salt and format alone. -/
theorem CodecCtx.Keyed.call (h : c.Keyed pgno ctx) (hs : ctx.KeyStage p g e q c₀)
    (hu : c₀.UseFrame c') (herr : c'.error = .ok) : c.Keyed pgno c' := by
  have h₀ := h.stage hs
  have hformat := h₀.format.trans hu.sameFormat
  obtain ⟨b, used, rc, rfl, -, -⟩ := hu
  exact ⟨herr, h₀.header, h₀.derived, h₀.hasSalt, h₀.salt, hformat, sameKeys_of_eq h₀.keys rfl rfl⟩

theorem keyed_of_encrypt (w : ctx.Wf p) (hsalt : r.ctx.HasSalt) (hrole : mode.role? = some role)
    (hP : P.length = ctx.pageSz) (hr : sqlite3Codec p g e ctx P pgno mode = some r)
    (hout : r.out = some img) : r.ctx.Keyed pgno r.ctx ∧ r.ctx.flags.keyUsed = true := by
  obtain ⟨-, ⟨hnone, -⟩ | ⟨img', c, L, rfl, henc⟩⟩ := sqlite3Codec_encrypt w hrole hP hr
  · cases hnone.symm.trans hout
  obtain ⟨hframe, herr, hdr, hder⟩ := henc.readied
  exact ⟨⟨hframe.error.trans herr, hdr, hder, hsalt (.inl hder.1), rfl,
    .refl _, fun _ => ⟨rfl, fun _ => rfl⟩⟩, rfl⟩

end SqlCipher
