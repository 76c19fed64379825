import SqlCipher.Codec.Tamper

/-!
# The codec fails closed

A buffer that the codec hands out for writing is ciphertext throughout, whatever provider
operations fail on the way and whatever an earlier call left in the buffer. An error, once
recorded, is permanent: nothing but a new context removes it, and until then the codec hands
out no buffer for writing and answers reads with zeros.
-/

namespace SqlCipher

open Buffer SealedPage Session

/-- `img` is the page `P` encrypted from the header to the reserve, with the fresh bytes `rnd` as IV
and the tag after it. -/
structure CodecCtx.Ciphertext (p : Provider) (g : Globals) (c : CodecCtx) (role : CipherRole)
    (pgno : Pgno) (rnd : Nat → UInt8) (P img : Bytes) : Prop where
  length : img.length = c.pageSz
  body : slice img (c.offset pgno).toNat (c.pageSz - c.reserveSz - (c.offset pgno).toNat) =
    p.encrypt (shield g.shieldMask (c.cipherCtx role).key) (stream rnd p.ivSz)
      (slice P (c.offset pgno).toNat (c.pageSz - c.reserveSz - (c.offset pgno).toNat))
  iv : slice img (c.pageSz - c.reserveSz) p.ivSz = stream rnd p.ivSz
  tag : c.flags.hmac = true → c.storedTag p img =
    p.hmac c.hmacAlgorithm (shield g.shieldMask (c.cipherCtx role).hmacKey)
      (c.signed p pgno img) (pgnoRaw g c.flags pgno)

variable {p : Provider} {g : Globals} {e : Env} {ctx c : CodecCtx} {role : CipherRole}
  {pgno : Pgno} {P img : Bytes} {L : Layout}

theorem CodecCtx.Stores.ciphertext (h : c.Stores p g role pgno stand P img L)
    (hne : ¬ c.HeaderOnly pgno) (hiv : L.iv img = stream rnd p.ivSz) :
    c.Ciphertext p g role pgno rnd P img := by
  have hL := h.layout
  have hs := h.sealed hne
  have hoff : (c.offset pgno).toNat = L.offset := by rw [← hL.offset, Int.toNat_natCast]
  have hpos : c.pageSz - c.reserveSz = L.ivPos := by
    have := hL.ivPos
    omega
  refine ⟨h.length, ?_, ?_, fun hh => ?_⟩
  · rw [hoff, hpos, ← hiv]
    exact hs.body
  · rw [hpos, ← hL.ivSz]
    exact hiv.trans (by rw [hL.ivSz])
  · rw [hL.storedTag_eq hh, hL.signed_eq, hs.tag, CodecCtx.mac, if_pos hh]

theorem ciphertext_of_encrypt (w : ctx.Wf p)
    (hP : P.length = ctx.pageSz) (hrole : mode.role? = some role)
    (hr : sqlite3Codec p g e ctx P pgno mode = some r) (hout : r.out = some img)
    (hne : ¬ r.ctx.HeaderOnly pgno) :
    ∃ rnd, e.random = some rnd ∧ r.ctx.Ciphertext p g role pgno rnd P img := by
  obtain ⟨_, L, hs, hfresh⟩ := stores_of_encrypt w hP hrole hr hout
  obtain ⟨rnd, hrnd, hiv⟩ := hfresh hne
  exact ⟨rnd, hrnd, hs.ciphertext hne hiv⟩

theorem sqlite3Codec_of_error (h : ctx.error ≠ .ok) (hP : P.length = ctx.pageSz) (mode : CodecOp) :
    sqlite3Codec p g e ctx P pgno mode =
      some (if mode = .read then ⟨some (zeros ctx.pageSz), zeros ctx.pageSz, ctx⟩
        else ⟨none, P, ctx⟩) := by
  rw [sqlite3Codec, if_pos h]
  split_ifs
  · rw [← hP, memsetZero_whole]
    rfl
  · rfl

theorem error_of_sqlite3Codec (hP : P.length = ctx.pageSz)
    (hr : sqlite3Codec p g e ctx P pgno mode = some r) (herr : r.ctx.error = .ok) :
    ctx.error = .ok := by
  by_contra hbad
  rw [sqlite3Codec_of_error hbad hP] at hr
  cases hr
  split_ifs at herr <;> exact hbad herr

theorem Pragma.Effect.error {pragma : Pragma} (heff : pragma.Effect p g e ctx c) :
    c.error = ctx.error := by
  cases heff with
  | compatibility version hu => rw [ctx.setCompatibility_eq, if_neg (by simp [hu])]
  | saltQuery => exact (initKdfSalt_frame e ctx).error
  | check f r hr => exact integrityCheck_error hr
  | _ => rfl

theorem Pragma.onCtx_error {pragma : Pragma} (herr : ctx.error ≠ .ok)
    (h : pragma.onCtx p e g ctx = some c) : c.error ≠ .ok := by
  obtain ⟨c₀, heff, rc, rfl, hrc⟩ := Pragma.onCtx_effect h
  exact hrc (heff.error ▸ herr)

def KeepsCodec (s : Session) (o : Env × Op) : Prop :=
  ∀ zKey, o.2 = .attach zKey → s.takesKey zKey = false

/-- A context with an error keeps it in every step that does not replace the context. -/
theorem Session.step_error (h : ∃ ctx, s.codec = some ctx ∧ ctx.error ≠ .ok)
    (hkeep : KeepsCodec s o)
    (hstep : s.step p o = some s') : ∃ ctx, s'.codec = some ctx ∧ ctx.error ≠ .ok := by
  obtain ⟨ctx, hctx, herr⟩ := h
  obtain ⟨e, op⟩ := o
  cases op with
  | attach zKey =>
    cases hstep
    rw [attach_of_not_takesKey (Bool.eq_false_iff.mp (hkeep zKey rfl))]
    exact ⟨ctx, hctx, herr⟩
  | pragma pragma =>
    simp only [step, hctx, Option.map_eq_some_iff] at hstep
    obtain ⟨c, hc, rfl⟩ := hstep
    exact ⟨c, rfl, Pragma.onCtx_error herr hc⟩
  | page pData pgno mode =>
    simp only [step, hctx] at hstep
    split_ifs at hstep with hlen
    rw [sqlite3Codec_of_error herr hlen] at hstep
    cases hstep
    refine ⟨_, rfl, ?_⟩
    split_ifs <;> exact herr
  | setPass zKey =>
    simp only [step, hctx, Option.map_some, Option.some.injEq] at hstep
    subst hstep
    exact ⟨_, rfl, herr⟩
  | keyCopy =>
    simp only [step, hctx, Option.map_some, Option.some.injEq] at hstep
    subst hstep
    exact ⟨_, rfl, herr⟩

/-- In every context that a run leads to, under all failures: a buffer returned for writing or for
the journal is ciphertext from the header to the reserve, under the selected key and a fresh IV, and
tagged; and once an error is recorded, calls for writing return nothing and reads return zeros,
until the context is replaced. A call without a defined result, in which the header of page 1 leaves
no room for the reserve, is outside the first part. -/
theorem fails_closed (p : Provider) (s : Session) (hs : s.Reachable p) (ctx : CodecCtx)
    (hc : s.codec = some ctx) :
    (∀ e P pgno mode role r img, P.length = ctx.pageSz → mode.role? = some role →
      sqlite3Codec p s.globals e ctx P pgno mode = some r → r.out = some img →
      ¬ r.ctx.HeaderOnly pgno →
      ∃ rnd, e.random = some rnd ∧ r.ctx.Ciphertext p s.globals role pgno rnd P img) ∧
    (ctx.error ≠ .ok → ∀ ops s', Run.Along (step p) KeepsCodec s ops →
      Run.exec (step p) s ops = some s' →
      ∃ ctx', s'.codec = some ctx' ∧ ctx'.error ≠ .ok ∧
        ∀ e P pgno mode, P.length = ctx'.pageSz →
          sqlite3Codec p s'.globals e ctx' P pgno mode =
            some (if mode = .read then ⟨some (zeros ctx'.pageSz), zeros ctx'.pageSz, ctx'⟩
              else ⟨none, P, ctx'⟩)) := by
  refine ⟨fun e P pgno mode role r img hP hrole hr hout hne =>
    ciphertext_of_encrypt (hs.wf hc) hP hrole hr hout hne, fun herr ops s' hkeep hrun => ?_⟩
  obtain ⟨ctx', hc', herr'⟩ := Run.exec_invariant
    (fun _ _ _ h hok hstep => step_error h hok hstep) ⟨ctx, hc, herr⟩ hkeep hrun
  exact ⟨ctx', hc', herr', fun e P pgno mode hP => sqlite3Codec_of_error herr' hP mode⟩

/-- After an unknown KDF label nothing is written, whatever is set afterwards. -/
theorem fails_closed_unknownLabel : ∃ (s s' : Session) (ctx : CodecCtx),
    Run.exec (step .toy) (.start .initial false)
      [(.allOk, .attach [0x6b]), (.allOk, .pragma (.cipherKdfAlgorithm none))] = some s ∧
    Run.exec (step .toy) s [(.allOk, .pragma (.cipherKdfAlgorithm (some .sha1)))] =
      some s' ∧
    s'.codec = some ctx ∧ ctx.error ≠ .ok ∧
    ∀ e P pgno, P.length = ctx.pageSz →
      sqlite3Codec .toy s'.globals e ctx P pgno .write = some ⟨none, P, ctx⟩ := by
  obtain ⟨ctx, hc, herr, hcalls⟩ := (fails_closed .toy _
    ⟨.initial, false, [(.allOk, .attach [0x6b]), (.allOk, .pragma (.cipherKdfAlgorithm none))], rfl⟩
    _ rfl).2 ResultCode.noConfusion [(.allOk, .pragma (.cipherKdfAlgorithm (some .sha1)))] _
    ⟨fun zKey h => (by cases h), fun _ _ => trivial⟩ rfl
  exact ⟨_, _, ctx, rfl, rfl, hc, herr, fun e P pgno hP => hcalls e P pgno .write hP⟩

end SqlCipher
