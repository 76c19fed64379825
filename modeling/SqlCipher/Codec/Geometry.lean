import SqlCipher.Codec.SessionSpec

/-!
# Page geometry along a session

The plaintext header size is checked against page size and reserve when it is stored. Page size,
HMAC switch, HMAC algorithm and compatibility level can be set afterwards, and none of them looks at
the header again. As long as no setting asks for a page and a reserve without room for the stored
header, every call of the codec works inside its page (`geometry_of_run`).
-/

namespace SqlCipher

open CodecCtx

variable {p : Provider} {g : Globals} {e : Env} {ctx c : CodecCtx}

/-- The sizes that `sqlcipher_page_cipher` relies on: the header is whole blocks and ends before the
reserve, the cipher gets whole blocks, and IV and HMAC fit in the page. -/
structure CodecCtx.Geometry (p : Provider) (ctx : CodecCtx) : Prop where
  header_dvd : (p.blockSz : Int) ∣ ctx.plaintextHeaderSz
  header_nonneg : 0 ≤ ctx.plaintextHeaderSz
  header_le : ctx.plaintextHeaderSz ≤ (ctx.pageSz : Int) - ctx.reserveSz
  offset_nonneg : ∀ pgno, 0 ≤ ctx.offset pgno
  size_nonneg : ∀ pgno, 0 ≤ (ctx.pageSz : Int) - ctx.offset pgno - ctx.reserveSz
  size_dvd : ∀ pgno, (p.blockSz : Int) ∣ (ctx.pageSz : Int) - ctx.offset pgno - ctx.reserveSz
  reserve_fits : (ctx.pageSz : Int) - ctx.reserveSz + p.ivSz + ctx.tagSz ≤ ctx.pageSz

/-- All of it follows from the one inequality that nothing maintains. -/
theorem CodecCtx.Wf.geometry (w : ctx.Wf p) (hdr : 0 ≤ ctx.plaintextHeaderSz)
    (hle : ctx.plaintextHeaderSz ≤ (ctx.pageSz : Int) - ctx.reserveSz) : ctx.Geometry p where
  header_dvd := by
    obtain h | h := w.header
    · omega
    · exact h.2
  header_nonneg := hdr
  header_le := hle
  offset_nonneg pgno := SqlCipher.offset_nonneg hdr pgno
  size_nonneg pgno := by
    have hfit : ctx.Fits pgno := w.fits (.inr ⟨hdr, hle⟩)
    have := hfit.2
    omega
  size_dvd pgno := by
    have hfit : ctx.Fits pgno := w.fits (.inr ⟨hdr, hle⟩)
    obtain ⟨L, hL⟩ := w.exists_layout hfit
    rw [hL.size_eq]
    exact_mod_cast hL.blockSz_dvd w hdr
  reserve_fits := by
    have := w.tagSz_le
    omega

def Pragma.requested (p : Provider) (ctx : CodecCtx) : Pragma → Option (Int × Nat)
  | .cipherPageSize n => if validPageSize n then some (n, ctx.reserveSz) else none
  | .cipherUseHmac on => some (ctx.pageSz, p.reserve on ctx.hmacAlgorithm)
  | .cipherHmacAlgorithm (some a) => some (ctx.pageSz, p.reserve ctx.flags.hmac a)
  | .cipherCompatibility version =>
    let s := compatibility version
    some (s.pageSize, p.reserve s.useHmac s.hmacAlgorithm)
  | _ => none

/-- The step does not ask for a page and a reserve without room for the stored header, or the key is
used. -/
def LeavesRoom (p : Provider) (s : Session) (o : Env × Op) : Prop :=
  ∀ ctx pragma, s.codec = some ctx → o.2 = .pragma pragma → ctx.flags.keyUsed = false →
    ∀ size reserve, pragma.requested p ctx = some (size, reserve) →
      ctx.plaintextHeaderSz ≤ size - reserve

/-- The stored header ends before the reserve. An invalid header size counts: no call gets past it.
-/
def CodecCtx.HeaderFits (ctx : CodecCtx) : Prop :=
  ctx.plaintextHeaderSz ≤ (ctx.pageSz : Int) - ctx.reserveSz

theorem CodecCtx.CallFrame.headerFits (h : ctx.CallFrame c) (hfit : ctx.HeaderFits) :
    c.HeaderFits := by
  obtain ⟨c', ⟨k, rfl⟩, b, used, rc, rfl, -⟩ := h
  exact hfit

theorem CodecCtx.KeyFrame.headerFits (h : ctx.KeyFrame c) (hfit : ctx.HeaderFits) :
    c.HeaderFits := by
  obtain ⟨k, rfl⟩ := h
  exact hfit

theorem CodecCtx.Noted.headerFits (h : ctx.Noted c) (hfit : ctx.HeaderFits) : c.HeaderFits := by
  obtain ⟨rc, rfl, -⟩ := h
  exact hfit

theorem Pragma.Effect.headerFits {pragma : Pragma} (heff : pragma.Effect p g e ctx c)
    (w : ctx.Wf p) (hfit : ctx.HeaderFits)
    (hroom : ctx.flags.keyUsed = false → ∀ size reserve,
      pragma.requested p ctx = some (size, reserve) → ctx.plaintextHeaderSz ≤ size - reserve) :
    c.HeaderFits := by
  cases heff with
  | pageSize n hu hv =>
    have h512 := (validPageSize_spec hv).1
    simp only [HeaderFits, Int.toNat_of_nonneg (show 0 ≤ n by omega)]
    exact hroom hu n ctx.reserveSz (if_pos hv)
  | useHmac on hu => exact hroom hu _ _ rfl
  | hmacAlgorithm a hu => exact hroom hu _ _ rfl
  | compatibility version hu =>
    have h512 := (validPageSize_spec (compatibility_validPageSize version)).1
    rw [ctx.setCompatibility_eq, if_neg (by simp [hu])]
    simp only [HeaderFits,
      Int.toNat_of_nonneg (show 0 ≤ (SqlCipher.compatibility version).pageSize by omega)]
    exact hroom hu _ _ rfl
  | header n size hs =>
    obtain rfl | h := hs
    · have := w.reserveSz_le
      have := w.pageSz_ge
      simp only [HeaderFits]
      omega
    · exact h.2.2
  | saltQuery => exact (initKdfSalt_frame e ctx).headerFits hfit
  | check f r hr => exact (integrityCheck_callFrame hr).headerFits hfit
  | _ => exact hfit

theorem initial_headerFits (h : (codecCtxInit p g zKey).1 = .ok) : (initial p g zKey).HeaderFits :=
  (codecCtxInit_ok h).2.2.2.2

/-- A step that leaves room keeps a well-formed context whose header fits. -/
theorem Session.step_headerFits {s s' : Session}
    (h : ∀ ctx, s.codec = some ctx → ctx.Wf p ∧ ctx.HeaderFits) (hroom : LeavesRoom p s o)
    (hstep : s.step p o = some s') : ∀ ctx, s'.codec = some ctx → ctx.Wf p ∧ ctx.HeaderFits := by
  intro c hc
  have hw : s'.Wf p := Session.step_wf (fun ctx hctx => (h ctx hctx).1) hstep
  refine ⟨hw c hc, ?_⟩
  obtain ⟨e, op⟩ := o
  have hcases := Session.step_cases hstep hc
  cases hcases with
  | fresh zKey hkey hinit => exact initial_headerFits hinit
  | kept zKey ctx hctx => exact (h c hctx).2
  | pragma pragma ctx c hctx hp =>
    obtain ⟨c₀, heff, hnoted⟩ := Pragma.onCtx_effect hp
    exact hnoted.headerFits (heff.headerFits (h ctx hctx).1 (h ctx hctx).2
      (hroom ctx pragma hctx rfl))
  | page pData pgno mode ctx r hctx hlen hr =>
    exact (sqlite3Codec_frame hr).headerFits (h ctx hctx).2
  | setPass zKey ctx hctx => exact (h ctx hctx).2
  | keyCopy ctx hctx => exact (h ctx hctx).2

/-- In every run whose settings leave room for the header, each call that reaches the cipher works
inside its page. -/
theorem geometry_of_run (p : Provider) (g : Globals) (sharable : Bool) (ops : List (Env × Op))
    (s : Session) (hroom : Run.Along (Session.step p) (LeavesRoom p) (.start g sharable) ops)
    (hrun : Run.exec (Session.step p) (.start g sharable) ops = some s) (ctx c : CodecCtx)
    (hc : s.codec = some ctx) (e : Env) (pgno : Pgno) (mode : CodecOp)
    (hcall : ctx.RunsCipher p s.globals e pgno mode c) : c.Geometry p := by
  obtain ⟨w, hfit⟩ := Run.exec_invariant (fun _ _ _ h hok hs => Session.step_headerFits h hok hs)
    (by intro ctx h; cases h) hroom hrun ctx hc
  have hr := hcall.readied
  exact (hr.frame.wf w).geometry hr.header (hr.frame.headerFits hfit)

/-- A default connection that turns HMAC off before its first page is written. -/
theorem geometry_of_run_noHmac : ∃ s ctx c,
    Run.exec (Session.step .toy) (.start .initial false)
      [(.allOk, .attach [0x6b]), (.allOk, .pragma (.cipherUseHmac false))] = some s ∧
    s.codec = some ctx ∧ ctx.RunsCipher .toy s.globals .allOk 1 .write c ∧ c.Geometry .toy := by
  refine ⟨_, _, _, rfl, rfl, ⟨_, rfl, rfl⟩, geometry_of_run .toy .initial false
    [(.allOk, .attach [0x6b]), (.allOk, .pragma (.cipherUseHmac false))] _ ?_ rfl _ _ rfl .allOk 1
    .write ⟨_, rfl, rfl⟩⟩
  refine ⟨fun ctx _ hc => (by cases hc), fun s hs => ?_⟩
  cases hs
  refine ⟨fun ctx pragma hc hp hu size reserve hreq => ?_, fun s hs => trivial⟩
  cases hc
  cases hp
  cases hreq
  decide

/-- A header of 4016 bytes is accepted for pages of 4096 bytes with a reserve of 80. With pages of
1024 bytes, the codec then reaches the cipher with a header that ends 3072 bytes past the reserve,
and a negative length. -/
theorem not_geometry_shrunk : ∃ s ctx c,
    Run.exec (Session.step .toy) (.start .initial false)
      [(.allOk, .attach [0x6b]), (.allOk, .pragma (.cipherPlaintextHeaderSize 4016)),
        (.allOk, .pragma (.cipherPageSize 1024))] = some s ∧
    s.codec = some ctx ∧ ctx.error = .ok ∧ ctx.RunsCipher .toy s.globals .allOk 1 .write c ∧
    c.plaintextHeaderSz = 4016 ∧ c.pageSz = 1024 ∧ c.reserveSz = 80 ∧
    (c.pageSz : Int) - c.offset 1 - c.reserveSz = -3072 ∧ ¬ c.Geometry .toy := by
  refine ⟨_, _, _, rfl, rfl, rfl, ⟨_, rfl, rfl⟩, rfl, rfl, rfl, rfl, fun h => ?_⟩
  exact absurd h.header_le (by decide)

end SqlCipher
