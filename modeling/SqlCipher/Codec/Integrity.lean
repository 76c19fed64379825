import SqlCipher.Codec.CodecSpec

/-!
# The integrity check

`sqlcipher_codec_ctx_integrity_check` reads the database file page by page, past the pager,
and recomputes the HMAC of every page. It has its own arithmetic for the header of page 1, the
length of the authenticated part and the position of the tag.
-/

namespace SqlCipher

open Buffer SealedPage CodecCtx

variable (p : Provider) (g : Globals) (e : Env)

/-- What the check gets from the pager and its file. The pager's page size can differ: with a
reserve over 32 bytes it is at least 1024. -/
structure CheckEnv where
  pageSize : Nat
  isOpen : Bool
  content : Bytes
  sizeOk : Bool
  readOk : Nat → Bool
  hmacOk : Nat → Bool

def CheckEnv.ofContent (pageSize : Nat) (content : Bytes) : CheckEnv where
  pageSize := pageSize
  isOpen := true
  content := content
  sizeOk := true
  readOk _ := true
  hmacOk _ := true

/-- `sqlite3OsRead` for one page, which also fails when the file is too short. -/
def CheckEnv.read (f : CheckEnv) (page : Nat) (offset len : Int) : Option Bytes :=
  if f.readOk page then readAt f.content offset len else none

/-- The rows of the check, without their texts. -/
inductive IntegrityReport where
  | fileUndefined | hmacDisabled | keyDerivation | fileSize | invalidHeaderSize
  | readError (readSz : Int) (page : Nat) (offset : Int)
  | hmacOperation (page : Nat)
  | hmacMismatch (page : Nat)
  | invalidSize (page bytes pageSz : Nat)
  deriving DecidableEq, Repr

def IntegrityReport.page? : IntegrityReport → Option Nat
  | .readError _ page _ | .hmacOperation page | .hmacMismatch page | .invalidSize page _ _ =>
    some page
  | _ => none

def lckPgno (pageSize : Nat) : Nat := g.pendingByte / pageSize + 1

def CodecCtx.checkPage (ctx : CodecCtx) (f : CheckEnv) (page : Nat) :
    Option (List IntegrityReport × CodecCtx) := do
  if page = lckPgno g f.pageSize then return ([], ctx)
  else
    let pgno := UInt32.ofNat page
    let page1Offset := ctx.offset pgno
    let readSz : Int := ctx.pageSz - page1Offset
    let payloadSz : Int := ctx.pageSz - ctx.reserveSz + p.ivSz - page1Offset
    let offset : Int := (page - 1 : Nat) * ctx.pageSz + page1Offset
    let buffer ← memsetZero ctx.buffer 0 ctx.pageSz
    if readSz < 0 then none
    else
      match f.read page offset readSz with
      | none => return ([.readError readSz page offset], { ctx with buffer := buffer })
      | some bytes =>
        let buffer ← writeAt buffer 0 bytes
        let ctx := { ctx with buffer := buffer }
        let msg ← readAt buffer 0 payloadSz
        match ctx.pageHmac p g { e with hmac := f.hmacOk page } .read pgno msg with
        | none => return ([.hmacOperation page], ctx)
        | some tag =>
          let stored ← readAt buffer payloadSz ctx.hmacSz
          if stored ≠ tag then return ([.hmacMismatch page], ctx) else return ([], ctx)

def CodecCtx.checkPages (f : CheckEnv) : CodecCtx → List Nat →
    Option (List IntegrityReport × CodecCtx)
  | ctx, [] => some ([], ctx)
  | ctx, page :: pages => do
    let (reports, ctx) ← ctx.checkPage p g e f page
    let (rest, ctx) ← checkPages f ctx pages
    return (reports ++ rest, ctx)

def CodecCtx.integrityCheck (ctx : CodecCtx) (f : CheckEnv) :
    Option (List IntegrityReport × CodecCtx) := do
  if f.isOpen = false then return ([.fileUndefined], ctx)
  else if ctx.flags.hmac = false then return ([.hmacDisabled], ctx)
  else
    let r := ctx.codecKeyDerive p g e
    let ctx := r.2
    if r.1 ≠ .ok then return ([.keyDerivation], ctx)
    else if f.sizeOk = false then return ([.fileSize], ctx)
    else if ctx.plaintextHeaderSz < 0 then return ([.invalidHeaderSize], ctx)
    else
      let nPage := f.content.length / ctx.pageSz
      let (reports, ctx) ← ctx.checkPages p g e f (List.range' 1 nPage)
      if f.content.length % ctx.pageSz ≠ 0 then
        return (reports ++ [.invalidSize (nPage + 1) (f.content.length % ctx.pageSz) ctx.pageSz],
          ctx)
      else return (reports, ctx)

section

variable {p g e} {ctx c : CodecCtx} {f : CheckEnv} {reports : List IntegrityReport}

theorem checkPage_frame (h : ctx.checkPage p g e f page = some (reports, c)) :
    ∃ b, c = { ctx with buffer := b } ∧ b.length = ctx.buffer.length := by
  unfold checkPage at h
  split_ifs at h with hlck
  · cases h
    exact ⟨ctx.buffer, rfl, rfl⟩
  · simp only [Option.bind_eq_bind, Option.bind_eq_some_iff] at h
    obtain ⟨b, hb, h⟩ := h
    have hlen := length_of_memsetZero hb
    split_ifs at h
    split at h
    · cases h
      exact ⟨b, rfl, hlen⟩
    · simp only [Option.bind_eq_some_iff] at h
      obtain ⟨b', hb', msg, -, h⟩ := h
      have hlen' := (length_of_writeAt hb').trans hlen
      split at h
      · cases h
        exact ⟨b', rfl, hlen'⟩
      · obtain ⟨stored, -, h⟩ := Option.bind_eq_some_iff.mp h
        split_ifs at h <;> cases h <;> exact ⟨b', rfl, hlen'⟩

theorem checkPages_frame (h : ctx.checkPages p g e f pages = some (reports, c)) :
    ∃ b, c = { ctx with buffer := b } ∧ b.length = ctx.buffer.length := by
  induction pages generalizing ctx reports with
  | nil =>
    cases h
    exact ⟨_, rfl, rfl⟩
  | cons page pages ih =>
    simp only [checkPages, Option.bind_eq_bind, Option.bind_eq_some_iff] at h
    obtain ⟨⟨r₁, c₁⟩, h₁, ⟨r₂, c₂⟩, h₂, h⟩ := h
    cases h
    obtain ⟨b₁, rfl, hl₁⟩ := checkPage_frame h₁
    obtain ⟨b₂, rfl, hl₂⟩ := ih h₂
    exact ⟨b₂, rfl, hl₂.trans hl₁⟩

/-- The check derives the keys when it gets that far, and otherwise uses the buffer only. -/
theorem integrityCheck_frame (h : ctx.integrityCheck p g e f = some (reports, c)) :
    ∃ c' b, (c' = ctx ∨ c' = (ctx.codecKeyDerive p g e).2) ∧ c = { c' with buffer := b } ∧
      b.length = c'.buffer.length := by
  unfold integrityCheck at h
  dsimp only at h
  split_ifs at h
  · cases h
    exact ⟨_, _, .inl rfl, rfl, rfl⟩
  · cases h
    exact ⟨_, _, .inl rfl, rfl, rfl⟩
  · cases h
    exact ⟨_, _, .inr rfl, rfl, rfl⟩
  · cases h
    exact ⟨_, _, .inr rfl, rfl, rfl⟩
  · cases h
    exact ⟨_, _, .inr rfl, rfl, rfl⟩
  all_goals
    obtain ⟨⟨r, c'⟩, hc, h⟩ := Option.bind_eq_some_iff.mp h
    obtain ⟨b, hb, hlen⟩ := checkPages_frame hc
    split_ifs at h <;> cases h <;> exact ⟨_, b, .inr rfl, hb, hlen⟩

end

end SqlCipher
