import SqlCipher.Codec.KeyDerive

/-!
# Encrypting and decrypting one page

`pageCipher` embeds `sqlcipher_page_cipher`, and `sqlite3Codec` the entry point the pager calls for
every page it reads, writes or journals. Buffers are whole pages; a pointer into one is its offset.
Every access is checked: `none` is a call that would read or write outside a page, or pass a
negative length on, and so has no defined result. The layout of a page is

    0          offset            pageSz - reserveSz   + ivSz   + hmacSz     pageSz
    | header   | encrypted body  | IV                 | HMAC   | random     |

where `offset` is zero except on page 1.
-/

namespace SqlCipher

open Buffer

variable (p : Provider) (g : Globals) (e : Env)

inductive CipherMode where
  | encrypt | decrypt
  deriving DecidableEq, Repr

def memsetZero (buf : Bytes) (off len : Int) : Option Bytes :=
  if len < 0 then none else writeAt buf off (zeros len.toNat)

def put4byteLe (v : Pgno) : Bytes :=
  [v.toUInt8, (v >>> 8).toUInt8, (v >>> 16).toUInt8, (v >>> 24).toUInt8]

def put4byte (v : Pgno) : Bytes :=
  [(v >>> 24).toUInt8, (v >>> 16).toUInt8, (v >>> 8).toUInt8, v.toUInt8]

def pgnoRaw (flags : Flags) (pgno : Pgno) : Bytes :=
  if flags.lePgno then put4byteLe pgno
  else if flags.bePgno then put4byte pgno
  else if g.bigEndianHost then put4byte pgno else put4byteLe pgno

variable (ctx : CodecCtx) (role : CipherRole) (pgno : Pgno)

/-- The tag over `msg` for page `pgno`; `none` when the provider fails. -/
def CodecCtx.pageHmac (msg : Bytes) : Option Bytes :=
  if e.hmac then
    some (p.hmac ctx.hmacAlgorithm (shield g.shieldMask (ctx.cipherCtx role).hmacKey) msg
      (pgnoRaw g ctx.flags pgno))
  else none

def CodecCtx.cipher (mode : CipherMode) (iv msg : Bytes) : Option Bytes :=
  if e.cipher = true ∧ msg.length % p.blockSz = 0 then
    let key := shield g.shieldMask (ctx.cipherCtx role).key
    match mode with
    | .encrypt => some (p.encrypt key iv msg)
    | .decrypt => some (p.decrypt key iv msg)
  else none

/-- The `error` label: wipe the output and report failure. -/
def CodecCtx.pageError (offset : Int) (buffer : Bytes) :
    Option (ResultCode × Bytes) := do
  let buffer ← memsetZero buffer offset (ctx.pageSz - offset)
  return (.error, buffer)

def CodecCtx.pageSign (offset : Int)
    (buffer : Bytes) : Option (ResultCode × Bytes) := do
  let size : Int := ctx.pageSz - offset - ctx.reserveSz
  if ctx.flags.hmac then
    let msg ← readAt buffer offset (size + p.ivSz)
    match ctx.pageHmac p g e role pgno msg with
    | none => ctx.pageError offset buffer
    | some tag =>
      let buffer ← writeAt buffer (offset + size + p.ivSz) tag
      return (.ok, buffer)
  else return (.ok, buffer)

/-- Random bytes over the whole reserve, then the body, then the HMAC. -/
def CodecCtx.pageEncrypt (offset : Int)
    (pData buffer : Bytes) : Option (ResultCode × Bytes) := do
  let size : Int := ctx.pageSz - offset - ctx.reserveSz
  match e.random with
  | none => ctx.pageError offset buffer
  | some rnd =>
    let buffer ← writeAt buffer (offset + size) (stream rnd ctx.reserveSz)
    let iv ← readAt buffer (offset + size) p.ivSz
    let msg ← readAt pData offset size
    match ctx.cipher p g e role .encrypt iv msg with
    | none => ctx.pageError offset buffer
    | some body =>
      let buffer ← writeAt buffer offset body
      ctx.pageSign p g e role pgno offset buffer

def CodecCtx.pageDecryptBody (offset : Int)
    (pData buffer : Bytes) : Option (ResultCode × Bytes) := do
  let size : Int := ctx.pageSz - offset - ctx.reserveSz
  let iv ← readAt buffer (offset + size) p.ivSz
  let msg ← readAt pData offset size
  match ctx.cipher p g e role .decrypt iv msg with
  | none => ctx.pageError offset buffer
  | some body =>
    let buffer ← writeAt buffer offset body
    return (.ok, buffer)

/-- A page that fails the HMAC check is accepted as zeros if it is zeros and auto-vacuum is on: it
is past the end of the file. -/
def CodecCtx.pageMismatch (offset : Int) (pData buffer : Bytes) :
    Option (ResultCode × Bytes) := do
  let body ← readAt pData offset (ctx.pageSz - offset)
  if e.autoVacuum = true ∧ body = zeros body.length then
    let buffer ← memsetZero buffer offset (ctx.pageSz - offset)
    return (.ok, buffer)
  else ctx.pageError offset buffer

def CodecCtx.pageDecrypt (offset : Int)
    (pData buffer : Bytes) : Option (ResultCode × Bytes) := do
  let size : Int := ctx.pageSz - offset - ctx.reserveSz
  let iv ← readAt pData (offset + size) p.ivSz
  let buffer ← writeAt buffer (offset + size) iv
  if ctx.flags.hmac then
    let msg ← readAt pData offset (size + p.ivSz)
    match ctx.pageHmac p g e role pgno msg with
    | none => ctx.pageError offset buffer
    | some tag =>
      let buffer ← writeAt buffer (offset + size + p.ivSz) tag
      let stored ← readAt pData (offset + size + p.ivSz) ctx.hmacSz
      let computed ← readAt buffer (offset + size + p.ivSz) ctx.hmacSz
      if stored ≠ computed then ctx.pageMismatch e offset pData buffer
      else ctx.pageDecryptBody p g e role offset pData buffer
  else ctx.pageDecryptBody p g e role offset pData buffer

/-- `sqlcipher_page_cipher` on the pages `pData` (in) and `buffer` (out) from `offset` on. A first
page that is all plaintext header is left alone. -/
def CodecCtx.pageCipher (mode : CipherMode)
    (offset : Int) (pData buffer : Bytes) : Option (ResultCode × Bytes) :=
  let size : Int := ctx.pageSz - offset - ctx.reserveSz
  if pgno = 1 ∧ size = 0 then some (.ok, buffer)
  else if p.keySz = 0 then ctx.pageError offset buffer
  else
    match mode with
    | .encrypt => ctx.pageEncrypt p g e role pgno offset pData buffer
    | .decrypt => ctx.pageDecrypt p g e role pgno offset pData buffer

inductive CodecOp where
  | read | write | journal
  | unsupported (mode : Int)
  deriving DecidableEq, Repr

/-- The returned buffer (`none` for `NULL`), the caller's page and the context afterwards. -/
structure CodecResult where
  out : Option Bytes
  pData : Bytes
  ctx : CodecCtx
  deriving DecidableEq

def CodecCtx.offset : Int :=
  if pgno = 1 then
    if ctx.plaintextHeaderSz ≠ 0 then ctx.plaintextHeaderSz else fileHeaderSz
  else 0

def CodecCtx.markKeyUsed : CodecCtx :=
  { ctx with flags := { ctx.flags with keyUsed := true } }

variable (pData : Bytes)

/-- The part of a page before its encrypted body: on page 1 the plaintext header, or the sixteen
bytes in its place. -/
def CodecCtx.putHeader (stand : Bytes) : Option Bytes :=
  if pgno = 1 then
    if ctx.plaintextHeaderSz ≠ 0 then do
      let header ← readAt pData 0 (ctx.offset pgno)
      writeAt ctx.buffer 0 header
    else writeAt ctx.buffer 0 stand
  else some ctx.buffer

/-- The end of `CODEC_READ_OP`: the buffer is copied over the page. A page that did not decrypt has
a zeroed body and leaves a permanent error, unless the plaintext header covers it, as when a
database is recovered. -/
def CodecCtx.codecReadDone (rc : ResultCode)
    (buffer : Bytes) : Option CodecResult := do
  if rc ≠ .ok then
    let offset := ctx.offset pgno
    let buffer ← memsetZero buffer offset (ctx.pageSz - offset)
    let page ← readAt buffer 0 ctx.pageSz
    let pData ← writeAt pData 0 page
    let ctx := { ctx with buffer := buffer }
    if ctx.plaintextHeaderSz = (ctx.pageSz : Int) - ctx.reserveSz then
      return { out := some pData, pData := pData, ctx := ctx }
    else return { out := some pData, pData := pData, ctx := ctx.setError rc }
  else
    let page ← readAt buffer 0 ctx.pageSz
    let pData ← writeAt pData 0 page
    return { out := some pData, pData := pData, ctx := { ctx with buffer := buffer }.markKeyUsed }

def CodecCtx.codecRead : Option CodecResult := do
  let buffer ← ctx.putHeader pgno pData sqliteFileHeader
  let (rc, buffer) ← ctx.pageCipher p g e .read pgno .decrypt (ctx.offset pgno) pData buffer
  ctx.codecReadDone pgno pData rc buffer

/-- Encrypt into the context's own buffer, which is the result; the page of the caller is not
touched. -/
def CodecCtx.codecSeal :
    Option CodecResult := do
  let offset := ctx.offset pgno
  let buffer ← ctx.putHeader pgno pData ctx.kdfSalt.1
  let (rc, buffer) ← ctx.pageCipher p g e role pgno .encrypt offset pData buffer
  if rc ≠ .ok then
    let buffer ← memsetZero buffer offset (ctx.pageSz - offset)
    return { out := none, pData := pData, ctx := { ctx with buffer := buffer }.setError rc }
  else
    return { out := some buffer, pData := pData
             ctx := { ctx with buffer := buffer }.markKeyUsed }

/-- The salt of page 1 is loaded or drawn before the page is written. -/
def CodecCtx.salted : ResultCode × CodecCtx :=
  if pgno = 1 then ctx.initKdfSalt e else (.ok, ctx)

/-- `CODEC_WRITE_OP` (write context) and `CODEC_JOURNAL_OP` (read context). -/
def CodecCtx.codecEncrypt : Option CodecResult :=
  let r := ctx.salted e pgno
  if r.1 ≠ .ok then some { out := none, pData := pData, ctx := r.2.setError r.1 }
  else r.2.codecSeal p g e role pgno pData

def CodecCtx.codecMode (pgno : Pgno) (mode : CodecOp) : Option CodecResult :=
  match mode with
  | .read => ctx.codecRead p g e pgno pData
  | .write => ctx.codecEncrypt p g e .write pgno pData
  | .journal => ctx.codecEncrypt p g e .read pgno pData
  | .unsupported _ => some { out := some pData, pData := pData, ctx := ctx.setError .error }

def sqlite3Codec (pgno : Pgno) (mode : CodecOp) : Option CodecResult :=
  if ctx.error ≠ .ok then
    -- a read must not return NULL, which the pager takes for an allocation failure
    if mode = .read then do
      let pData ← memsetZero pData 0 ctx.pageSz
      return { out := some pData, pData := pData, ctx := ctx }
    else some { out := none, pData := pData, ctx := ctx }
  else
    let r := ctx.codecKeyDerive p g e
    if r.1 ≠ .ok then some { out := none, pData := pData, ctx := r.2.setError r.1 }
    else if r.2.plaintextHeaderSz < 0 then
      some { out := none, pData := pData, ctx := r.2.setError .error }
    else r.2.codecMode p g e pData pgno mode

end SqlCipher
