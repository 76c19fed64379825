import SqlCipher.Codec.Integrity
import SqlCipher.Library.Run

/-!
# Sessions

What one connection does to one codec context: keying (`sqlcipherCodecAttach`), the pragmas of
`sqlcipher_codec_pragma`, page operations, and the two steps by which `sqlite3_rekey_v2` replaces
the key. A run is a list of such operations, each under its circumstances `Env`.

Pragmas that only report a value are one operation, `query`. Arguments are given as parsed: `atoi`
for numbers, `sqlite3GetBoolean` for switches, and `none` for an unknown algorithm label.
-/

namespace SqlCipher

open Buffer

variable (p : Provider) (e : Env)

inductive HmacPgno where
  | le | be | native
  deriving DecidableEq, Repr

inductive Pragma where
  | cipherStorePass (on : Bool)
  | kdfIter (n : Int)
  | fastKdfIter (n : Int)
  | cipherPageSize (n : Int)
  | cipherUseHmac (on : Bool)
  | cipherHmacPgno (order : Option HmacPgno)
  | cipherHmacSaltMask (zRight : Bytes)
  | cipherPlaintextHeaderSize (n : Int)
  | cipherSalt (zRight : Bytes)
  | cipherSaltQuery
  | cipherHmacAlgorithm (label : Option HmacAlgorithm)
  | cipherKdfAlgorithm (label : Option KdfAlgorithm)
  | cipherCompatibility (version : Int)
  | cipherIntegrityCheck (f : CheckEnv)
  | cipherDefaultKdfIter (n : Int)
  | cipherDefaultPageSize (n : Int)
  | cipherDefaultUseHmac (on : Bool)
  | cipherDefaultPlaintextHeaderSize (n : Int)
  | cipherDefaultHmacAlgorithm (label : Option HmacAlgorithm)
  | cipherDefaultKdfAlgorithm (label : Option KdfAlgorithm)
  | cipherDefaultCompatibility (version : Int)
  | query

/-- `sqlite3StrNICmp(z, "x'", 2) == 0` together with an exact length. -/
def isBlobLiteral (z : Bytes) (len : Nat) : Bool :=
  (z[0]? == some 0x78 || z[0]? == some 0x58) && z[1]? == some 0x27 && z.length == len

def noteError (r : ResultCode × CodecCtx) : CodecCtx :=
  if r.1 ≠ .ok then r.2.setError r.1 else r.2

/-- Record a failed setting as `SQLITE_ERROR`, whatever it returned. -/
def noteSqliteError (r : ResultCode × CodecCtx) : CodecCtx :=
  if r.1 ≠ .ok then r.2.setError .error else r.2

variable (ctx : CodecCtx)

def CodecCtx.byLabel {α : Type} (set : α → ResultCode × CodecCtx) :
    Option α → ResultCode × CodecCtx
  | some algorithm => set algorithm
  | none => (.error, ctx)

structure Compatibility where
  pageSize : Int
  hmacAlgorithm : HmacAlgorithm
  kdfAlgorithm : KdfAlgorithm
  kdfIter : Int
  useHmac : Bool
  deriving DecidableEq, Repr

def compatibility (version : Int) : Compatibility :=
  if version = 1 then ⟨1024, .sha1, .sha1, 4000, false⟩
  else if version = 2 then ⟨1024, .sha1, .sha1, 4000, true⟩
  else if version = 3 then ⟨1024, .sha1, .sha1, 64000, true⟩
  else ⟨4096, .sha512, .sha512, 256000, true⟩

/-- `PRAGMA cipher_compatibility`: five settings in this order. -/
def CodecCtx.setCompatibility (s : Compatibility) : CodecCtx :=
  let c := noteSqliteError (ctx.setPagesize s.pageSize)
  let c := noteSqliteError (c.setHmacAlgorithm p s.hmacAlgorithm)
  let c := noteSqliteError (c.setKdfAlgorithm s.kdfAlgorithm)
  let c := noteSqliteError (c.setKdfIter s.kdfIter)
  noteSqliteError (c.setUseHmac p s.useHmac)

def CodecCtx.setHmacPgno : Option HmacPgno → CodecCtx
  | some .le => { ctx with flags := { ctx.flags with bePgno := false, lePgno := true } }
  | some .be => { ctx with flags := { ctx.flags with lePgno := false, bePgno := true } }
  | some .native => { ctx with flags := { ctx.flags with lePgno := false, bePgno := false } }
  | none => ctx

variable (g : Globals)

def Pragma.onCtx (ctx : CodecCtx) : Pragma → Option CodecCtx
  | .cipherStorePass on => some { ctx with storePass := on }
  | .kdfIter n => some (ctx.setKdfIter n).2
  | .fastKdfIter n => some (ctx.setFastKdfIter n).2
  | .cipherPageSize n => some (noteError (e.setPageSize, noteError (ctx.setPagesize n)))
  | .cipherUseHmac on => some (noteError (e.setPageSize, noteError (ctx.setUseHmac p on)))
  | .cipherHmacPgno order => some (ctx.setHmacPgno order)
  | .cipherPlaintextHeaderSize n => some (ctx.setPlaintextHeaderSize p n).2
  | .cipherSalt z =>
    if isBlobLiteral z (fileHeaderSz * 2 + 3) then
      some (ctx.setKdfSalt (cipherHex2bin (slice z 2 (fileHeaderSz * 2)))).2
    else some ctx
  | .cipherSaltQuery => some (noteError (ctx.initKdfSalt e))
  | .cipherHmacAlgorithm label =>
    some (noteSqliteError
      (e.setPageSize, noteSqliteError (ctx.byLabel (ctx.setHmacAlgorithm p) label)))
  | .cipherKdfAlgorithm label => some (noteSqliteError (ctx.byLabel ctx.setKdfAlgorithm label))
  | .cipherCompatibility version =>
    some (noteSqliteError (e.setPageSize, ctx.setCompatibility p (compatibility version)))
  | .cipherIntegrityCheck f => (ctx.integrityCheck p g e f).map Prod.snd
  | _ => some ctx

def Pragma.onGlobals : Pragma → Globals
  | .cipherDefaultKdfIter n => { g with defaultKdfIter := n }
  | .cipherDefaultPageSize n => { g with defaultPageSize := n }
  | .cipherDefaultUseHmac on => { g with defaultUseHmac := on }
  | .cipherDefaultPlaintextHeaderSize n => { g with defaultPlaintextHeaderSize := n }
  | .cipherDefaultHmacAlgorithm (some algorithm) => { g with defaultHmacAlgorithm := algorithm }
  | .cipherDefaultKdfAlgorithm (some algorithm) => { g with defaultKdfAlgorithm := algorithm }
  | .cipherDefaultCompatibility version =>
    let s := compatibility version
    { g with
      defaultPageSize := s.pageSize, defaultHmacAlgorithm := s.hmacAlgorithm
      defaultKdfAlgorithm := s.kdfAlgorithm, defaultKdfIter := s.kdfIter
      defaultUseHmac := s.useHmac }
  | _ => g

/-- The HMAC salt mask is process-wide, but only a connection with a codec can set it. -/
def Pragma.saltMask : Pragma → Globals
  | .cipherHmacSaltMask z =>
    if isBlobLiteral z 5 then
      { g with hmacSaltMask := (cipherHex2bin (slice z 2 2)).headD 0 }
    else g
  | _ => g

/-- A connection: the process-wide settings, its codec, and whether its b-tree is shared. -/
structure Session where
  globals : Globals
  codec : Option CodecCtx
  sharable : Bool

inductive Op where
  | attach (zKey : Bytes)
  | pragma (pragma : Pragma)
  | page (pData : Bytes) (pgno : Pgno) (mode : CodecOp)
  /-- `codec_set_pass_key` for the write context, the first step of a rekey. -/
  | setPass (zKey : Bytes)
  /-- `sqlcipher_codec_key_copy` from the write context, the last step of a rekey. -/
  | keyCopy

def Op.isPage : Op → Bool
  | .page _ _ _ => true
  | _ => false

variable (s : Session)

/-- `sqlcipherCodecAttach`. A used key is never replaced; an unused one gives way to a new context,
or to none if initialisation fails. -/
def Session.attach (zKey : Bytes) : ResultCode × Session :=
  if zKey = [] then (.misuse, s)
  else if s.codec.any (·.flags.keyUsed) then (.ok, s)
  else if s.codec.isSome && s.sharable then (.ok, s)
  else
    let r := codecCtxInit p s.globals zKey
    if r.1 = .ok then (.ok, { s with codec := some r.2 }) else (r.1, { s with codec := none })

def Session.takesKey (zKey : Bytes) : Bool :=
  zKey ≠ [] && !s.codec.any (·.flags.keyUsed) && !(s.codec.isSome && s.sharable)

def CodecCtx.keyCopy : CodecCtx := { ctx with readCtx := ctx.writeCtx }

/-- One operation. `none` is undefined: a page operation that leaves the page, or one not on a page
of the codec's size. -/
def Session.step (o : Env × Op) : Option Session :=
  match o.2 with
  | .attach zKey => some (s.attach p zKey).2
  | .pragma pragma =>
    match s.codec with
    | none => some { s with globals := pragma.onGlobals s.globals }
    | some ctx => (pragma.onCtx p o.1 s.globals ctx).map fun c =>
      { s with globals := pragma.saltMask (pragma.onGlobals s.globals), codec := some c }
  | .page pData pgno mode =>
    match s.codec with
    | none => some s
    | some ctx =>
      if pData.length = ctx.pageSz then
        (sqlite3Codec p s.globals o.1 ctx pData pgno mode).map fun r =>
          { s with codec := some r.ctx }
      else none
  | .setPass zKey =>
    some { s with codec := s.codec.map fun ctx => ctx.setPass zKey .write }
  | .keyCopy => some { s with codec := s.codec.map CodecCtx.keyCopy }

def Session.start (sharable : Bool) : Session := ⟨g, none, sharable⟩

def Session.Reachable : Prop :=
  ∃ g sharable ops, Run.exec (Session.step p) (Session.start g sharable) ops = some s

end SqlCipher
