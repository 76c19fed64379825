import Mathlib.Data.Vector.Basic
import SqlCipher.Library.Buffer

/-!
# The codec context and its provider

The data model of `sqlcipher.c`: the crypto provider, the cipher contexts `read_ctx` and `write_ctx`
of a connection, the codec context that owns them, and the process-wide defaults.

The provider is a parameter: the four operations the codec calls and the sizes it reports, with the
properties of AES-256-CBC, HMAC and PBKDF2 that the code relies on (fixed output lengths, and a
cipher that is a bijection on whole blocks for each key and IV). Which calls succeed, and what
random bytes come back, is up to a run and recorded in `Env`. Allocation succeeds.
-/

namespace SqlCipher

open Buffer

abbrev Bytes := List UInt8

abbrev Pgno := UInt32

/-- `FILE_HEADER_SZ`, which is also the size of the KDF salt. -/
def fileHeaderSz : Nat := 16

abbrev Salt := List.Vector UInt8 fileHeaderSz

/-- `SQLITE_FILE_HEADER`: the magic a decrypted first page starts with. -/
def sqliteFileHeader : Bytes :=
  [0x53, 0x51, 0x4c, 0x69, 0x74, 0x65, 0x20, 0x66, 0x6f, 0x72, 0x6d, 0x61, 0x74, 0x20, 0x33, 0x00]

@[simp] theorem length_sqliteFileHeader : sqliteFileHeader.length = fileHeaderSz := rfl

def zeros (n : Nat) : Bytes := List.replicate n 0

@[simp] theorem length_zeros (n : Nat) : (zeros n).length = n := List.length_replicate

/-- The first sixteen bytes of `bs`, as `memcpy` into the salt takes them. -/
def Salt.ofBytes (bs : Bytes) : Salt := ⟨(bs ++ zeros fileHeaderSz).take fileHeaderSz, by simp⟩

theorem Salt.ofBytes_eq (h : slice bs 0 fileHeaderSz = salt.1) : Salt.ofBytes bs = salt := by
  have hlen : fileHeaderSz ≤ bs.length := by
    have := congrArg List.length h
    rw [salt.2, slice, List.drop_zero, List.length_take] at this
    omega
  apply Subtype.ext
  rw [← h]
  exact List.take_append_of_le_length hlen

inductive ResultCode where
  | ok | error | abort | busy | locked | nomem | readonly | ioerr | corrupt | full | misuse
  | notadb | done
  deriving DecidableEq, Repr

inductive HmacAlgorithm where
  | sha1 | sha256 | sha512
  deriving DecidableEq, Repr

inductive KdfAlgorithm where
  | sha1 | sha256 | sha512
  deriving DecidableEq, Repr

/-- A `sqlcipher_provider`, with what the codec takes for granted about it. -/
structure Provider where
  keySz : Nat
  ivSz : Nat
  blockSz : Nat
  hmacSz : HmacAlgorithm → Nat
  hmac : HmacAlgorithm → Bytes → Bytes → Bytes → Bytes
  kdf : KdfAlgorithm → Bytes → Bytes → Int → Nat → Bytes
  encrypt : Bytes → Bytes → Bytes → Bytes
  decrypt : Bytes → Bytes → Bytes → Bytes
  keySz_pos : 0 < keySz
  blockSz_pos : 0 < blockSz
  blockSz_dvd : blockSz ∣ fileHeaderSz
  /-- The reserve of a page has to fit the one-byte header field that records it. -/
  reserve_le : ∀ a, ivSz + hmacSz a ≤ 240
  length_hmac : ∀ a k x y, (hmac a k x y).length = hmacSz a
  length_kdf : ∀ a w s i n, (kdf a w s i n).length = n
  length_encrypt : ∀ k iv x, (encrypt k iv x).length = x.length
  length_decrypt : ∀ k iv x, (decrypt k iv x).length = x.length
  decrypt_encrypt : ∀ k iv x, blockSz ∣ x.length → decrypt k iv (encrypt k iv x) = x
  encrypt_decrypt : ∀ k iv x, blockSz ∣ x.length → encrypt k iv (decrypt k iv x) = x

attribute [simp] Provider.length_hmac Provider.length_kdf Provider.length_encrypt
  Provider.length_decrypt

def byteHash (bs : Bytes) : UInt8 := bs.foldl (fun acc b => 31 * acc + b) 0

/-- A provider small enough to be evaluated, with real sizes: XOR with the first byte of the key,
and HMAC and KDF that repeat one byte. -/
def Provider.toy : Provider where
  keySz := 32
  ivSz := 16
  blockSz := 16
  hmacSz
    | .sha1 => 20
    | .sha256 => 32
    | .sha512 => 64
  hmac a k x y := List.replicate
    (match a with | .sha1 => 20 | .sha256 => 32 | .sha512 => 64)
      (byteHash k + byteHash x + byteHash y)
  kdf a w s i n := List.replicate n
    (byteHash w + byteHash s + UInt8.ofNat i.toNat +
      (match a with | .sha1 => 1 | .sha256 => 2 | .sha512 => 3))
  encrypt k _ x := x.map (· ^^^ k.headD 0)
  decrypt k _ x := x.map (· ^^^ k.headD 0)
  keySz_pos := by decide
  blockSz_pos := by decide
  blockSz_dvd := by decide
  reserve_le a := by cases a <;> decide
  length_hmac a k x y := by cases a <;> simp
  length_kdf a w s i n := by simp
  length_encrypt k iv x := by simp
  length_decrypt k iv x := by simp
  decrypt_encrypt k iv x _ := by
    simp only [List.map_map, Function.comp_def, UInt8.xor_assoc, UInt8.xor_self, UInt8.xor_zero,
      List.map_id_fun', id_eq]
  encrypt_decrypt k iv x _ := by
    simp only [List.map_map, Function.comp_def, UInt8.xor_assoc, UInt8.xor_self, UInt8.xor_zero,
      List.map_id_fun', id_eq]

inductive CipherRole where
  | read | write
  deriving DecidableEq, Repr

inductive KdfUse where
  | key | hmacKey
  deriving DecidableEq, Repr

/-- The outside world during a call into the codec: which provider operations succeed, their random
bytes, and what a read of the file header gives. Each runs at most once per call. -/
structure Env where
  /-- The first bytes of the database file; `none` when they cannot be read. -/
  fileHeader : Option Salt
  saltRandom : Option Salt
  /-- The bytes `random` writes over the reserve of a page. -/
  random : Option (Nat → UInt8)
  kdf : CipherRole → KdfUse → Bool
  hmac : Bool
  cipher : Bool
  scrap : Nat → UInt8
  autoVacuum : Bool
  /-- What `sqlite3BtreeSetPageSize` returns when a setting is passed on to the b-tree. -/
  setPageSize : ResultCode

def Env.allOk : Env where
  fileHeader := some (List.Vector.replicate _ 0)
  saltRandom := some (List.Vector.replicate _ 0)
  random := some fun _ => 0
  kdf _ _ := true
  hmac := true
  cipher := true
  scrap _ := 0
  autoVacuum := false
  setPageSize := .ok

def stream (f : Nat → UInt8) (n : Nat) : Bytes := (List.range n).map f

@[simp] theorem length_stream (f : Nat → UInt8) (n : Nat) : (stream f n).length = n := by
  simp [stream]

structure Flags where
  hmac : Bool
  lePgno : Bool
  bePgno : Bool
  keyUsed : Bool
  hasKdfSalt : Bool
  deriving DecidableEq, Repr

/-- A `cipher_ctx`. Keys are stored shielded; `pass` is `none` once it has been wiped. -/
structure CipherCtx where
  deriveKey : Bool
  pass : Option Bytes
  key : Bytes
  hmacKey : Bytes
  deriving DecidableEq, Repr

/-- A `codec_ctx`. The fixed sizes of key, IV and block are read from the provider. -/
structure CodecCtx where
  storePass : Bool
  kdfIter : Int
  fastKdfIter : Int
  pageSz : Nat
  reserveSz : Nat
  hmacSz : Nat
  plaintextHeaderSz : Int
  hmacAlgorithm : HmacAlgorithm
  kdfAlgorithm : KdfAlgorithm
  error : ResultCode
  flags : Flags
  kdfSalt : Salt
  hmacKdfSalt : Bytes
  buffer : Bytes
  readCtx : CipherCtx
  writeCtx : CipherCtx
  deriving DecidableEq

/-- The process-wide settings: defaults of new contexts, the mask between the HMAC salt and the key
salt, and the mask that shields keys in memory. -/
structure Globals where
  defaultUseHmac : Bool := true
  hmacSaltMask : UInt8 := 0x3a
  defaultKdfIter : Int := 256000
  defaultPageSize : Int := 4096
  defaultPlaintextHeaderSize : Int := 0
  defaultHmacAlgorithm : HmacAlgorithm := .sha512
  defaultKdfAlgorithm : KdfAlgorithm := .sha512
  shieldMask : List.Vector UInt8 32
  /-- `sqlite3PendingByte`: the page of this file offset holds locks and no content. -/
  pendingByte : Nat := 0x40000000
  /-- Byte order of the machine, which the native page-number encoding follows. -/
  bigEndianHost : Bool := false

def Globals.initial : Globals := { shieldMask := List.Vector.replicate _ 0 }

/-- `default_flags`: only the HMAC bit can be changed. -/
def Globals.defaultFlags (g : Globals) : Flags :=
  { hmac := g.defaultUseHmac, lePgno := true, bePgno := false, keyUsed := false,
    hasKdfSalt := false }

def fastPbkdf2Iter : Int := 2

variable (ctx : CodecCtx)

def CodecCtx.cipherCtx : CipherRole → CipherCtx
  | .read => ctx.readCtx
  | .write => ctx.writeCtx

def CodecCtx.setCipherCtx (role : CipherRole) (c : CipherCtx) : CodecCtx :=
  match role with
  | .read => { ctx with readCtx := c }
  | .write => { ctx with writeCtx := c }

variable (mask : List.Vector UInt8 32)

/-- XOR with the repeated in-memory mask, applied once to hide a key and once to reveal it. -/
def shield (bs : Bytes) : Bytes :=
  bs.mapIdx fun i b => b ^^^ mask.1.getD (i % 32) 0

@[simp] theorem length_shield (bs : Bytes) : (shield mask bs).length = bs.length := by
  simp [shield]

@[simp] theorem shield_shield (bs : Bytes) : shield mask (shield mask bs) = bs := by
  apply List.ext_getElem?
  intro i
  simp only [shield, List.getElem?_mapIdx, Option.map_map]
  cases bs[i]? with
  | none => rfl
  | some b => simp only [Option.map_some, Function.comp_apply, UInt8.xor_assoc, UInt8.xor_self,
      UInt8.xor_zero]

/-- Record an error. `sqlcipher_codec_ctx_set_error` also marks the b-tree read-only, which the
codec never reads. -/
def CodecCtx.setError (rc : ResultCode) : CodecCtx :=
  { ctx with error := rc }

end SqlCipher
