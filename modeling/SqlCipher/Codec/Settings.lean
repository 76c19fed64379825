import SqlCipher.Codec.Context

/-!
# Settings of a codec context

The setting functions of `sqlcipher.c` and the initialisation of a context. Most
settings are refused, silently and with `SQLITE_OK`, once the key has been used; the
plaintext header size is not. Page size, reserve and header size are three fields set by
different functions, and only `setPlaintextHeaderSize` compares them.
-/

namespace SqlCipher

open CodecCtx

variable (p : Provider) (g : Globals) (n : Nat) (block : Nat)

def roundUp : Nat := if n % block = 0 then n else (n / block + 1) * block

theorem dvd_roundUp : block ∣ roundUp n block := by
  unfold roundUp
  split
  · exact Nat.dvd_of_mod_eq_zero ‹_›
  · exact Dvd.intro_left _ rfl

theorem le_roundUp {block : Nat} (h : 0 < block) : n ≤ roundUp n block := by
  unfold roundUp
  split
  · exact Nat.le_refl n
  · rw [Nat.add_mul, Nat.one_mul]
    have := Nat.div_add_mod' n block
    have := Nat.mod_lt n h
    omega

theorem roundUp_le : roundUp n block ≤ n + block := by
  unfold roundUp
  split
  · omega
  · rw [Nat.add_mul, Nat.one_mul]
    have := Nat.div_mul_le_self n block
    omega

/-- The bytes kept free at the end of each page: IV and, when on, HMAC, in whole cipher blocks. -/
def Provider.reserve (useHmac : Bool) (algorithm : HmacAlgorithm) : Nat :=
  roundUp (p.ivSz + if useHmac then p.hmacSz algorithm else 0) p.blockSz

variable (ctx : CodecCtx)

def CodecCtx.reserveSetup : ResultCode × CodecCtx :=
  (.ok, { ctx with
    hmacSz := p.hmacSz ctx.hmacAlgorithm
    reserveSz := p.reserve ctx.flags.hmac ctx.hmacAlgorithm })

def CodecCtx.setDeriveKey (derive : Bool) : CodecCtx :=
  { ctx with
    readCtx := { ctx.readCtx with deriveKey := derive }
    writeCtx := { ctx.writeCtx with deriveKey := derive } }

/-- The guard at the head of most settings: nothing changes under a used key. -/
def CodecCtx.unlessKeyUsed (f : CodecCtx → ResultCode × CodecCtx) : ResultCode × CodecCtx :=
  if ctx.flags.keyUsed then (.ok, ctx) else f ctx

def CodecCtx.setKdfIter (kdfIter : Int) : ResultCode × CodecCtx :=
  ctx.unlessKeyUsed fun c => (.ok, { c with kdfIter := kdfIter }.setDeriveKey true)

def CodecCtx.setFastKdfIter (fastKdfIter : Int) : ResultCode × CodecCtx :=
  ctx.unlessKeyUsed fun c => (.ok, { c with fastKdfIter := fastKdfIter }.setDeriveKey true)

def CodecCtx.setUseHmac (use : Bool) : ResultCode × CodecCtx :=
  ctx.unlessKeyUsed fun c => { c with flags := { c.flags with hmac := use } }.reserveSetup p

variable (size : Int)

/-- The bound is that of the current page size and reserve. A refused size is stored as `-1`, an
error at the next call. -/
def CodecCtx.setPlaintextHeaderSize : ResultCode × CodecCtx :=
  if 0 ≤ size ∧ size % p.blockSz = 0 ∧ size ≤ (ctx.pageSz : Int) - ctx.reserveSz then
    (.ok, { ctx with plaintextHeaderSz := size })
  else (.error, { ctx with plaintextHeaderSz := -1 })

def CodecCtx.setHmacAlgorithm (algorithm : HmacAlgorithm) : ResultCode × CodecCtx :=
  ctx.unlessKeyUsed fun c => { c with hmacAlgorithm := algorithm }.reserveSetup p

def CodecCtx.setKdfAlgorithm (algorithm : KdfAlgorithm) : ResultCode × CodecCtx :=
  ctx.unlessKeyUsed fun c => (.ok, { c with kdfAlgorithm := algorithm })

def CodecCtx.setKdfSalt (salt : Bytes) : ResultCode × CodecCtx :=
  ctx.unlessKeyUsed fun c =>
    if fileHeaderSz ≤ salt.length then
      (.ok, { c with kdfSalt := Salt.ofBytes salt, flags := { c.flags with hasKdfSalt := true } })
    else (.error, c)

/-- The test of `sqlcipher_codec_ctx_set_pagesize`: a power of two from 512 to 65536. -/
def validPageSize : Bool :=
  size != 0 && size.toNat &&& (size.toNat - 1) == 0 && 512 ≤ size && size ≤ 65536

def CodecCtx.setPagesize : ResultCode × CodecCtx :=
  ctx.unlessKeyUsed fun c =>
    if validPageSize size then
      (.ok, { c with pageSz := size.toNat, buffer := zeros size.toNat })
    else (.error, c)

def CipherCtx.setPass (c : CipherCtx) (zKey : Bytes) : CipherCtx :=
  { c with pass := if zKey = [] then none else some zKey }

variable (zKey : Bytes)

def CodecCtx.setPass (role : CipherRole) : CodecCtx :=
  ctx.setCipherCtx role { (ctx.cipherCtx role).setPass zKey with deriveKey := true }

def CipherCtx.blank : CipherCtx :=
  { deriveKey := false, pass := none, key := zeros p.keySz, hmacKey := zeros p.keySz }

/-- The zero-filled allocation `sqlcipher_codec_ctx_init` starts from, with the default flags. -/
def CodecCtx.alloc : CodecCtx :=
  { storePass := false, kdfIter := 0, fastKdfIter := 0, pageSz := 0, reserveSz := 0, hmacSz := 0
    plaintextHeaderSz := 0, hmacAlgorithm := .sha1, kdfAlgorithm := .sha1, error := .ok
    flags := g.defaultFlags, kdfSalt := List.Vector.replicate _ 0
    hmacKdfSalt := zeros fileHeaderSz, buffer := []
    readCtx := CipherCtx.blank p, writeCtx := CipherCtx.blank p }

def andThen (r : ResultCode × CodecCtx) (f : CodecCtx → ResultCode × CodecCtx) :
    ResultCode × CodecCtx :=
  if r.1 = .ok then f r.2 else r

theorem andThen_ok (h : (andThen r f).1 = .ok) : r.1 = .ok ∧ andThen r f = f r.2 := by
  unfold andThen at *
  split_ifs at * with hr
  · exact ⟨hr, rfl⟩
  · exact absurd h hr

theorem andThen_of_ok (h : r.1 = .ok) : andThen r f = f r.2 := by
  rw [andThen, if_pos h]

/-- `sqlcipher_codec_ctx_init`. A result other than `ok` frees the context. -/
def codecCtxInit : ResultCode × CodecCtx :=
  andThen ((alloc p g).setPagesize g.defaultPageSize) fun c =>
  andThen (c.setKdfIter g.defaultKdfIter) fun c =>
  andThen (c.setFastKdfIter fastPbkdf2Iter) fun c =>
  andThen (c.setHmacAlgorithm p g.defaultHmacAlgorithm) fun c =>
  andThen (c.setUseHmac p g.defaultUseHmac) fun c =>
  andThen (c.setKdfAlgorithm g.defaultKdfAlgorithm) fun c =>
  andThen (c.setPlaintextHeaderSize p g.defaultPlaintextHeaderSize) fun c =>
    let c := c.setPass zKey .read
    (.ok, { c with writeCtx := c.readCtx })

def CodecCtx.initial : CodecCtx :=
  let c := { (CipherCtx.blank p).setPass zKey with deriveKey := true }
  { storePass := false, kdfIter := g.defaultKdfIter, fastKdfIter := fastPbkdf2Iter
    pageSz := g.defaultPageSize.toNat
    reserveSz := p.reserve g.defaultUseHmac g.defaultHmacAlgorithm
    hmacSz := p.hmacSz g.defaultHmacAlgorithm
    plaintextHeaderSz := g.defaultPlaintextHeaderSize
    hmacAlgorithm := g.defaultHmacAlgorithm, kdfAlgorithm := g.defaultKdfAlgorithm, error := .ok
    flags := g.defaultFlags, kdfSalt := List.Vector.replicate _ 0
    hmacKdfSalt := zeros fileHeaderSz, buffer := zeros g.defaultPageSize.toNat
    readCtx := c, writeCtx := c }

variable {p g} in
/-- Of the seven settings of an initialisation only the page size and the header size can fail. -/
theorem codecCtxInit_ok {zKey : Bytes} (h : (codecCtxInit p g zKey).1 = .ok) :
    (codecCtxInit p g zKey).2 = initial p g zKey ∧
      validPageSize g.defaultPageSize = true ∧
      0 ≤ g.defaultPlaintextHeaderSize ∧ g.defaultPlaintextHeaderSize % p.blockSz = 0 ∧
      g.defaultPlaintextHeaderSize ≤ (g.defaultPageSize.toNat : Int) -
        p.reserve g.defaultUseHmac g.defaultHmacAlgorithm := by
  have hset : (alloc p g).setPagesize g.defaultPageSize =
      if validPageSize g.defaultPageSize then (.ok, { alloc p g with
        pageSz := g.defaultPageSize.toNat, buffer := zeros g.defaultPageSize.toNat })
      else (.error, alloc p g) := rfl
  let fresh : CipherCtx := { CipherCtx.blank p with deriveKey := true }
  let before : CodecCtx :=
    { initial p g zKey with plaintextHeaderSz := 0, readCtx := fresh, writeCtx := fresh }
  by_cases hv : validPageSize g.defaultPageSize = true
  · have heq : codecCtxInit p g zKey =
        andThen (before.setPlaintextHeaderSize p g.defaultPlaintextHeaderSize) fun c =>
          (.ok, { c.setPass zKey .read with writeCtx := (c.setPass zKey .read).readCtx }) := by
      rw [codecCtxInit, hset, if_pos hv]
      rfl
    rw [heq] at h ⊢
    obtain ⟨hhdr, -⟩ := andThen_ok h
    unfold setPlaintextHeaderSize at hhdr ⊢
    split_ifs at hhdr ⊢ with hh
    exact ⟨rfl, hv, hh⟩
  · rw [codecCtxInit, hset, if_neg hv] at h
    cases h
end SqlCipher
