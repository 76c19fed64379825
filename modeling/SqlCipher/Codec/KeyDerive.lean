import SqlCipher.Codec.Settings

/-!
# Key derivation

`sqlcipher_cipher_ctx_key_derive` recognises key material by length, prefix, suffix and hex digits:
a raw key, one with its salt, one with HMAC key and salt, and everything else, which is a passphrase
for PBKDF2. It may replace the one salt that both cipher contexts share.

`codecKeyDerive` runs before every page operation and derives what is marked. It touches the salts
and the two cipher contexts only (`codecKeyDerive_frame`), and leaves the keys that the passphrase
gives under the recorded settings (`keyDerive_ok`).
-/

namespace SqlCipher

open Buffer CodecCtx

variable (p : Provider) (g : Globals) (e : Env) {ctx : CodecCtx}

/-! ## Hex keys -/

def cipherHex2int (c : UInt8) : UInt8 :=
  if 0x30 ≤ c ∧ c ≤ 0x39 then c - 0x30
  else if 0x41 ≤ c ∧ c ≤ 0x46 then c - 0x41 + 10
  else if 0x61 ≤ c ∧ c ≤ 0x66 then c - 0x61 + 10
  else 0

def cipherHex2bin : Bytes → Bytes
  | hi :: lo :: rest => (cipherHex2int hi <<< 4 ||| cipherHex2int lo) :: cipherHex2bin rest
  | _ => []

def cipherIsHex (bs : Bytes) : Bool :=
  bs.all fun c => (0x30 ≤ c && c ≤ 0x39) || (0x41 ≤ c && c ≤ 0x46) || (0x61 ≤ c && c ≤ 0x66)

/-- Key material of the form `x'hex'`, case-insensitive in the prefix. -/
def blobFormat (pass : Bytes) : Bool :=
  5 ≤ pass.length
    && (pass[0]? == some 0x78 || pass[0]? == some 0x58) && pass[1]? == some 0x27
    && pass[pass.length - 1]? == some 0x27
    && (pass.length - 3) % 2 == 0
    && cipherIsHex (slice pass 2 (pass.length - 3))

inductive KeyMaterial where
  | rawKey (key : Bytes)
  | rawKeySalt (key : Bytes) (salt : Salt)
  | rawKeyHmacSalt (key hmacKey : Bytes) (salt : Salt)
  | passphrase
  deriving DecidableEq

def keyMaterial (pass : Bytes) : KeyMaterial :=
  let rawKeySz := p.keySz * 2
  let rawSaltSz := fileHeaderSz * 2
  if blobFormat pass ∧ pass.length = rawKeySz + 3 then
    .rawKey (cipherHex2bin (slice pass 2 rawKeySz))
  else if blobFormat pass ∧ pass.length = rawKeySz + rawSaltSz + 3 then
    .rawKeySalt (cipherHex2bin (slice pass 2 rawKeySz))
      (Salt.ofBytes (cipherHex2bin (slice pass (2 + rawKeySz) rawSaltSz)))
  else if blobFormat pass ∧ pass.length = rawKeySz + rawKeySz + rawSaltSz + 3 then
    .rawKeyHmacSalt (cipherHex2bin (slice pass 2 rawKeySz))
      (cipherHex2bin (slice pass (2 + rawKeySz) rawKeySz))
      (Salt.ofBytes (cipherHex2bin (slice pass (2 + rawKeySz + rawKeySz) rawSaltSz)))
  else .passphrase

def KeyMaterial.saltD (m : KeyMaterial) (salt : Salt) : Salt :=
  match m with
  | .rawKeySalt _ s | .rawKeyHmacSalt _ _ s => s
  | .rawKey _ | .passphrase => salt

def KeyMaterial.hmacKeyD (m : KeyMaterial) (hmacKey : Bytes) : Bytes :=
  match m with
  | .rawKeyHmacSalt _ h _ => h
  | .rawKey _ | .rawKeySalt _ _ | .passphrase => hmacKey

def KeyMaterial.hasHmacKey : KeyMaterial → Bool
  | .rawKeyHmacSalt _ _ _ => true
  | _ => false

/-! ## What derivation computes -/

section

variable (ctx : CodecCtx)

/-- The encryption key that `pass` gives under the recorded salt, algorithm and iteration count. -/
def CodecCtx.derivedKey (pass : Bytes) : Bytes :=
  match keyMaterial p pass with
  | .rawKey key | .rawKeySalt key _ | .rawKeyHmacSalt key _ _ => key
  | .passphrase => p.kdf ctx.kdfAlgorithm pass ctx.kdfSalt.1 ctx.kdfIter p.keySz

def CodecCtx.derivedSalt (pass : Bytes) : Salt :=
  (keyMaterial p pass).saltD ctx.kdfSalt

def hmacSalt (salt : Salt) : Bytes := salt.1.map (· ^^^ g.hmacSaltMask)

def CodecCtx.derivedHmacKey (pass : Bytes) : Bytes :=
  (keyMaterial p pass).hmacKeyD
    (p.kdf ctx.kdfAlgorithm (ctx.derivedKey p pass) (hmacSalt g (ctx.derivedSalt p pass))
      ctx.fastKdfIter p.keySz)

/-! ## Deriving into a context -/

/-- Load the salt from the file header, or draw a random one when there is none to read. -/
def CodecCtx.initKdfSalt : ResultCode × CodecCtx :=
  if ctx.flags.hasKdfSalt then (.ok, ctx)
  else
    match e.fileHeader, e.saltRandom with
    | some salt, _ | none, some salt =>
      (.ok, { ctx with kdfSalt := salt, flags := { ctx.flags with hasKdfSalt := true } })
    | none, none => (.error, ctx)

def CodecCtx.wipeKeys (role : CipherRole) : CodecCtx :=
  ctx.setCipherCtx role
    { ctx.cipherCtx role with
      key := stream e.scrap p.keySz
      hmacKey := stream (fun i => e.scrap (p.keySz + i)) p.keySz }

def CodecCtx.storeKeys (role : CipherRole) (key hmacKey : Bytes) : CodecCtx :=
  ctx.setCipherCtx role
    { ctx.cipherCtx role with
      deriveKey := false, key := shield g.shieldMask key, hmacKey := shield g.shieldMask hmacKey }

def CodecCtx.deriveFrom (role : CipherRole) (pass : Bytes) :
    ResultCode × CodecCtx :=
  let m := keyMaterial p pass
  if m = .passphrase ∧ e.kdf role .key = false then (.error, ctx.wipeKeys p e role)
  else
    let key := ctx.derivedKey p pass
    let c : CodecCtx := { ctx with kdfSalt := m.saltD ctx.kdfSalt }
    if c.flags.hmac = true ∧ m.hasHmacKey = false then
      let c : CodecCtx := { c with hmacKdfSalt := hmacSalt g c.kdfSalt }
      if e.kdf role .hmacKey = false then (.error, c.wipeKeys p e role)
      else (.ok, c.storeKeys g role key
        (p.kdf c.kdfAlgorithm key c.hmacKdfSalt c.fastKdfIter p.keySz))
    else (.ok, c.storeKeys g role key (m.hmacKeyD (c.cipherCtx role).hmacKey))

def CodecCtx.keyDerive (role : CipherRole) : ResultCode × CodecCtx :=
  match (ctx.cipherCtx role).pass with
  | none => (.error, ctx)
  | some pass =>
    let r := ctx.initKdfSalt e
    if r.1 ≠ .ok then (.error, r.2.wipeKeys p e role) else r.2.deriveFrom p g e role pass

def CodecCtx.deriveRead : ResultCode × CodecCtx :=
  if ctx.readCtx.deriveKey then ctx.keyDerive p g e .read else (.ok, ctx)

def CodecCtx.deriveWrite : ResultCode × CodecCtx :=
  if ctx.writeCtx.deriveKey then
    if ctx.writeCtx.pass = ctx.readCtx.pass then (.ok, { ctx with writeCtx := ctx.readCtx })
    else ctx.keyDerive p g e .write
  else (.ok, ctx)

def CodecCtx.dropPass : CodecCtx :=
  if ctx.storePass then ctx
  else { ctx with readCtx := ctx.readCtx.setPass [], writeCtx := ctx.writeCtx.setPass [] }

def CodecCtx.codecKeyDerive : ResultCode × CodecCtx :=
  andThen (ctx.deriveRead p g e) fun c =>
  andThen (c.deriveWrite p g e) fun c => (.ok, c.dropPass)

/-! ## What derivation leaves alone -/

structure KeyState where
  kdfSalt : Salt
  hmacKdfSalt : Bytes
  hasKdfSalt : Bool
  readCtx : CipherCtx
  writeCtx : CipherCtx

@[simps] def CodecCtx.withKeys (k : KeyState) : CodecCtx :=
  { ctx with
    kdfSalt := k.kdfSalt
    hmacKdfSalt := k.hmacKdfSalt
    flags := { ctx.flags with hasKdfSalt := k.hasKdfSalt }
    readCtx := k.readCtx
    writeCtx := k.writeCtx }

end

def CodecCtx.KeyFrame (ctx ctx' : CodecCtx) : Prop := ∃ k, ctx' = ctx.withKeys k

section

variable (ctx : CodecCtx)

theorem CodecCtx.KeyFrame.refl : ctx.KeyFrame ctx :=
  ⟨⟨ctx.kdfSalt, ctx.hmacKdfSalt, ctx.flags.hasKdfSalt, ctx.readCtx, ctx.writeCtx⟩, rfl⟩

theorem CodecCtx.KeyFrame.trans {a b c : CodecCtx} (h : a.KeyFrame b) (h' : b.KeyFrame c) :
    a.KeyFrame c := by
  obtain ⟨k, rfl⟩ := h
  obtain ⟨k', rfl⟩ := h'
  exact ⟨k', rfl⟩

theorem setCipherCtx_frame (role : CipherRole) (c : CipherCtx) :
    ctx.KeyFrame (ctx.setCipherCtx role c) := by
  cases role
  · exact ⟨⟨ctx.kdfSalt, ctx.hmacKdfSalt, ctx.flags.hasKdfSalt, c, ctx.writeCtx⟩, rfl⟩
  · exact ⟨⟨ctx.kdfSalt, ctx.hmacKdfSalt, ctx.flags.hasKdfSalt, ctx.readCtx, c⟩, rfl⟩

theorem setSalt_frame (salt : Salt) (hmacKdfSalt : Bytes) (has : Bool) :
    ctx.KeyFrame { ctx with
      kdfSalt := salt, hmacKdfSalt := hmacKdfSalt
      flags := { ctx.flags with hasKdfSalt := has } } :=
  ⟨⟨salt, hmacKdfSalt, has, ctx.readCtx, ctx.writeCtx⟩, rfl⟩

theorem initKdfSalt_frame : ctx.KeyFrame (ctx.initKdfSalt e).2 := by
  unfold initKdfSalt
  split
  · exact .refl ctx
  · split
    · exact setSalt_frame ctx _ ctx.hmacKdfSalt true
    · exact setSalt_frame ctx _ ctx.hmacKdfSalt true
    · exact .refl ctx

theorem deriveFrom_frame (role : CipherRole) (pass : Bytes) :
    ctx.KeyFrame (ctx.deriveFrom p g e role pass).2 := by
  have hs (salt : Salt) (t : Bytes) := setSalt_frame ctx salt t ctx.flags.hasKdfSalt
  unfold deriveFrom
  dsimp only
  split_ifs
  · exact setCipherCtx_frame _ _ _
  · exact (hs _ _).trans (setCipherCtx_frame _ _ _)
  · exact (hs _ _).trans (setCipherCtx_frame _ _ _)
  · exact (hs _ ctx.hmacKdfSalt).trans (setCipherCtx_frame _ _ _)

theorem keyDerive_frame (role : CipherRole) :
    ctx.KeyFrame (ctx.keyDerive p g e role).2 := by
  have hr := initKdfSalt_frame e ctx
  unfold keyDerive
  cases (ctx.cipherCtx role).pass with
  | none => exact .refl ctx
  | some pass =>
    dsimp only
    split_ifs
    · exact hr.trans (setCipherCtx_frame _ _ _)
    · exact hr.trans (deriveFrom_frame p g e _ role pass)

theorem deriveRead_frame : ctx.KeyFrame (ctx.deriveRead p g e).2 := by
  unfold deriveRead
  split
  · exact keyDerive_frame p g e ctx .read
  · exact .refl ctx

theorem deriveWrite_frame : ctx.KeyFrame (ctx.deriveWrite p g e).2 := by
  unfold deriveWrite
  split_ifs
  · exact setCipherCtx_frame ctx .write ctx.readCtx
  · exact keyDerive_frame p g e ctx .write
  · exact .refl ctx

theorem dropPass_frame : ctx.KeyFrame ctx.dropPass := by
  unfold dropPass
  split
  · exact .refl ctx
  · exact ⟨⟨ctx.kdfSalt, ctx.hmacKdfSalt, ctx.flags.hasKdfSalt, _, _⟩, rfl⟩

end

theorem andThen_frame {r : ResultCode × CodecCtx} (hr : ctx.KeyFrame r.2)
    (hf : ∀ c : CodecCtx, c.KeyFrame (f c).2) : ctx.KeyFrame (andThen r f).2 := by
  unfold andThen
  split
  · exact hr.trans (hf r.2)
  · exact hr

theorem codecKeyDerive_frame (ctx : CodecCtx) : ctx.KeyFrame (ctx.codecKeyDerive p g e).2 :=
  andThen_frame (deriveRead_frame p g e ctx) fun c =>
    andThen_frame (deriveWrite_frame p g e c) dropPass_frame

variable {p g e} {role : CipherRole} {pass : Bytes}

/-! ## What derivation achieves -/

structure CodecCtx.Derived (p : Provider) (g : Globals) (ctx : CodecCtx) (role : CipherRole)
    (pass : Bytes) : Prop where
  derived : (ctx.cipherCtx role).deriveKey = false
  key : shield g.shieldMask (ctx.cipherCtx role).key = ctx.derivedKey p pass
  hmacKey : ctx.flags.hmac = true →
    shield g.shieldMask (ctx.cipherCtx role).hmacKey = ctx.derivedHmacKey p g pass

@[simp] theorem cipherCtx_setCipherCtx (ctx : CodecCtx) (role : CipherRole) (c : CipherCtx) :
    (ctx.setCipherCtx role c).cipherCtx role = c := by
  cases role <;> rfl

theorem cipherCtx_setCipherCtx_of_ne (h : role' ≠ role) (ctx : CodecCtx) (c : CipherCtx) :
    (ctx.setCipherCtx role c).cipherCtx role' = ctx.cipherCtx role' := by
  cases role <;> cases role' <;> first | rfl | exact (h rfl).elim

theorem initKdfSalt_eq (e : Env) (ctx : CodecCtx) : ∃ salt has,
    (ctx.initKdfSalt e).2 =
      { ctx with kdfSalt := salt, flags := { ctx.flags with hasKdfSalt := has } } ∧
    ((ctx.initKdfSalt e).1 = .ok → has = true) ∧
    (ctx.flags.hasKdfSalt = true → (ctx.initKdfSalt e).1 = .ok ∧ salt = ctx.kdfSalt) := by
  unfold initKdfSalt
  split_ifs with hs
  · exact ⟨ctx.kdfSalt, _, rfl, fun _ => hs, fun _ => ⟨rfl, rfl⟩⟩
  · cases e.fileHeader <;> cases e.saltRandom
    · exact ⟨ctx.kdfSalt, _, rfl, nofun, fun h => absurd h hs⟩
    all_goals exact ⟨_, _, rfl, fun _ => rfl, fun h => absurd h hs⟩

theorem initKdfSalt_cipherCtx (ctx : CodecCtx) (role : CipherRole) :
    (ctx.initKdfSalt e).2.cipherCtx role = ctx.cipherCtx role := by
  obtain ⟨salt, has, hsalt, -⟩ := initKdfSalt_eq e ctx
  rw [hsalt]
  cases role <;> rfl

theorem storeKeys_derived {c : CodecCtx} (hk : key = c.derivedKey p pass)
    (hh : c.flags.hmac = true → hmacKey = c.derivedHmacKey p g pass) :
    (c.storeKeys g role key hmacKey).Derived p g role pass := by
  subst hk
  cases role with
  | read => exact ⟨rfl, shield_shield _ _, fun h => (shield_shield _ _).trans (hh h)⟩
  | write => exact ⟨rfl, shield_shield _ _, fun h => (shield_shield _ _).trans (hh h)⟩

/-- What a successful derivation leaves: the keys of the material under the salt recorded
afterwards. Material that replaces the salt does not read it. -/
theorem deriveFrom_ok (h : (ctx.deriveFrom p g e role pass).1 = .ok) :
    (ctx.deriveFrom p g e role pass).2.Derived p g role pass := by
  unfold deriveFrom at *
  dsimp only at *
  split_ifs at * with hk hm hm'
  · refine storeKeys_derived ?_ fun _ => ?_
    · unfold derivedKey
      cases keyMaterial p pass <;> rfl
    · unfold derivedHmacKey derivedSalt derivedKey
      cases hmat : keyMaterial p pass <;> simp_all [KeyMaterial.hasHmacKey] <;> rfl
  · refine storeKeys_derived ?_ fun hhmac => ?_
    · unfold derivedKey
      cases keyMaterial p pass <;> rfl
    · unfold derivedHmacKey
      cases hmat : keyMaterial p pass <;> simp_all [KeyMaterial.hasHmacKey]
      rfl

def CodecCtx.SameOther (role : CipherRole) (ctx c : CodecCtx) : Prop :=
  ∀ role', role' ≠ role → c.cipherCtx role' = ctx.cipherCtx role'

theorem deriveFrom_cipherCtx (h : ctx.deriveFrom p g e role pass = (rc, c)) :
    (c.cipherCtx role).pass = (ctx.cipherCtx role).pass ∧
      (rc ≠ .ok → (c.cipherCtx role).deriveKey = (ctx.cipherCtx role).deriveKey) ∧
      ctx.SameOther role c ∧ c.flags = ctx.flags := by
  unfold deriveFrom at h
  dsimp only at h
  split_ifs at h <;> cases h <;> cases role <;> refine ⟨rfl, ?_, ?_, rfl⟩ <;>
    first
    | exact fun h => (h rfl).elim
    | exact fun _ => rfl
    | rintro (_ | _) h <;> first | rfl | exact (h rfl).elim

theorem keyDerive_ok (h : (ctx.keyDerive p g e role).1 = .ok) :
    ∃ pass, (ctx.cipherCtx role).pass = some pass ∧
      (ctx.keyDerive p g e role).2.Derived p g role pass ∧
      ((ctx.keyDerive p g e role).2.cipherCtx role).pass = some pass ∧
      ctx.SameOther role (ctx.keyDerive p g e role).2 ∧
      (ctx.keyDerive p g e role).2.flags = { ctx.flags with hasKdfSalt := true } := by
  obtain ⟨salt, has, hsalt, hhas, -⟩ := initKdfSalt_eq e ctx
  unfold keyDerive at *
  cases hpass : (ctx.cipherCtx role).pass with
  | none => simp [hpass] at h
  | some pass =>
    simp only [hpass] at h ⊢
    split_ifs at h ⊢ with hrc
    obtain rfl := hhas (not_not.mp hrc)
    obtain ⟨hp, -, hother, hflags⟩ := deriveFrom_cipherCtx (Prod.eta _).symm
    refine ⟨pass, rfl, deriveFrom_ok h, ?_, ?_, ?_⟩
    · rw [hp, initKdfSalt_cipherCtx, hpass]
    · exact fun role' hne => (hother role' hne).trans (initKdfSalt_cipherCtx ctx role')
    · rw [hflags, hsalt]

theorem keyDerive_error (h : (ctx.keyDerive p g e role).1 ≠ .ok) :
    ((ctx.keyDerive p g e role).2.cipherCtx role).pass = (ctx.cipherCtx role).pass ∧
      ((ctx.keyDerive p g e role).2.cipherCtx role).deriveKey = (ctx.cipherCtx role).deriveKey ∧
      ctx.SameOther role (ctx.keyDerive p g e role).2 ∧
      (ctx.flags.hasKdfSalt = true → (ctx.keyDerive p g e role).2.flags.hasKdfSalt = true) := by
  obtain ⟨salt, has, hsalt, hhas, hkeep⟩ := initKdfSalt_eq e ctx
  have hflag (h : ctx.flags.hasKdfSalt = true) : (ctx.initKdfSalt e).2.flags.hasKdfSalt = true := by
    rw [hsalt]
    exact hhas (hkeep h).1
  have hsame := @initKdfSalt_cipherCtx e ctx
  unfold keyDerive at *
  cases hpass : (ctx.cipherCtx role).pass with
  | none => exact ⟨hpass, rfl, fun _ _ => rfl, id⟩
  | some pass =>
    simp only [hpass] at h ⊢
    split_ifs at h ⊢ with hrc
    · simp only [wipeKeys, cipherCtx_setCipherCtx, hsame, hpass, true_and]
      refine ⟨fun role' hne => (cipherCtx_setCipherCtx_of_ne hne _ _).trans (hsame role'), ?_⟩
      cases role <;> exact hflag
    · obtain ⟨hp, hd, hother, hflags⟩ := deriveFrom_cipherCtx (Prod.eta _).symm
      exact ⟨by rw [hp, hsame, hpass], by rw [hd h, hsame],
        fun role' hne => (hother role' hne).trans (hsame role'), fun h => by rw [hflags, hflag h]⟩

theorem keyDerive_rc (ctx : CodecCtx) (role : CipherRole) :
    (ctx.keyDerive p g e role).1 = .ok ∨ (ctx.keyDerive p g e role).1 = .error := by
  unfold keyDerive deriveFrom
  cases (ctx.cipherCtx role).pass with
  | none => exact .inr rfl
  | some pass => dsimp only; split_ifs <;> simp

theorem codecKeyDerive_rc (ctx : CodecCtx) :
    (ctx.codecKeyDerive p g e).1 = .ok ∨ (ctx.codecKeyDerive p g e).1 = .error := by
  have hr := keyDerive_rc (p := p) (g := g) (e := e) ctx .read
  have hw := keyDerive_rc (p := p) (g := g) (e := e) (ctx.deriveRead p g e).2 .write
  simp only [codecKeyDerive, andThen, deriveRead, deriveWrite] at *
  split_ifs at * <;> first | exact .inl rfl | assumption

def CodecCtx.KeysDerived (ctx : CodecCtx) : Prop :=
  ctx.readCtx.deriveKey = false ∧ ctx.writeCtx.deriveKey = false

theorem dropPass_keysDerived (h : ctx.KeysDerived) : ctx.dropPass.KeysDerived := by
  unfold dropPass
  split <;> exact h

/-- A successful call derives for reading, then for writing, then drops the passphrases. -/
theorem codecKeyDerive_ok (h : (ctx.codecKeyDerive p g e).1 = .ok) :
    (ctx.deriveRead p g e).1 = .ok ∧ ((ctx.deriveRead p g e).2.deriveWrite p g e).1 = .ok ∧
      (ctx.codecKeyDerive p g e).2 = ((ctx.deriveRead p g e).2.deriveWrite p g e).2.dropPass := by
  unfold codecKeyDerive at *
  obtain ⟨hr, heq⟩ := andThen_ok h
  rw [heq] at h ⊢
  obtain ⟨hw, heq'⟩ := andThen_ok h
  exact ⟨hr, hw, congrArg Prod.snd heq'⟩

theorem codecKeyDerive_derived (h : (ctx.codecKeyDerive p g e).1 = .ok) :
    (ctx.codecKeyDerive p g e).2.KeysDerived := by
  obtain ⟨hr, hw, heq⟩ := codecKeyDerive_ok h
  rw [heq]
  apply dropPass_keysDerived
  have hread : (ctx.deriveRead p g e).2.readCtx.deriveKey = false := by
    unfold deriveRead at *
    split_ifs at * with hd
    · obtain ⟨_, -, hder, -⟩ := keyDerive_ok hr
      exact hder.derived
    · simpa using hd
  generalize (ctx.deriveRead p g e).2 = c at *
  unfold deriveWrite at *
  split_ifs at * with hd hp
  · exact ⟨hread, hread⟩
  · obtain ⟨_, -, hder, -, hother, -⟩ := keyDerive_ok hw
    have hsame : (c.keyDerive p g e .write).2.readCtx = c.readCtx := hother .read nofun
    exact ⟨hsame ▸ hread, hder.derived⟩
  · exact ⟨hread, Bool.eq_false_iff.mpr hd⟩

theorem codecKeyDerive_of_derived (h : ctx.KeysDerived) :
    ctx.codecKeyDerive p g e = (.ok, ctx.dropPass) := by
  simp [codecKeyDerive, deriveRead, deriveWrite, andThen, h.1, h.2]

theorem dropPass_cipherCtx (ctx : CodecCtx) (role : CipherRole) :
    (ctx.dropPass.cipherCtx role).key = (ctx.cipherCtx role).key ∧
      (ctx.dropPass.cipherCtx role).hmacKey = (ctx.cipherCtx role).hmacKey := by
  unfold dropPass
  split <;> cases role <;> exact ⟨rfl, rfl⟩

/-! ## When derivation succeeds -/

def CodecCtx.HasKeyMaterial (ctx : CodecCtx) : Prop :=
  (ctx.readCtx.deriveKey = true → ctx.readCtx.pass.isSome) ∧
    (ctx.writeCtx.deriveKey = true →
      ctx.writeCtx.pass = ctx.readCtx.pass ∨ ctx.writeCtx.pass.isSome)

structure Env.DerivesKeys (e : Env) : Prop where
  salt : e.fileHeader.isSome ∨ e.saltRandom.isSome
  kdf : ∀ role use, e.kdf role use = true

theorem initKdfSalt_of_derivesKeys (he : e.DerivesKeys) (ctx : CodecCtx) :
    (ctx.initKdfSalt e).1 = .ok := by
  have hsalt := he.salt
  unfold initKdfSalt
  split_ifs
  · rfl
  · cases hf : e.fileHeader <;> cases hr : e.saltRandom <;> simp_all

theorem keyDerive_of_derivesKeys (he : e.DerivesKeys) (h : (ctx.cipherCtx role).pass.isSome) :
    (ctx.keyDerive p g e role).1 = .ok := by
  obtain ⟨pass, hpass⟩ := Option.isSome_iff_exists.mp h
  simp only [keyDerive, hpass, initKdfSalt_of_derivesKeys he, deriveFrom, he.kdf]
  simp only [ne_eq, not_true_eq_false, if_false, Bool.true_eq_false, and_false]
  split_ifs <;> rfl

theorem deriveRead_pass (h : (ctx.deriveRead p g e).1 = .ok) :
    (ctx.deriveRead p g e).2.readCtx.pass = ctx.readCtx.pass ∧
      (ctx.deriveRead p g e).2.writeCtx = ctx.writeCtx := by
  unfold deriveRead at *
  split_ifs at *
  · obtain ⟨pass, hpass, -, hpass', hother, -⟩ := keyDerive_ok h
    exact ⟨hpass'.trans hpass.symm, hother .write nofun⟩
  · exact ⟨rfl, rfl⟩

theorem hasKeyMaterial_of_codecKeyDerive_ok (h : (ctx.codecKeyDerive p g e).1 = .ok) :
    ctx.HasKeyMaterial := by
  obtain ⟨hr, hw, -⟩ := codecKeyDerive_ok h
  obtain ⟨hpass, hwctx⟩ := deriveRead_pass hr
  constructor
  · intro hd
    rw [deriveRead, if_pos hd] at hr
    obtain ⟨pass, hpass, -⟩ := keyDerive_ok hr
    exact Option.isSome_of_eq_some hpass
  · intro hd
    unfold deriveWrite at hw
    rw [hwctx, hpass, if_pos hd] at hw
    split_ifs at hw with heq
    · exact .inl heq
    · obtain ⟨pass, hpass, -⟩ := keyDerive_ok hw
      rw [cipherCtx, hwctx] at hpass
      exact .inr (Option.isSome_of_eq_some hpass)

theorem codecKeyDerive_of_derivesKeys (he : e.DerivesKeys) (h : ctx.HasKeyMaterial) :
    (ctx.codecKeyDerive p g e).1 = .ok := by
  have hr : (ctx.deriveRead p g e).1 = .ok := by
    unfold deriveRead
    split_ifs with hd
    · exact keyDerive_of_derivesKeys he (h.1 hd)
    · rfl
  obtain ⟨hpass, hwctx⟩ := deriveRead_pass hr
  have hw : ((ctx.deriveRead p g e).2.deriveWrite p g e).1 = .ok := by
    unfold deriveWrite
    rw [hwctx, hpass]
    split_ifs with hd heq
    · rfl
    · refine keyDerive_of_derivesKeys he ?_
      rw [cipherCtx, hwctx]
      exact (h.2 hd).resolve_left heq
    · rfl
  rw [codecKeyDerive, andThen_of_ok hr, andThen_of_ok hw]

theorem Env.allOk_derivesKeys : Env.allOk.DerivesKeys := ⟨.inl rfl, fun _ _ => rfl⟩

end SqlCipher
