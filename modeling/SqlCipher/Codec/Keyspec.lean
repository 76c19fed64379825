import SqlCipher.Codec.NewKey

/-!
# Key specifications

`sqlcipherCodecGetKey` hands out the key of a connection, for another connection to be keyed with.
Once the key has been derived and the passphrase dropped, what it hands out is a keyspec: encryption
key, HMAC key if there is one, and salt, as a hex literal. `keyspec_roundTrip` says that a context
keyed with it comes to have the same keys and the same salt, without running the KDF.
-/

namespace SqlCipher

open Buffer List CodecCtx

variable {p : Provider} {g g' : Globals} {e : Env} {ctx c : CodecCtx} {pass : Bytes}

def cipherInt2hex (n : UInt8) : UInt8 := if n < 10 then 0x30 + n else 0x61 + (n - 10)

def cipherBin2hex : Bytes → Bytes
  | [] => []
  | b :: bs => cipherInt2hex (b >>> 4) :: cipherInt2hex (b &&& 0x0f) :: cipherBin2hex bs

@[simp] theorem length_cipherBin2hex (bs : Bytes) : (cipherBin2hex bs).length = 2 * bs.length := by
  induction bs with
  | nil => rfl
  | cons b bs ih =>
    simp only [cipherBin2hex, length_cons, ih]
    omega

/-- The two digits of a byte are hex digits and give back the byte. -/
theorem cipherInt2hex_digits (b : UInt8) :
    cipherHex2int (cipherInt2hex (b >>> 4)) <<< 4 ||| cipherHex2int (cipherInt2hex (b &&& 0x0f)) =
      b ∧ cipherIsHex [cipherInt2hex (b >>> 4), cipherInt2hex (b &&& 0x0f)] = true := by
  have hall : ∀ n : Fin 256, cipherHex2int (cipherInt2hex (UInt8.ofFin n >>> 4)) <<< 4 |||
      cipherHex2int (cipherInt2hex (UInt8.ofFin n &&& 0x0f)) = UInt8.ofFin n ∧
      cipherIsHex [cipherInt2hex (UInt8.ofFin n >>> 4), cipherInt2hex (UInt8.ofFin n &&& 0x0f)] =
        true := by
    decide +kernel
  exact hall b.toFin

theorem cipherHex2bin_cipherBin2hex (bs : Bytes) : cipherHex2bin (cipherBin2hex bs) = bs := by
  induction bs with
  | nil => rfl
  | cons b bs ih => rw [cipherBin2hex, cipherHex2bin, (cipherInt2hex_digits b).1, ih]

theorem cipherIsHex_append (xs ys : Bytes) :
    cipherIsHex (xs ++ ys) = (cipherIsHex xs && cipherIsHex ys) :=
  all_append

theorem cipherIsHex_cipherBin2hex (bs : Bytes) : cipherIsHex (cipherBin2hex bs) = true := by
  induction bs with
  | nil => rfl
  | cons b bs ih =>
    have happ : cipherBin2hex (b :: bs) =
        [cipherInt2hex (b >>> 4), cipherInt2hex (b &&& 0x0f)] ++ cipherBin2hex bs := rfl
    rw [happ, cipherIsHex_append, (cipherInt2hex_digits b).2, ih]
    rfl

def blobLiteral (body : Bytes) : Bytes := [0x78, 0x27] ++ body ++ [0x27]

@[simp] theorem length_blobLiteral (body : Bytes) :
    (blobLiteral body).length = body.length + 3 := by
  simp [blobLiteral]

theorem slice_blobLiteral (h : off + len ≤ body.length) :
    slice (blobLiteral body) (2 + off) len = slice body off len := by
  have hdrop : (blobLiteral body).drop (2 + off) = body.drop off ++ [0x27] := by
    rw [← drop_drop, blobLiteral, append_assoc]
    have hle : off ≤ body.length := by omega
    exact drop_append_of_le_length hle
  rw [slice, slice, hdrop, take_append_of_le_length (by rw [length_drop]; omega)]

theorem blobFormat_blobLiteral (hhex : cipherIsHex body = true) (h2 : 2 ≤ body.length)
    (heven : body.length % 2 = 0) : blobFormat (blobLiteral body) = true := by
  have hlast : (blobLiteral body)[(blobLiteral body).length - 1]? = some 0x27 := by
    rw [length_blobLiteral, blobLiteral, getElem?_append_right (by simp)]
    simp
  have hbody : slice (blobLiteral body) 2 ((blobLiteral body).length - 3) = body := by
    have hslice : slice (blobLiteral body) (2 + 0) body.length = slice body 0 body.length :=
      slice_blobLiteral (by omega)
    rw [slice_all] at hslice
    rw [length_blobLiteral]
    exact hslice
  have h0 : (blobLiteral body)[0]? = some 0x78 := rfl
  have h1 : (blobLiteral body)[1]? = some 0x27 := rfl
  have hlen := length_blobLiteral body
  unfold blobFormat
  rw [hlast, hbody, h0, h1, hhex, hlen]
  simp [h2, heven]

def CodecCtx.getKeyspec (g : Globals) (ctx : CodecCtx) (role : CipherRole) : Bytes :=
  blobLiteral (cipherBin2hex (shield g.shieldMask (ctx.cipherCtx role).key) ++
    (if ctx.flags.hmac then
      cipherBin2hex (shield g.shieldMask (ctx.cipherCtx role).hmacKey) else []) ++
    cipherBin2hex ctx.kdfSalt.1)

/-- `sqlcipherCodecGetKey`: the key material while it is there, and the keyspec otherwise. -/
def CodecCtx.codecGetKey (g : Globals) (ctx : CodecCtx) : Bytes :=
  if ctx.readCtx.deriveKey || ctx.storePass then ctx.readCtx.pass.getD []
  else ctx.getKeyspec g .read

theorem cipherBin2hex_append (xs ys : Bytes) :
    cipherBin2hex (xs ++ ys) = cipherBin2hex xs ++ cipherBin2hex ys := by
  induction xs with
  | nil => rfl
  | cons x xs ih => rw [cons_append, cipherBin2hex, ih, cipherBin2hex, cons_append,
      cons_append]

theorem cipherBin2hex_take (bs : Bytes) (n : Nat) :
    (cipherBin2hex bs).take (n * 2) = cipherBin2hex (bs.take n) := by
  induction bs generalizing n with
  | nil => simp [cipherBin2hex]
  | cons b bs ih =>
    cases n with
    | zero => rfl
    | succ n => rw [Nat.succ_mul, take_succ_cons, cipherBin2hex, cipherBin2hex, ← ih]; rfl

theorem cipherBin2hex_drop (bs : Bytes) (n : Nat) :
    (cipherBin2hex bs).drop (n * 2) = cipherBin2hex (bs.drop n) := by
  induction bs generalizing n with
  | nil => simp [cipherBin2hex]
  | cons b bs ih =>
    cases n with
    | zero => rfl
    | succ n => rw [Nat.succ_mul, drop_succ_cons, cipherBin2hex, ← ih]; rfl

/-- A part of a literal is decoded to the bytes it was made from. -/
theorem cipherHex2bin_slice (h : off + n ≤ bs.length) :
    cipherHex2bin (slice (blobLiteral (cipherBin2hex bs)) (2 + off * 2) (n * 2)) =
      slice bs off n := by
  rw [slice_blobLiteral (by rw [length_cipherBin2hex]; omega), slice, cipherBin2hex_drop,
    cipherBin2hex_take, cipherHex2bin_cipherBin2hex, slice]

theorem blobFormat_cipherBin2hex (h : 0 < bs.length) :
    blobFormat (blobLiteral (cipherBin2hex bs)) = true := by
  exact blobFormat_blobLiteral (cipherIsHex_cipherBin2hex bs) (by rw [length_cipherBin2hex]; omega)
    (by rw [length_cipherBin2hex]; omega)

theorem keyMaterial_keySalt (h : bs.length = p.keySz + fileHeaderSz) :
    keyMaterial p (blobLiteral (cipherBin2hex bs)) =
      .rawKeySalt (slice bs 0 p.keySz) (Salt.ofBytes (slice bs p.keySz fileHeaderSz)) := by
  have h16 : fileHeaderSz = 16 := rfl
  have hblob := @blobFormat_cipherBin2hex bs (by omega)
  have hkey := @cipherHex2bin_slice 0 p.keySz bs (by omega)
  have hsalt := @cipherHex2bin_slice p.keySz fileHeaderSz bs (by omega)
  rw [Nat.zero_mul, Nat.add_zero] at hkey
  simp only [keyMaterial, hblob, length_blobLiteral, length_cipherBin2hex, h, true_and, hkey, hsalt]
  rw [if_neg (by omega), if_pos (by omega)]

theorem keyMaterial_keyHmacSalt (h : bs.length = p.keySz + p.keySz + fileHeaderSz) :
    keyMaterial p (blobLiteral (cipherBin2hex bs)) =
      .rawKeyHmacSalt (slice bs 0 p.keySz) (slice bs p.keySz p.keySz)
        (Salt.ofBytes (slice bs (p.keySz + p.keySz) fileHeaderSz)) := by
  have h16 : fileHeaderSz = 16 := rfl
  have hpos := p.keySz_pos
  have hblob := @blobFormat_cipherBin2hex bs (by omega)
  have hkey := @cipherHex2bin_slice 0 p.keySz bs (by omega)
  have hhmac := @cipherHex2bin_slice p.keySz p.keySz bs (by omega)
  have hsalt := @cipherHex2bin_slice (p.keySz + p.keySz) fileHeaderSz bs (by omega)
  rw [Nat.zero_mul, Nat.add_zero] at hkey
  rw [Nat.add_mul, ← Nat.add_assoc] at hsalt
  simp only [keyMaterial, hblob, length_blobLiteral, length_cipherBin2hex, h, true_and, hkey, hhmac,
    hsalt]
  rw [if_neg (by omega), if_neg (by omega), if_pos (by omega)]

theorem Salt.ofBytes_val (salt : Salt) : Salt.ofBytes salt.1 = salt := by
  apply Salt.ofBytes_eq
  have hall := slice_all salt.1
  rwa [show salt.1.length = fileHeaderSz from salt.2] at hall

theorem keyMaterial_getKeyspec (hkey : (ctx.cipherCtx role).key.length = p.keySz)
    (hhmac : (ctx.cipherCtx role).hmacKey.length = p.keySz) :
    keyMaterial p (ctx.getKeyspec g role) =
      if ctx.flags.hmac then
        .rawKeyHmacSalt (shield g.shieldMask (ctx.cipherCtx role).key)
          (shield g.shieldMask (ctx.cipherCtx role).hmacKey) ctx.kdfSalt
      else .rawKeySalt (shield g.shieldMask (ctx.cipherCtx role).key) ctx.kdfSalt := by
  have hsalt : ctx.kdfSalt.1.length = fileHeaderSz := ctx.kdfSalt.2
  have hk : (shield g.shieldMask (ctx.cipherCtx role).key).length = p.keySz :=
    (length_shield _ _).trans hkey
  have hh : (shield g.shieldMask (ctx.cipherCtx role).hmacKey).length = p.keySz :=
    (length_shield _ _).trans hhmac
  have hofBytes := ctx.kdfSalt.ofBytes_val
  unfold getKeyspec
  generalize shield g.shieldMask (ctx.cipherCtx role).key = key at *
  generalize shield g.shieldMask (ctx.cipherCtx role).hmacKey = hmacKey at *
  generalize ctx.kdfSalt.1 = salt at *
  have hafter (rest : Bytes) (off len : Nat) :
      slice (key ++ rest) (p.keySz + off) len = slice rest off len := hk ▸ slice_append_right ..
  have hfront (rest : Bytes) : slice (key ++ rest) 0 p.keySz = key := hk ▸ slice_append_left ..
  have hend : slice salt 0 fileHeaderSz = salt := hsalt ▸ slice_all salt
  cases ctx.flags.hmac with
  | false =>
    rw [if_neg (by decide), if_neg (by decide), append_nil, ← cipherBin2hex_append,
      keyMaterial_keySalt (by rw [length_append, hk, hsalt]), hfront,
      ← Nat.add_zero p.keySz, hafter, hend, hofBytes]
  | true =>
    have hmiddle : slice (hmacKey ++ salt) 0 p.keySz = hmacKey := hh ▸ slice_append_left ..
    have hlast : slice (hmacKey ++ salt) p.keySz fileHeaderSz = salt := by
      rw [← hh, ← Nat.add_zero hmacKey.length, slice_append_right, hend]
    rw [if_pos rfl, if_pos rfl, ← cipherBin2hex_append, ← cipherBin2hex_append, append_assoc,
      keyMaterial_keyHmacSalt (by simp only [length_append, hk, hh, hsalt]; omega), hfront,
      hafter, hlast, hofBytes]
    have hsecond := hafter (hmacKey ++ salt) 0 p.keySz
    rw [Nat.add_zero, hmiddle] at hsecond
    rw [hsecond]

/-- Key material that brings all the keys needed is derived without the KDF. -/
theorem deriveFrom_of_raw (hm : keyMaterial p pass ≠ .passphrase)
    (hhmac : ctx.flags.hmac = true → (keyMaterial p pass).hasHmacKey = true) :
    (ctx.deriveFrom p g e role pass).1 = .ok := by
  unfold deriveFrom
  dsimp only
  rw [if_neg fun h => hm h.1, if_neg fun h => by simp [hhmac h.1] at h]

/-- A pending context with such material in both roles derives its keys once it has a salt. -/
theorem codecKeyDerive_of_raw (hr : c.readCtx.deriveKey = true) (hpass : c.readCtx.pass = some pass)
    (hsame : c.writeCtx = c.readCtx) (hsalt : (c.initKdfSalt e).1 = .ok)
    (hm : keyMaterial p pass ≠ .passphrase)
    (hhmac : c.flags.hmac = true → (keyMaterial p pass).hasHmacKey = true) :
    (c.codecKeyDerive p g e).1 = .ok := by
  have hread : c.deriveRead p g e = (c.initKdfSalt e).2.deriveFrom p g e .read pass := by
    have hpass' : (c.cipherCtx .read).pass = some pass := hpass
    rw [deriveRead, if_pos hr, keyDerive, hpass']
    dsimp only
    rw [if_neg (not_not.mpr hsalt)]
  have hok : (c.deriveRead p g e).1 = .ok := by
    rw [hread]
    refine deriveFrom_of_raw hm fun hh => hhmac ?_
    obtain ⟨salt, has, heq, -⟩ := initKdfSalt_eq e c
    rw [heq] at hh
    exact hh
  obtain ⟨hp, hw⟩ := deriveRead_pass hok
  have hsame' : (c.deriveRead p g e).2.writeCtx.pass = (c.deriveRead p g e).2.readCtx.pass := by
    rw [hw, hp, hsame]
  have hwrite : ((c.deriveRead p g e).2.deriveWrite p g e).1 = .ok := by
    unfold deriveWrite
    split_ifs <;> rfl
  rw [codecKeyDerive, andThen_of_ok hok, andThen_of_ok hwrite]

/-- The keyspec of a context with derived keys is never taken for a passphrase. As the passphrase of
a fresh context with the same key size and HMAC setting, it gives the same encryption key and salt
and, with HMAC on, the same HMAC key, once that context has loaded or drawn a salt. Keys are
compared as they are outside of memory. -/
theorem keyspec_roundTrip (p : Provider) (g g' : Globals) (e : Env) (ctx c : CodecCtx)
    (hderived : ctx.readCtx.deriveKey = false) (hstore : ctx.storePass = false)
    (hkey : ctx.readCtx.key.length = p.keySz) (hhmacKey : ctx.readCtx.hmacKey.length = p.keySz)
    (hr : c.readCtx.deriveKey = true) (hpass : c.readCtx.pass = some (ctx.codecGetKey g))
    (hsame : c.writeCtx = c.readCtx) (hhmac : c.flags.hmac = ctx.flags.hmac)
    (hsalt : (c.initKdfSalt e).1 = .ok) :
    keyMaterial p (ctx.codecGetKey g) ≠ .passphrase ∧ (c.codecKeyDerive p g' e).1 = .ok ∧
      (c.codecKeyDerive p g' e).2.kdfSalt = ctx.kdfSalt ∧
      ∀ role, ((c.codecKeyDerive p g' e).2.cipherCtx role).deriveKey = false ∧
        shield g'.shieldMask ((c.codecKeyDerive p g' e).2.cipherCtx role).key =
          shield g.shieldMask ctx.readCtx.key ∧
        (ctx.flags.hmac = true →
          shield g'.shieldMask ((c.codecKeyDerive p g' e).2.cipherCtx role).hmacKey =
            shield g.shieldMask ctx.readCtx.hmacKey) := by
  have hspec : ctx.codecGetKey g = ctx.getKeyspec g .read := by
    rw [codecGetKey, hderived, hstore]
    rfl
  have hm : keyMaterial p (ctx.codecGetKey g) = if ctx.flags.hmac then
        .rawKeyHmacSalt (shield g.shieldMask ctx.readCtx.key)
          (shield g.shieldMask ctx.readCtx.hmacKey)
          ctx.kdfSalt
      else .rawKeySalt (shield g.shieldMask ctx.readCtx.key) ctx.kdfSalt := by
    have hread : (ctx.cipherCtx .read).key.length = p.keySz := hkey
    rw [hspec, keyMaterial_getKeyspec hread hhmacKey]
    rfl
  have hne : keyMaterial p (ctx.codecGetKey g) ≠ .passphrase := by
    rw [hm]
    split <;> nofun
  have hok : (c.codecKeyDerive p g' e).1 = .ok := by
    refine codecKeyDerive_of_raw hr hpass hsame hsalt hne fun hh => ?_
    rw [hm, if_pos (hhmac.symm.trans hh)]
    rfl
  have hfresh : c.FreshFor p g' (ctx.codecGetKey g) :=
    .of_pending (.inr hpass) (by rw [hsame]) hr (by rw [hsame, hr])
  have hder := codecKeyDerive_derived hok
  refine ⟨hne, hok, ?_, fun role => ?_⟩
  · rw [hfresh.codecKeyDerive_kdfSalt hr hok, hm]
    split <;> rfl
  · obtain ⟨hd, hk, hh⟩ := hfresh.codecKeyDerive.derived hder.1 role
    refine ⟨hd, ?_, fun hon => ?_⟩
    · rw [hk, derivedKey, hm]
      split_ifs <;> rfl
    · have hon' : (c.codecKeyDerive p g' e).2.flags.hmac = true := by
        obtain ⟨k, hk⟩ := codecKeyDerive_frame p g' e c
        rw [hk]
        exact hhmac.trans hon
      rw [hh hon', derivedHmacKey, hm, if_pos hon]
      rfl

def CodecCtx.keyed : CodecCtx :=
  (initial .toy .initial [0x6b]).codecKeyDerive .toy .initial .allOk |>.2

/-- A fresh context that takes over the keyspec of `CodecCtx.keyed`. -/
def CodecCtx.rekeyed : CodecCtx :=
  initial .toy .initial (keyed.codecGetKey .initial)

theorem keyspec_roundTrip_keyed :
    (rekeyed.codecKeyDerive .toy .initial .allOk).2.kdfSalt = keyed.kdfSalt ∧
    ∀ role, shield Globals.initial.shieldMask
      ((rekeyed.codecKeyDerive .toy .initial .allOk).2.cipherCtx role).key =
        shield Globals.initial.shieldMask keyed.readCtx.key := by
  obtain ⟨-, -, hsalt, hkeys⟩ := keyspec_roundTrip .toy .initial .initial .allOk .keyed .rekeyed
    (by decide +kernel) (by decide +kernel) (by decide +kernel) (by decide +kernel) rfl
    (by decide +kernel) rfl (by decide +kernel) rfl
  exact ⟨hsalt, fun role => (hkeys role).2.1⟩

end SqlCipher
