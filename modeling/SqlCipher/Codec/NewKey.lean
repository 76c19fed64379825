import SqlCipher.Codec.Freshness
import SqlCipher.Codec.Unlocked

/-!
# A new key for writing

The first step of a rekey sets a new passphrase for the write context (`CodecCtx.setPass`), and
the next call derives its keys. The keys for reading stay. The salt, which both contexts share,
stays only if the new key material does not bring its own (`unlocked_setPass_kdfSalt`).
-/

namespace SqlCipher

open Buffer CodecCtx

variable {p : Provider} {g : Globals} {e : Env} {ctx c : CodecCtx} {zKey pass : Bytes}

theorem initKdfSalt_setPass (ctx : CodecCtx) (zKey : Bytes) :
    (ctx.setPass zKey .write).initKdfSalt e =
      ((ctx.initKdfSalt e).1, (ctx.initKdfSalt e).2.setPass zKey .write) := by
  have hflags : (ctx.setPass zKey .write).flags = ctx.flags := rfl
  unfold initKdfSalt
  rw [hflags]
  cases ctx.flags.hasKdfSalt with
  | true => rfl
  | false => cases e.fileHeader <;> cases e.saltRandom <;> rfl

theorem deriveFrom_setPass (ctx : CodecCtx) (zKey pass : Bytes) :
    (ctx.setPass zKey .write).deriveFrom p g e .read pass =
      ((ctx.deriveFrom p g e .read pass).1,
        (ctx.deriveFrom p g e .read pass).2.setPass zKey .write) := by
  have hflags : (ctx.setPass zKey .write).flags = ctx.flags := rfl
  unfold deriveFrom
  dsimp only
  rw [hflags]
  split_ifs <;> rfl

theorem deriveRead_setPass (ctx : CodecCtx) (zKey : Bytes) :
    (ctx.setPass zKey .write).deriveRead p g e =
      ((ctx.deriveRead p g e).1, (ctx.deriveRead p g e).2.setPass zKey .write) := by
  have hread : (ctx.setPass zKey .write).readCtx = ctx.readCtx := rfl
  have hctx : (ctx.setPass zKey .write).cipherCtx .read = ctx.cipherCtx .read := rfl
  unfold deriveRead keyDerive
  rw [hread, hctx, initKdfSalt_setPass]
  cases (ctx.cipherCtx .read).pass with
  | none => split_ifs <;> rfl
  | some pass =>
    dsimp only
    rw [deriveFrom_setPass]
    split_ifs <;> rfl

theorem deriveFrom_kdfSalt (h : (ctx.deriveFrom p g e role pass).1 = .ok) :
    (ctx.deriveFrom p g e role pass).2.kdfSalt = (keyMaterial p pass).saltD ctx.kdfSalt := by
  unfold deriveFrom at *
  dsimp only at *
  split_ifs at h ⊢ <;> cases role <;> rfl

/-- Deriving under a loaded salt replaces it by that of the key material, if there is one. -/
theorem keyDerive_kdfSalt (hs : ctx.flags.hasKdfSalt = true)
    (hpass : (ctx.cipherCtx role).pass = some pass) (h : (ctx.keyDerive p g e role).1 = .ok) :
    (ctx.keyDerive p g e role).2.kdfSalt = (keyMaterial p pass).saltD ctx.kdfSalt := by
  unfold keyDerive at *
  simp only [hpass, initKdfSalt, if_pos hs, ne_eq, not_true_eq_false, if_false] at h ⊢
  exact deriveFrom_kdfSalt h

theorem deriveWrite_readCtx (h : (ctx.deriveWrite p g e).1 = .ok) :
    (ctx.deriveWrite p g e).2.readCtx = ctx.readCtx := by
  unfold deriveWrite at *
  split_ifs at *
  · rfl
  · obtain ⟨_, -, -, -, hother, -⟩ := keyDerive_ok h
    exact hother .read nofun
  · rfl

theorem CodecCtx.Derived.dropPass (h : ctx.Derived p g role pass) :
    ctx.dropPass.Derived p g role pass := by
  unfold CodecCtx.dropPass
  split
  · exact h
  · cases role <;> exact { h with }

theorem dropPass_kdfSalt (ctx : CodecCtx) : ctx.dropPass.kdfSalt = ctx.kdfSalt := by
  unfold dropPass
  split <;> rfl

/-- A pending context takes the salt it has or finds, unless the key material brings its own. -/
theorem CodecCtx.FreshFor.codecKeyDerive_kdfSalt (hf : ctx.FreshFor p g pass)
    (hd : ctx.readCtx.deriveKey = true) (hok : (ctx.codecKeyDerive p g e).1 = .ok) :
    (ctx.codecKeyDerive p g e).2.kdfSalt =
      (keyMaterial p pass).saltD (ctx.initKdfSalt e).2.kdfSalt := by
  obtain ⟨hr, -, heq⟩ := codecKeyDerive_ok hok
  obtain ⟨hpass, hwctx⟩ := deriveRead_pass hr
  have hread : (ctx.deriveRead p g e).2.kdfSalt =
      (keyMaterial p pass).saltD (ctx.initKdfSalt e).2.kdfSalt := by
    rw [deriveRead, if_pos hd] at hr ⊢
    obtain ⟨pass', hp, -⟩ := keyDerive_ok hr
    obtain rfl : pass' = pass := by
      obtain hn | hs := hf.supplied
      · cases hn.symm.trans hp
      · exact Option.mem_unique hp hs
    rw [keyDerive, hp] at hr ⊢
    dsimp only at hr ⊢
    split_ifs at hr ⊢
    exact deriveFrom_kdfSalt hr
  rw [heq, dropPass_kdfSalt, ← hread, deriveWrite]
  split_ifs with _ hsame
  · rfl
  · rw [hwctx, hpass] at hsame
    exact absurd hf.same_pass hsame
  · rfl

theorem CodecCtx.Unlockable.setPass (h : ctx.Unlockable p) (hz : zKey ≠ []) :
    (ctx.setPass zKey .write).Unlockable p where
  wf := { h.wf with }
  error := h.error
  header := h.header
  room := h.room
  material := ⟨h.material.1, fun _ => .inr (by
    simp [CodecCtx.setPass, CodecCtx.setCipherCtx, CipherCtx.setPass, hz])⟩
  hasSalt := fun hd => h.hasSalt (.inl (hd.elim id nofun))

section

variable (hf : ctx.FreshFor p g pass) (h : ctx.Unlockable p) (hz : zKey ≠ [])
include hf h hz

/-- Both the old and the new keys are derived from the context that has its key for reading. -/
theorem CodecCtx.FreshFor.unlocked_cases (page1 : Bytes) :
    ∃ c : CodecCtx, c.Derived p g .read pass ∧
    c.flags.hasKdfSalt = true ∧ (c.readCtx.pass = none ∨ c.readCtx.pass = some pass) ∧
    (ctx.unlocked p g page1).kdfSalt = c.kdfSalt ∧
    ((ctx.unlocked p g page1).readCtx.key = c.readCtx.key ∧
      (ctx.unlocked p g page1).readCtx.hmacKey = c.readCtx.hmacKey) ∧
    ((c.setPass zKey .write).deriveWrite p g (Env.allOk.onFile page1)).1 = .ok ∧
    (ctx.setPass zKey .write).unlocked p g page1 =
      ((c.setPass zKey .write).deriveWrite p g (Env.allOk.onFile page1)).2.dropPass := by
  have hok : (ctx.codecKeyDerive p g (Env.allOk.onFile page1)).1 = .ok := h.codecKeyDerive_ok
  have hok' : ((ctx.setPass zKey .write).codecKeyDerive p g (Env.allOk.onFile page1)).1 = .ok :=
    (h.setPass hz).codecKeyDerive_ok
  obtain ⟨hr, hw, heq⟩ := SqlCipher.codecKeyDerive_ok hok
  obtain ⟨-, hw', heq'⟩ := SqlCipher.codecKeyDerive_ok hok'
  rw [deriveRead_setPass] at hw' heq'
  obtain ⟨hpass, hwctx⟩ := deriveRead_pass hr
  have hread : (ctx.deriveRead p g (Env.allOk.onFile page1)).2.Derived p g .read pass ∧
      (ctx.deriveRead p g (Env.allOk.onFile page1)).2.flags.hasKdfSalt = true := by
    cases hd : ctx.readCtx.deriveKey with
    | false =>
      rw [deriveRead, if_neg (by simp [hd])]
      exact ⟨hf.fresh hd, hf.salt hd⟩
    | true =>
      rw [deriveRead, if_pos hd] at hr ⊢
      obtain ⟨pass', hp', hder, -, -, hflags⟩ := keyDerive_ok hr
      obtain hn | hs := hf.supplied
      · cases hn.symm.trans hp'
      · cases hs.symm.trans hp'
        exact ⟨hder, by rw [hflags]⟩
  generalize (ctx.deriveRead p g (Env.allOk.onFile page1)).2 = c at *
  refine ⟨c, hread.1, hread.2, hf.supplied.imp hpass.trans hpass.trans, ?_, ⟨?_, ?_⟩, hw', heq'⟩
  · rw [unlocked, heq, dropPass_kdfSalt, deriveWrite]
    split_ifs with hd hsame
    · rfl
    · rw [hwctx, hpass] at hsame
      exact absurd hf.same_pass hsame
    · rfl
  · rw [unlocked, heq]
    exact (dropPass_cipherCtx _ .read).1.trans (congrArg CipherCtx.key (deriveWrite_readCtx hw))
  · rw [unlocked, heq]
    exact (dropPass_cipherCtx _ .read).2.trans (congrArg CipherCtx.hmacKey (deriveWrite_readCtx hw))

theorem CodecCtx.FreshFor.unlocked_setPass_keys (page1 : Bytes) :
    (ctx.unlocked p g page1).SameKeys .read
      ((ctx.setPass zKey .write).unlocked p g page1) .read := by
  obtain ⟨c, -, -, -, -, ⟨hkey, hhmac⟩, hw, heq⟩ := hf.unlocked_cases h hz page1
  have hread := deriveWrite_readCtx hw
  rw [heq]
  refine ⟨?_, fun _ => ?_⟩
  · rw [(dropPass_cipherCtx _ .read).1]
    exact (congrArg CipherCtx.key hread).trans hkey.symm
  · rw [(dropPass_cipherCtx _ .read).2]
    exact (congrArg CipherCtx.hmacKey hread).trans hhmac.symm

/-- The salt stays, or is that of the new key material. -/
theorem CodecCtx.FreshFor.unlocked_setPass_kdfSalt (page1 : Bytes) :
    ((ctx.setPass zKey .write).unlocked p g page1).kdfSalt = (ctx.unlocked p g page1).kdfSalt ∨
      ((ctx.setPass zKey .write).unlocked p g page1).kdfSalt =
        (keyMaterial p zKey).saltD (ctx.unlocked p g page1).kdfSalt := by
  obtain ⟨c, -, hsalt, -, hold, -, hw, heq⟩ := hf.unlocked_cases h hz page1
  have hpass : ((c.setPass zKey .write).cipherCtx .write).pass = some zKey := if_neg hz
  rw [heq, hold, dropPass_kdfSalt]
  unfold deriveWrite at hw ⊢
  split_ifs at hw ⊢
  · exact .inl rfl
  · exact .inr (keyDerive_kdfSalt hsalt hpass hw)
  · exact .inl rfl

/-- The keys for writing are those of the new passphrase. -/
theorem CodecCtx.FreshFor.unlocked_setPass_derived (page1 : Bytes) :
    ((ctx.setPass zKey .write).unlocked p g page1).Derived p g .write zKey := by
  obtain ⟨c, hread, -, hsupplied, -, -, hw, heq⟩ := hf.unlocked_cases h hz page1
  have hpass : (c.setPass zKey .write).writeCtx.pass = some zKey := if_neg hz
  rw [heq]
  apply Derived.dropPass
  unfold deriveWrite at hw ⊢
  split_ifs at hw ⊢ with hd hsame
  · -- the passphrase that was kept is given again
    obtain hnone | hsome := hsupplied
    · cases hpass.symm.trans (hsame.trans hnone)
    · cases hpass.symm.trans (hsame.trans hsome)
      exact { hread with }
  · obtain ⟨pass', hp', hder, -⟩ := keyDerive_ok hw
    cases hp'.symm.trans hpass
    exact hder
  · exact absurd rfl hd

end

def CodecCtx.reopened (p : Provider) (ctx : CodecCtx) (zKey : Bytes) : CodecCtx :=
  let c := { (CipherCtx.blank p).setPass zKey with deriveKey := true }
  { ctx with
    error := .ok, flags := { ctx.flags with keyUsed := false, hasKdfSalt := false }
    kdfSalt := List.Vector.replicate _ 0, buffer := zeros ctx.pageSz, readCtx := c, writeCtx := c }

theorem CodecCtx.Unlockable.reopened (h : ctx.Unlockable p) (hz : zKey ≠ []) :
    (ctx.reopened p zKey).Unlockable p where
  wf := { h.wf with buffer := length_zeros _ }
  error := rfl
  header := h.header
  room := h.room
  material := ⟨fun _ => by simp [CodecCtx.reopened, CipherCtx.setPass, hz], fun _ => .inl rfl⟩
  hasSalt := fun hd => by cases hd <;> contradiction

theorem reopened_freshFor (ctx : CodecCtx) (hz : zKey ≠ []) :
    (ctx.reopened p zKey).FreshFor p g zKey :=
  .of_pending (.inr (if_neg hz)) rfl rfl rfl

theorem reopened_sameFormat (ctx : CodecCtx) (zKey : Bytes) (pgno : Pgno) :
    ctx.SameFormat pgno (ctx.reopened p zKey) :=
  ⟨rfl, rfl, rfl, fun _ => rfl, rfl, rfl, rfl, rfl⟩

/-- A new context takes the salt from the file, unless the key material brings its own. -/
theorem reopened_kdfSalt (h : ctx.Unlockable p) (hz : zKey ≠ []) (page1 : Bytes) :
    ((ctx.reopened p zKey).unlocked p g page1).kdfSalt =
      (keyMaterial p zKey).saltD (Salt.ofBytes page1) :=
  (reopened_freshFor ctx hz).codecKeyDerive_kdfSalt rfl (h.reopened hz).codecKeyDerive_ok

theorem KeyMaterial.saltD_saltD (m : KeyMaterial) (salt : Salt) :
    m.saltD (m.saltD salt) = m.saltD salt := by
  cases m <;> rfl

/-- What a passphrase gives depends on the settings and on the salt it is derived under. -/
theorem derivedKey_congr (halg : c.kdfAlgorithm = ctx.kdfAlgorithm)
    (hiter : c.kdfIter = ctx.kdfIter) (hsalt : c.derivedSalt p pass = ctx.derivedSalt p pass) :
    c.derivedKey p pass = ctx.derivedKey p pass := by
  unfold derivedSalt KeyMaterial.saltD at hsalt
  unfold derivedKey
  cases hm : keyMaterial p pass with
  | passphrase =>
    rw [hm] at hsalt
    dsimp only at hsalt ⊢
    rw [halg, hiter, hsalt]
  | _ => rfl

theorem shield_injective (h : shield mask a = shield mask b) : a = b := by
  rw [← shield_shield mask a, h, shield_shield]

/-- A new connection to a file with the same salt derives the same keys. -/
theorem CodecCtx.FreshFor.reopened_sameKeys (hf : ctx.FreshFor p g zKey) (h : ctx.Unlockable p)
    (hz : zKey ≠ []) (hsalt : Salt.ofBytes page1' = (ctx.unlocked p g page1).kdfSalt) :
    (ctx.unlocked p g page1).SameKeys .read ((ctx.reopened p zKey).unlocked p g page1') .read := by
  have hold : (ctx.unlocked p g page1).Derived p g .read zKey := by
    have hfresh : (ctx.unlocked p g page1).FreshFor p g zKey := hf.codecKeyDerive
    exact hfresh.fresh (codecKeyDerive_derived h.codecKeyDerive_ok).1
  have hnew : ((ctx.reopened p zKey).unlocked p g page1').Derived p g .read zKey := by
    have hfresh : ((ctx.reopened p zKey).unlocked p g page1').FreshFor p g zKey :=
      (reopened_freshFor ctx hz).codecKeyDerive
    exact hfresh.fresh (codecKeyDerive_derived (h.reopened hz).codecKeyDerive_ok).1
  have hder : ((ctx.reopened p zKey).unlocked p g page1').derivedSalt p zKey =
      (ctx.unlocked p g page1).derivedSalt p zKey := by
    rw [derivedSalt, reopened_kdfSalt h hz, KeyMaterial.saltD_saltD, hsalt, derivedSalt]
  obtain ⟨k, hk⟩ : ctx.KeyFrame (ctx.unlocked p g page1) := codecKeyDerive_frame p g _ ctx
  obtain ⟨k', hk'⟩ : (ctx.reopened p zKey).KeyFrame ((ctx.reopened p zKey).unlocked p g page1') :=
    codecKeyDerive_frame p g _ _
  have halg : ((ctx.reopened p zKey).unlocked p g page1').kdfAlgorithm =
      (ctx.unlocked p g page1).kdfAlgorithm := by
    rw [hk, hk']
    rfl
  have hiter : ((ctx.reopened p zKey).unlocked p g page1').kdfIter =
      (ctx.unlocked p g page1).kdfIter := by
    rw [hk, hk']
    rfl
  have hfast : ((ctx.reopened p zKey).unlocked p g page1').fastKdfIter =
      (ctx.unlocked p g page1).fastKdfIter := by
    rw [hk, hk']
    rfl
  have hhmac : ((ctx.reopened p zKey).unlocked p g page1').flags.hmac =
      (ctx.unlocked p g page1).flags.hmac := by
    rw [hk, hk']
    rfl
  have hkey := derivedKey_congr halg hiter hder
  refine ⟨shield_injective (hnew.key.trans (hkey.trans hold.key.symm)), fun hh => ?_⟩
  refine shield_injective
    ((hnew.hmacKey (hhmac.trans hh)).trans (Eq.trans ?_ (hold.hmacKey hh).symm))
  rw [derivedHmacKey, hkey, hder, halg, hfast, derivedHmacKey]

end SqlCipher
