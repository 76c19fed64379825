import SqlCipher.Codec.SessionSpec

/-!
# Keys in use are keys of the settings

A context derives its keys once, at the first page operation or integrity check. A setting that
changes what the passphrase gives must therefore ask for a new derivation. The iteration counts and
the compatibility level do; the KDF algorithm, the salt and the HMAC switch do not, and come too
late after an integrity check or a failed read, which derive keys and leave them unused.

`keys_fresh`: while no such setting changes between derivation and first use, the keys of every page
operation are those of the last passphrase under the settings recorded then.
-/

namespace SqlCipher

open CodecCtx Session

variable {p : Provider} {g : Globals} {e : Env} {ctx c : CodecCtx} {pass : Bytes} {pgno : Pgno}

def Session.supplied (s : Session) (last : Option Bytes) : Op → Option Bytes
  | .attach zKey => if s.takesKey zKey then some zKey else last
  | _ => last

def Session.stepKeyed (p : Provider) (s : Session × Option Bytes) (o : Env × Op) :
    Option (Session × Option Bytes) :=
  (s.1.step p o).map fun s' => (s', s.1.supplied s.2 o.2)

/-- Both cipher contexts are pending, for the passphrase or, once it is wiped, for nothing; or both
hold the keys it gives under the recorded settings. -/
structure CodecCtx.FreshFor (p : Provider) (g : Globals) (ctx : CodecCtx) (pass : Bytes) :
    Prop where
  supplied : ctx.readCtx.pass = none ∨ ctx.readCtx.pass = some pass
  same_pass : ctx.writeCtx.pass = ctx.readCtx.pass
  same_pending : ctx.writeCtx.deriveKey = ctx.readCtx.deriveKey
  salt : ctx.readCtx.deriveKey = false → ctx.flags.hasKdfSalt = true
  fresh : ctx.readCtx.deriveKey = false → ctx.Derived p g .read pass
  same_keys : ctx.readCtx.deriveKey = false →
    ctx.writeCtx.key = ctx.readCtx.key ∧ ctx.writeCtx.hmacKey = ctx.readCtx.hmacKey

theorem CodecCtx.FreshFor.derived (h : ctx.FreshFor p g pass) (hd : ctx.readCtx.deriveKey = false)
    (role : CipherRole) : ctx.Derived p g role pass := by
  have hr := h.fresh hd
  cases role with
  | read => exact hr
  | write =>
    obtain ⟨hk, hh⟩ := h.same_keys hd
    exact ⟨h.same_pending.trans hd, (congrArg _ hk).trans hr.key,
      fun hm => (congrArg _ hh).trans (hr.hmacKey hm)⟩

/-- While derivation is pending, nothing but the passphrases matters. -/
theorem CodecCtx.FreshFor.of_pending (hp : ctx.readCtx.pass = none ∨ ctx.readCtx.pass = some pass)
    (hs : ctx.writeCtx.pass = ctx.readCtx.pass) (hr : ctx.readCtx.deriveKey = true)
    (hw : ctx.writeCtx.deriveKey = true) : ctx.FreshFor p g pass := by
  have hne : ctx.readCtx.deriveKey ≠ false := by simp [hr]
  exact ⟨hp, hs, hw.trans hr.symm, (absurd · hne), (absurd · hne), (absurd · hne)⟩

theorem initial_freshFor (h : zKey ≠ []) : (initial p g zKey).FreshFor p g zKey :=
  .of_pending (.inr (if_neg h)) rfl rfl rfl

theorem CodecCtx.FreshFor.dropPass (h : ctx.FreshFor p g pass) :
    ctx.dropPass.FreshFor p g pass := by
  unfold CodecCtx.dropPass
  split
  · exact h
  · exact { h with
      supplied := .inl rfl
      same_pass := rfl
      fresh := fun hd => { h.fresh hd with } }

/-- The two derivations of a call leave both contexts derived, or both pending. -/
theorem CodecCtx.FreshFor.codecKeyDerive (h : ctx.FreshFor p g pass) :
    (ctx.codecKeyDerive p g e).2.FreshFor p g pass := by
  cases hd : ctx.readCtx.deriveKey with
  | false =>
    rw [codecKeyDerive_of_derived ⟨hd, h.same_pending.trans hd⟩]
    exact h.dropPass
  | true =>
    have hread : ctx.deriveRead p g e = ctx.keyDerive p g e .read := if_pos hd
    by_cases hrc : (ctx.keyDerive p g e .read).1 = .ok
    · obtain ⟨pass', hpass, hder, hp, hother, hflags⟩ := keyDerive_ok hrc
      obtain rfl : pass' = pass := by
        obtain hn | hs := h.supplied
        · cases hn.symm.trans hpass
        · exact Option.mem_unique hpass hs
      have hwctx : (ctx.keyDerive p g e .read).2.writeCtx = ctx.writeCtx := hother .write nofun
      have hwrite : (ctx.keyDerive p g e .read).2.deriveWrite p g e =
          (.ok, { (ctx.keyDerive p g e .read).2 with
            writeCtx := (ctx.keyDerive p g e .read).2.readCtx }) := by
        have hpending : (ctx.keyDerive p g e .read).2.writeCtx.deriveKey = true := by
          rw [hwctx, h.same_pending, hd]
        have hsame : (ctx.keyDerive p g e .read).2.writeCtx.pass =
            (ctx.keyDerive p g e .read).2.readCtx.pass := by
          rw [hwctx, h.same_pass]
          exact hpass.trans hp.symm
        rw [CodecCtx.deriveWrite, if_pos hpending, if_pos hsame]
      rw [CodecCtx.codecKeyDerive, hread, andThen_of_ok hrc, hwrite, andThen_of_ok rfl]
      refine CodecCtx.FreshFor.dropPass ⟨.inr hp, rfl, rfl, fun _ => ?_, fun _ => ?_,
        fun _ => ⟨rfl, rfl⟩⟩
      · rw [hflags]
      · exact { hder with }
    · obtain ⟨hp, hdk, hother, -⟩ := keyDerive_error hrc
      have hw : (ctx.keyDerive p g e .read).2.writeCtx = ctx.writeCtx := hother .write nofun
      rw [CodecCtx.codecKeyDerive, hread, andThen, if_neg hrc]
      refine .of_pending ?_ ?_ (hdk.trans hd) ?_
      · exact h.supplied.imp hp.trans hp.trans
      · rw [hw]
        exact h.same_pass.trans hp.symm
      · rw [hw]
        exact h.same_pending.trans hd

/-- A derived context has its salt, and loading it again changes nothing. -/
theorem CodecCtx.FreshFor.salted_eq (h : ctx.FreshFor p g pass)
    (hd : ctx.readCtx.deriveKey = false) : ctx.salted e pgno = (.ok, ctx) := by
  rw [salted, initKdfSalt, if_pos (h.salt hd), ite_self]

theorem CodecCtx.FreshFor.stage (h : ctx.FreshFor p g pass) (hs : ctx.KeyStage p g e pgno c) :
    c.FreshFor p g pass := by
  cases hs with
  | untouched => exact h
  | derived => exact h.codecKeyDerive
  | salted hok =>
    have hf := h.codecKeyDerive (e := e)
    rw [hf.salted_eq (codecKeyDerive_derived hok).1]
    exact hf

/-- What the keys depend on is the same, except that HMAC may have been turned off. -/
structure CodecCtx.SameDerivation (ctx c : CodecCtx) : Prop where
  kdfSalt : c.kdfSalt = ctx.kdfSalt
  hasSalt : ctx.flags.hasKdfSalt = true → c.flags.hasKdfSalt = true
  kdfAlgorithm : c.kdfAlgorithm = ctx.kdfAlgorithm
  kdfIter : c.kdfIter = ctx.kdfIter
  fastKdfIter : c.fastKdfIter = ctx.fastKdfIter
  hmac : c.flags.hmac = true → ctx.flags.hmac = true

theorem CodecCtx.Derived.of_same (h : ctx.Derived p g role pass)
    (hc : c.cipherCtx role = ctx.cipherCtx role) (hs : ctx.SameDerivation c) :
    c.Derived p g role pass := by
  have hk : c.derivedKey p pass = ctx.derivedKey p pass := by
    simp only [derivedKey, hs.kdfAlgorithm, hs.kdfSalt, hs.kdfIter]
  have hh : c.derivedHmacKey p g pass = ctx.derivedHmacKey p g pass := by
    simp only [derivedHmacKey, derivedSalt, hk, hs.kdfAlgorithm, hs.kdfSalt, hs.fastKdfIter]
  exact ⟨hc ▸ h.derived, hc ▸ hk ▸ h.key, fun hm => hc ▸ hh ▸ h.hmacKey (hs.hmac hm)⟩

/-- A change of settings that leaves the cipher contexts alone matters only after derivation. -/
theorem CodecCtx.FreshFor.of_settings (h : ctx.FreshFor p g pass) (hr : c.readCtx = ctx.readCtx)
    (hw : c.writeCtx = ctx.writeCtx) (hs : ctx.readCtx.deriveKey = false → ctx.SameDerivation c) :
    c.FreshFor p g pass where
  supplied := hr ▸ h.supplied
  same_pass := by rw [hr, hw, h.same_pass]
  same_pending := by rw [hr, hw, h.same_pending]
  salt hd := (hs (hr ▸ hd)).hasSalt (h.salt (hr ▸ hd))
  fresh hd := (h.fresh (hr ▸ hd)).of_same hr (hs (hr ▸ hd))
  same_keys hd := by
    rw [hr, hw]
    exact h.same_keys (hr ▸ hd)

theorem CodecCtx.FreshFor.use (h : ctx.FreshFor p g pass) (hu : ctx.UseFrame c) :
    c.FreshFor p g pass := by
  obtain ⟨b, used, rc, rfl, -⟩ := hu
  exact h.of_settings rfl rfl fun _ => ⟨rfl, id, rfl, rfl, rfl, id⟩

/-- The pragma records the KDF algorithm and salt that are there already, and does not turn HMAC on.
-/
def Pragma.KeepsKeys (ctx : CodecCtx) : Pragma → Prop
  | .cipherKdfAlgorithm (some a) => a = ctx.kdfAlgorithm
  | .cipherSalt z => isBlobLiteral z (fileHeaderSz * 2 + 3) = true →
      Salt.ofBytes (cipherHex2bin (Buffer.slice z 2 (fileHeaderSz * 2))) = ctx.kdfSalt
  | .cipherUseHmac on => on = true → ctx.flags.hmac = true
  | _ => True

theorem CodecCtx.Noted.freshFor (h : ctx.Noted c) (hf : ctx.FreshFor p g pass) :
    c.FreshFor p g pass := by
  obtain ⟨rc, rfl, -⟩ := h
  exact hf.of_settings rfl rfl fun _ => ⟨rfl, id, rfl, rfl, rfl, id⟩

theorem Pragma.Effect.freshFor {pragma : Pragma} (heff : pragma.Effect p g e ctx c)
    (h : ctx.FreshFor p g pass)
    (hkeep : ctx.readCtx.deriveKey = false → ctx.flags.keyUsed = false → pragma.KeepsKeys ctx) :
    c.FreshFor p g pass := by
  cases heff with
  -- settings that ask for a new derivation
  | kdfIter n hu => exact .of_pending h.supplied h.same_pass rfl rfl
  | fastKdfIter n hu => exact .of_pending h.supplied h.same_pass rfl rfl
  | compatibility version hu =>
    rw [ctx.setCompatibility_eq, if_neg (by simp [hu])]
    exact .of_pending h.supplied h.same_pass rfl rfl
  -- settings that should and do not
  | kdfAlgorithm a hu =>
    exact h.of_settings rfl rfl fun hd => ⟨rfl, id, hkeep hd hu, rfl, rfl, id⟩
  | salt z hu hz =>
    exact h.of_settings rfl rfl fun hd => ⟨hkeep hd hu hz, fun _ => rfl, rfl, rfl, rfl, id⟩
  | useHmac on hu => exact h.of_settings rfl rfl fun hd => ⟨rfl, id, rfl, rfl, rfl, hkeep hd hu⟩
  | saltQuery =>
    cases hd : ctx.readCtx.deriveKey with
    | false => rwa [initKdfSalt, if_pos (h.salt hd)]
    | true =>
      obtain ⟨salt, has, heq, -⟩ := initKdfSalt_eq e ctx
      rw [heq]
      exact h.of_settings rfl rfl fun hd' => by cases hd.symm.trans hd'
  | check f r hr =>
    obtain ⟨c, hs, hu⟩ := integrityCheck_stage hr
    exact (h.stage hs).use hu
  | _ => exact h.of_settings rfl rfl fun _ => ⟨rfl, id, rfl, rfl, rfl, id⟩

theorem CodecCtx.FreshFor.of_globals (h : ctx.FreshFor p g pass) (hs : g'.shieldMask = g.shieldMask)
    (hm : ctx.readCtx.deriveKey = false → g'.hmacSaltMask = g.hmacSaltMask) :
    ctx.FreshFor p g' pass := by
  refine { h with fresh := fun hd => ?_ }
  obtain ⟨hder, hkey, hhmac⟩ := h.fresh hd
  refine ⟨hder, hs ▸ hkey, fun hh => ?_⟩
  rw [hs, hhmac hh]
  simp only [derivedHmacKey, hmacSalt, hm hd]

/-- The mask is set by a pragma that does nothing else. -/
theorem Pragma.saltMask_or (pragma : Pragma) (g : Globals) :
    pragma.saltMask g = g ∨ ∀ ctx, pragma.onCtx p e g ctx = some ctx := by
  cases pragma with
  | cipherHmacSaltMask z => exact .inr fun _ => rfl
  | _ => exact .inl rfl

/-- A step of `sqlite3_rekey_v2`. -/
def Op.isRekey : Op → Bool
  | .setPass _ | .keyCopy => true
  | .attach _ | .pragma _ | .page _ _ _ => false

/-- The step does not come too late: it leaves alone what derived and unused keys depend on, and the
HMAC salt mask, which has no guard, also under a used key. -/
def KeepsKeys (s : Session × Option Bytes) (o : Env × Op) : Prop :=
  ∀ ctx pragma, s.1.codec = some ctx → o.2 = .pragma pragma → ctx.readCtx.deriveKey = false →
    (ctx.flags.keyUsed = false → pragma.KeepsKeys ctx) ∧
      (pragma.saltMask s.1.globals).hmacSaltMask = s.1.globals.hmacSaltMask

def Session.Fresh (p : Provider) (s : Session × Option Bytes) : Prop :=
  ∀ ctx, s.1.codec = some ctx → ∃ pass, s.2 = some pass ∧ ctx.FreshFor p s.1.globals pass

theorem Session.attach_fresh (h : Fresh p (s, last)) :
    Fresh p ((s.attach p zKey).2, s.supplied last (.attach zKey)) := by
  intro c hc
  by_cases htake : s.takesKey zKey = true
  · have hsup : s.supplied last (.attach zKey) = some zKey := if_pos htake
    simp only [takesKey, Bool.and_eq_true, decide_eq_true_eq, Bool.not_eq_true'] at htake
    obtain ⟨⟨hkey, hused⟩, hshare⟩ := htake
    simp only [attach, if_neg hkey, hused, hshare, Bool.false_eq_true, if_false] at hc ⊢
    split_ifs at hc ⊢ with hinit
    cases hc
    rw [(codecCtxInit_ok hinit).1]
    exact ⟨zKey, hsup, initial_freshFor hkey⟩
  · have hsup : s.supplied last (.attach zKey) = last := if_neg htake
    have hsame : (s.attach p zKey).2 = s := attach_of_not_takesKey htake
    simp only [hsame, hsup] at hc ⊢
    exact h c hc

theorem Session.stepKeyed_fresh {s s' : Session × Option Bytes} (h : Fresh p s)
    (hrekey : o.2.isRekey = false) (hkeep : KeepsKeys s o) (hstep : stepKeyed p s o = some s') :
    Fresh p s' := by
  obtain ⟨s, last⟩ := s
  obtain ⟨e, op⟩ := o
  obtain ⟨t, ht, rfl⟩ := Option.map_eq_some_iff.mp hstep
  cases op with
  | attach zKey =>
    cases ht
    exact attach_fresh h
  | pragma pragma =>
    simp only [step] at ht
    cases hcodec : s.codec with
    | none =>
      rw [hcodec] at ht
      cases ht
      intro c hc
      cases hc
    | some ctx =>
      obtain ⟨pass, hlast, hf⟩ := h ctx hcodec
      have hk := hkeep ctx pragma hcodec rfl
      obtain ⟨hshield, -, hmask⟩ := pragma.globals_frame s.globals
      simp only [hcodec, Option.map_eq_some_iff] at ht
      obtain ⟨c, hc, rfl⟩ := ht
      obtain ⟨c₀, heff, hnoted⟩ := Pragma.onCtx_effect hc
      have hfresh := hnoted.freshFor (heff.freshFor hf fun hd => (hk hd).1)
      refine fun c' hc' => ⟨pass, hlast, Option.some.inj hc' ▸ hfresh.of_globals hshield ?_⟩
      intro hd
      obtain hid | hid := pragma.saltMask_or (p := p) (e := e) s.globals
      · rw [hmask, hid]
      · cases (hid ctx).symm.trans hc
        exact hmask.trans (hk hd).2
  | page pData pgno mode =>
    simp only [step] at ht
    cases hcodec : s.codec with
    | none =>
      rw [hcodec] at ht
      cases ht
      exact h
    | some ctx =>
      obtain ⟨pass, hlast, hf⟩ := h ctx hcodec
      rw [hcodec] at ht
      dsimp only at ht
      split_ifs at ht
      obtain ⟨r, hr, rfl⟩ := Option.map_eq_some_iff.mp ht
      obtain ⟨c, hs, hu⟩ := sqlite3Codec_stage hr
      exact fun c' hc' => ⟨pass, hlast, Option.some.inj hc' ▸ (hf.stage hs).use hu⟩
  | setPass zKey => cases hrekey
  | keyCopy => cases hrekey

def CodecOp.keyRole : CodecOp → CipherRole
  | .write => .write
  | .read | .journal | .unsupported _ => .read

/-- In every run in which no setting comes too late: whenever a page is encrypted or decrypted, and
whenever the integrity check goes on to authenticate pages, the keys in use are those that the last
passphrase taken gives under the settings recorded then. -/
theorem keys_fresh (p : Provider) (g : Globals) (sharable : Bool) (ops : List (Env × Op))
    (s : Session) (last : Option Bytes)
    (hops : Run.Along (stepKeyed p) (fun s o => o.2.isRekey = false ∧ KeepsKeys s o)
      (.start g sharable, none) ops)
    (hrun : Run.exec (stepKeyed p) (.start g sharable, none) ops = some (s, last))
    (ctx : CodecCtx) (hc : s.codec = some ctx) (e : Env) :
    ∃ pass, last = some pass ∧
      (∀ pgno mode c, ctx.RunsCipher p s.globals e pgno mode c →
        c.Derived p s.globals mode.keyRole pass) ∧
      (∀ c, ctx.codecKeyDerive p s.globals e = (.ok, c) → c.Derived p s.globals .read pass) := by
  obtain ⟨pass, hlast, hf⟩ := Run.exec_invariant
    (fun _ _ _ h hok hs => stepKeyed_fresh h hok.1 hok.2 hs)
    (by intro ctx h; cases h) hops hrun ctx hc
  have hder {c : CodecCtx} (hk : ctx.codecKeyDerive p s.globals e = (.ok, c)) :
      c.FreshFor p s.globals pass ∧ c.readCtx.deriveKey = false := by
    have hfresh := hf.codecKeyDerive (e := e)
    have hd := codecKeyDerive_derived (congrArg Prod.fst hk)
    rw [hk] at hfresh hd
    exact ⟨hfresh, hd.1⟩
  refine ⟨pass, hlast, ?_, fun c hk => (hder hk).1.fresh (hder hk).2⟩
  rintro pgno mode c ⟨c₀, hready, hmode⟩
  obtain ⟨hfresh, hd⟩ := hder (codecKeyDerive_of_ready hready)
  have hsame : c₀ = c := by
    cases mode with
    | read => exact hmode
    | write => exact congrArg Prod.snd ((hfresh.salted_eq hd).symm.trans hmode)
    | journal => exact congrArg Prod.snd ((hfresh.salted_eq hd).symm.trans hmode)
    | unsupported m => exact hmode.elim
  exact hsame ▸ hfresh.derived hd mode.keyRole

/-- Settings made between keying and the first page count. -/
theorem keys_fresh_settings : ∃ s ctx c,
    Run.exec (stepKeyed .toy) (.start .initial false, none)
      [(.allOk, .attach [0x6b]), (.allOk, .pragma (.cipherKdfAlgorithm (some .sha1)))] =
        some (s, some [0x6b]) ∧
    s.codec = some ctx ∧ ctx.RunsCipher .toy s.globals .allOk 1 .write c ∧
    c.Derived .toy s.globals .write [0x6b] := by
  obtain ⟨pass, hpass, hpages, -⟩ := keys_fresh .toy .initial false
    [(.allOk, .attach [0x6b]), (.allOk, .pragma (.cipherKdfAlgorithm (some .sha1)))] _ _
    (by
      refine ⟨⟨rfl, fun ctx _ hc => (by cases hc)⟩, fun s hs => ?_⟩
      cases hs
      refine ⟨⟨rfl, fun ctx pragma hc hp hd => ?_⟩, fun s hs => trivial⟩
      cases hc
      cases hd)
    rfl _ rfl .allOk
  cases hpass
  exact ⟨_, _, _, rfl, rfl, ⟨_, rfl, rfl⟩, hpages 1 .write _ ⟨_, rfl, rfl⟩⟩

/-- An integrity check of an empty file derives the keys and leaves them unused; the KDF algorithm
set next is recorded, and the next page decrypted with a key of the old one. -/
theorem not_keys_fresh_kdfAlgorithm : ∃ s ctx c,
    Run.exec (stepKeyed .toy) (.start .initial false, none)
      [(.allOk, .attach [0x6b]), (.allOk, .pragma (.cipherIntegrityCheck (.ofContent 4096 []))),
        (.allOk, .pragma (.cipherKdfAlgorithm (some .sha1)))] = some (s, some [0x6b]) ∧
    s.codec = some ctx ∧ ctx.RunsCipher .toy s.globals .allOk 2 .read c ∧
    c.kdfAlgorithm = .sha1 ∧
    shield s.globals.shieldMask c.readCtx.key =
      Provider.toy.kdf .sha512 [0x6b] c.kdfSalt.1 c.kdfIter 32 ∧
    ¬ c.Derived .toy s.globals .read [0x6b] := by
  refine ⟨_, _, _, rfl, rfl, ⟨_, rfl, rfl⟩, rfl, rfl, fun h => ?_⟩
  exact absurd h.key (by decide)

end SqlCipher
