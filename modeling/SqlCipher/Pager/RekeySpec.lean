import SqlCipher.Pager.Rekey

/-!
# What a rekey leaves behind

A connection at rest (`Pager.AtRest`) holds a database whose pages are stored under the key of its
codec. A rekey during which nothing fails returns `SQLITE_OK`, and every page of the file, and every
page written later, is stored under the new key. A refused call leaves everything under the old key
(`rekey_all_or_nothing`). A call that fails does not: the passphrase of the write context is not put
back, and the result of the commit is not looked at (`not_rekey_all_or_nothing`).
-/

namespace SqlCipher

open Buffer UndoJournal Proc SealedPage CodecCtx

variable {p : Provider} {g : Globals} {w : World} {pg : Pager} {D : Nat → Bytes} {F : Prop}
  {pass : Bytes}
  {zOld zKey : Bytes}

/-- A connection between transactions, keyed with `zOld`, to a database with content `D`. -/
structure Pager.AtRest (p : Provider) (g : Globals) (zOld : Bytes) (D : Nat → Bytes)
    (pg : Pager) : Prop where
  codec : pg.codec.Unlockable p
  nonempty : zOld ≠ []
  fresh : pg.codec.FreshFor p g zOld
  pageOne : pg.HasPage g 1
  length : (D 1).length = pg.codec.pageSz
  kept : ∀ n, pg.HasPage g n → (pg.unlocked p g).Keeps p g .read (UInt32.ofNat n)
    (pg.unlocked p g).kdfSalt.1 (D n) (pg.disk.file n)
  cached : ∀ n page, pg.cache n = some page → pg.HasPage g n ∧
    page.data.length = pg.codec.pageSz ∧ pg.codec.usable page.data = pg.codec.usable (D n) ∧
    page.dirty = false ∧ page.writeable = false
  state : pg.state = .reader
  errCode : pg.errCode = .ok
  journal : pg.disk.journal = none
  log : pg.log = []

/-- Every page of the file is stored under the key of `K`, with the content of `D`, and the
connection reads and writes under it, now and later. -/
structure Pager.HoldsKey (p : Provider) (g : Globals) (K : CodecCtx) (D : Nat → Bytes)
    (pg : Pager) : Prop where
  file : ∀ n, pg.HasPage g n → ∃ P L, pg.Content D n P ∧
    K.Stores p g .write (UInt32.ofNat n) K.kdfSalt.1 P (pg.disk.file n) L
  keys : ∀ role, K.SameKeys .write (pg.unlocked p g) role
  later : K.WritesUnder p g pg.codec (pg.disk.file 1)

/-- Without a journal, or after it has been played back, the file has the content of `D` under the
key for reading of `pg`. -/
def Pager.LeavesFile (p : Provider) (g : Globals) (pg : Pager) (D : Nat → Bytes)
    (d : Disk Nat Bytes) : Prop :=
  ∀ file, d.journal = none ∧ file = d.file ∨ d.Recovers file → ∀ n, pg.HasPage g n →
    ∃ stand, (pg.unlocked p g).Keeps p g .read (UInt32.ofNat n) stand (D n) (file n)

theorem CodecCtx.SameKeys.symm {c c' : CodecCtx} (h : c.SameKeys role c' role')
    (hmac : c'.flags.hmac = c.flags.hmac) : c'.SameKeys role' c role :=
  ⟨h.key.symm, fun hh => (h.hmacKey (hmac.symm.trans hh)).symm⟩

/-- The keys of a connection that took one passphrase are the same for reading and writing. -/
theorem CodecCtx.FreshFor.unlocked_sameKeys {ctx : CodecCtx}
    (hf : ctx.FreshFor p g pass) (h : ctx.Unlockable p) :
    (ctx.unlocked p g page1).SameKeys .read (ctx.unlocked p g page1) .write := by
  have hder : (ctx.unlocked p g page1).KeysDerived := codecKeyDerive_derived h.codecKeyDerive_ok
  have hfresh : (ctx.unlocked p g page1).FreshFor p g pass := hf.codecKeyDerive
  obtain ⟨hk, hh⟩ := hfresh.same_keys hder.1
  exact ⟨hk, fun _ => hh⟩

theorem Pager.rekeying_sameFormat (pg : Pager) (zKey : Bytes) :
    (pg.unlocked p g).SameFormat 1 ((pg.rekeying zKey).unlocked p g) := by
  have hold : pg.codec.SameFormat 1 (pg.unlocked p g) := unlocked_sameFormat _ _ 1
  have hnew : (pg.rekeying zKey).codec.SameFormat 1 ((pg.rekeying zKey).unlocked p g) :=
    unlocked_sameFormat _ _ 1
  have hset : pg.codec.SameFormat 1 (pg.rekeying zKey).codec :=
    ⟨rfl, rfl, rfl, fun _ => rfl, rfl, rfl, rfl, rfl⟩
  exact hold.symm.trans (hset.trans hnew)

theorem CodecCtx.FreshFor.keeps_write {e : Env} (hf : ctx.FreshFor p g pass) (h : ctx.Unlockable p)
    (hsalt : ctx.SameSalt e (Env.allOk.onFile page1)) (hP : P.length = ctx.pageSz)
    (hmagic : slice P 0 fileHeaderSz = sqliteFileHeader)
    (hr : sqlite3Codec p g e ctx P pgno .write = some r) (hout : r.out = some img) :
    (ctx.unlocked p g page1).Keeps p g .read pgno (ctx.unlocked p g page1).kdfSalt.1 P img := by
  have hrole : CodecOp.role? .write = some .write := rfl
  have hfollows : ctx.Follows p g page1 True ctx := h.follows
  have hformat : ctx.SameFormat 1 (ctx.unlocked p g page1) := unlocked_sameFormat _ _ 1
  obtain ⟨-, ⟨hnone, -⟩ | ⟨img', L, hout', -, -, hs⟩⟩ :=
    hfollows.encrypt h (fun _ => hsalt) hrole hP (fun _ => trivial) hr
  · cases hnone.symm.trans hout
  cases hout'.symm.trans hout
  exact ⟨⟨P, L, hs.transport (.refl _)
    ((hf.unlocked_sameKeys h).symm rfl), hP.trans hformat.pageSz.symm, rfl⟩, fun _ _ => hmagic⟩

namespace Pager.AtRest

variable (h : pg.AtRest p g zOld D)
include h

theorem prepared (hz : zKey ≠ [])
    (hsalt : pg.codec.flags.hasKdfSalt = true ∨ ∀ t, (w t).env.fileHeader.isSome)
    (hfault : ∀ t, ¬ (w t).Fine → F)
    (hrecovery : pg.codec.plaintextHeaderSz = (pg.codec.pageSz : Int) - pg.codec.reserveSz → ¬ F) :
    (pg.rekeying zKey).Prepared p g w D F where
  codec := h.codec.setPass hz
  salt := hsalt
  fault := hfault
  recovery := hrecovery
  pageOne := h.pageOne
  length := h.length
  kept := fun n hn => ⟨_, (h.kept n hn).transport (pg.rekeying_sameFormat zKey)
    (h.fresh.unlocked_setPass_keys h.codec hz _)⟩
  cached := h.cached
  state := h.state
  errCode := h.errCode
  journal := h.journal
  log := h.log

/-- What a rekey puts into the journal is under the old key, with the salt of either key. -/
theorem keeps_of_old (hz : zKey ≠ []) (hn : pg.HasPage g n)
    (hold : (pg.rekeying zKey).Old p g D n img) : ∃ stand,
      (stand = (pg.unlocked p g).kdfSalt.1 ∨ stand = ((pg.rekeying zKey).unlocked p g).kdfSalt.1) ∧
      (pg.unlocked p g).Keeps p g .read (UInt32.ofNat n) stand (D n) img := by
  obtain rfl | hrestored := hold
  · exact ⟨_, .inl rfl, h.kept n hn⟩
  · have hformat := pg.rekeying_sameFormat (p := p) (g := g) zKey
    exact ⟨_, .inr rfl, hrestored.2.transport hformat.symm
      ((h.fresh.unlocked_setPass_keys h.codec hz (pg.disk.file 1)).symm hformat.hmac)⟩

theorem leavesFile (hz : zKey ≠ []) (hu : (pg.rekeying zKey).Undone p g D pg') :
    pg.LeavesFile p g D pg'.disk := by
  intro file hfile n hn
  have hold : (pg.rekeying zKey).Old p g D n (file n) := by
    obtain ⟨hnone, rfl⟩ | hrec := hfile
    · exact hu.old hnone n
    · exact (hu.protected h.journal).recovers hrec n
  obtain ⟨stand, -, hkeep⟩ := h.keeps_of_old hz hn hold
  exact ⟨stand, hkeep⟩

theorem holdsKey : pg.HoldsKey p g (pg.unlocked p g) D := by
  have hsame : (pg.unlocked p g).SameKeys .read (pg.unlocked p g) .write :=
    h.fresh.unlocked_sameKeys h.codec
  refine ⟨fun n hn => ?_, fun role => ?_, h.codec.writesUnder _⟩
  · have hkeep := (h.kept n hn).transport (.refl _) hsame
    obtain ⟨⟨P, L, hs, -, huse⟩, -⟩ := hkeep
    have hformat : pg.codec.SameFormat 1 (pg.unlocked p g) := unlocked_sameFormat _ _ 1
    rw [hformat.usable_eq, hformat.usable_eq] at huse
    exact ⟨P, L, .inl huse, hs⟩
  · cases role with
    | read => exact hsame.symm rfl
    | write => exact ⟨rfl, fun _ => rfl⟩

end Pager.AtRest

/-- When all pages were rewritten and the write context copied, the connection holds the key for
writing. -/
theorem Pager.Rewrote.holdsKey {start pg₁ : Pager} (h : start.Rewrote p g D F pg₁)
    (h₀ : start.codec.Unlockable p) : pg₁.keyCopied.HoldsKey p g (start.unlocked p g) D := by
  have hk := h.keyed
  have hwf := h.follows.wf
  have hformat : start.codec.SameFormat 1 (pg₁.keyCopied.codec) := { h.follows.format with }
  have hder : pg₁.keyCopied.codec.KeysDerived := ⟨hk.derived.2, hk.derived.2⟩
  have hcodec : pg₁.keyCopied.codec.Unlockable p := {
    wf := { hwf with }
    error := hk.error
    header := hk.header
    room := by
      rw [hformat.header rfl, hformat.pageSz, hformat.reserveSz]
      exact h₀.room
    material := ⟨fun hd => absurd (hder.1.symm.trans hd) (by decide),
      fun hd => absurd (hder.2.symm.trans hd) (by decide)⟩
    hasSalt := fun _ => hk.hasSalt }
  -- there is nothing left to derive, so the keys are those of the write context
  have hunlocked : pg₁.keyCopied.unlocked p g = pg₁.keyCopied.codec.dropPass :=
    congrArg Prod.snd (codecKeyDerive_of_derived hder)
  have hdrop := dropPass_cipherCtx pg₁.keyCopied.codec
  have hkeys (role : CipherRole) : (start.unlocked p g).SameKeys .write
      (pg₁.keyCopied.unlocked p g) role := by
    rw [hunlocked]
    have hrole : pg₁.keyCopied.codec.cipherCtx role = pg₁.codec.cipherCtx .write := by
      cases role <;> rfl
    exact ⟨(hdrop role).1.trans (hrole ▸ (hk.keys .write).key),
      fun hh => (hdrop role).2.trans (hrole ▸ (hk.keys .write).hmacKey hh)⟩
  have hsalt : (start.unlocked p g).kdfSalt = (pg₁.keyCopied.unlocked p g).kdfSalt := by
    rw [hunlocked, dropPass_kdfSalt]
    exact hk.salt.symm
  have hsame : (start.unlocked p g).SameFormat 1 (pg₁.keyCopied.unlocked p g) :=
    (unlocked_sameFormat start.codec _ 1).symm.trans
      (hformat.trans (unlocked_sameFormat _ _ 1))
  refine ⟨fun n hn => ?_, hkeys, ?_⟩
  · have hn' : start.HasPage g n := ⟨hn.1, h.dbSize ▸ hn.2.1, hformat.pageSz ▸ hn.2.2⟩
    obtain ⟨P, L, hs, -, hcontent⟩ := h.all n hn'
    refine ⟨P, L, ?_, hs⟩
    simp only [Pager.Content, hformat.usable_eq]
    exact hcontent
  · exact (hcodec.writesUnder _).transport hsame.symm ((hkeys .write).symm hsame.hmac) hsalt

/-- A refused rekey leaves everything under the old key. A rekey during which no lock, file or
provider operation fails returns `SQLITE_OK`, and everything is stored under the new key, now and
later. So it is, whatever fails, if the transaction begins, every page can be written and the commit
succeeds; and in any case everything is under the new key, or the file is left under the old key. -/
theorem rekey_all_or_nothing (p : Provider) (g : Globals) (w : World) (pg : Pager)
    (zOld zKey : Bytes) (D : Nat → Bytes) (h : pg.AtRest p g zOld D) :
    (zKey = [] → sqlite3RekeyV2 p g w zKey pg = some (.error .misuse, pg) ∧
      (pg.unlocked p g).Derived p g .read zOld ∧ pg.HoldsKey p g (pg.unlocked p g) D) ∧
    (zKey ≠ [] → (∀ t, (w t).Fine) → ∃ pg', sqlite3RekeyV2 p g w zKey pg = some (.ok (), pg') ∧
      ((pg.rekeying zKey).unlocked p g).Derived p g .write zKey ∧
      pg'.HoldsKey p g ((pg.rekeying zKey).unlocked p g) D) ∧
    (zKey ≠ [] → (pg.codec.flags.hasKdfSalt = true ∨ ∀ t, (w t).env.fileHeader.isSome) →
      pg.codec.plaintextHeaderSz ≠ (pg.codec.pageSz : Int) - pg.codec.reserveSz →
      (∀ pg₁ pg₂ pg₃, btreeBeginTrans p g w (pg.rekeying zKey) = some (.ok (), pg₁) →
        forEach (rekeyPage p g w) (List.range' 1 pg₁.dbSize) pg₁ = some (.ok (), pg₂) →
        btreeCommit p g w pg₂ = some (.ok (), pg₃) →
        sqlite3RekeyV2 p g w zKey pg = some (.ok (), pg₃.keyCopied) ∧
        pg₃.keyCopied.HoldsKey p g ((pg.rekeying zKey).unlocked p g) D) ∧
      ∃ r pg', sqlite3RekeyV2 p g w zKey pg = some (r, pg') ∧
        (r = .ok () ∧ pg'.HoldsKey p g ((pg.rekeying zKey).unlocked p g) D ∨
          pg.LeavesFile p g D pg'.disk)) := by
  refine ⟨?_, fun hz hfine => ?_, fun hz hread hroom => ?_⟩
  · rintro rfl
    have hfresh : (pg.unlocked p g).FreshFor p g zOld := h.fresh.codecKeyDerive
    have hder : (pg.unlocked p g).KeysDerived := codecKeyDerive_derived h.codec.codecKeyDerive_ok
    exact ⟨rfl, hfresh.fresh hder.1, h.holdsKey⟩
  · have hp : (pg.rekeying zKey).Prepared p g w D False :=
      h.prepared hz (.inr fun t => (hfine t).env.fileHeader) (fun t hbad => hbad (hfine t))
        fun _ => id
    obtain ⟨⟨⟩, pg', hrun, pg₁, rfl, hrew⟩ | ⟨rc, pg', -, -, hF⟩ :=
      Proc.exists_of_wp (sqlite3RekeyV2_wp hz hp)
    · exact ⟨_, hrun, h.fresh.unlocked_setPass_derived h.codec hz _,
        (hrew.resolve_left And.right).holdsKey (h.codec.setPass hz)⟩
    · exact hF.elim
  · have hp : (pg.rekeying zKey).Prepared p g w D True :=
      h.prepared hz hread (fun _ _ => trivial) fun hfull => absurd hfull hroom
    refine ⟨fun pg₁ pg₂ pg₃ hbegin hpages hcommit => ?_, ?_⟩
    · obtain ⟨h₁, hs₁, hj₁⟩ := of_wp_ok (btreeBeginTrans_wp hp) hbegin
      obtain ⟨h₂, hs₂, hall⟩ := of_wp_ok (rekeyPages_wp hp h₁ hs₁ hj₁) hpages
      have hrew := of_wp_ok (btreeCommit_wp hp h₂ hs₂ hall) hcommit
      refine ⟨?_, hrew.holdsKey (h.codec.setPass hz)⟩
      have hz' : require (zKey != []) .misuse pg = some (.ok (), pg) := by simp [require, hz]; rfl
      rw [sqlite3RekeyV2, bind_of_ok hz', bind_of_ok rfl, bind_of_ok hbegin, bind_of_ok rfl,
        bind_of_ok (attempt_of_eq hpages)]
      exact bind_of_ok (attempt_of_eq hcommit)
    · obtain ⟨⟨⟩, pg', hrun, pg₁, rfl, hpost⟩ | ⟨rc, pg', hrun, hu, -⟩ :=
        Proc.exists_of_wp (sqlite3RekeyV2_wp hz hp)
      · refine ⟨_, _, hrun, hpost.symm.imp (fun hrew => ⟨rfl, ?_⟩) fun hu => ?_⟩
        · exact hrew.holdsKey (h.codec.setPass hz)
        · have hleft := h.leavesFile hz hu.1
          exact hleft
      · exact ⟨_, _, hrun, .inr (h.leavesFile hz hu)⟩

def CodecCtx.small : CodecCtx :=
  { initial .toy .initial [0x6b] with pageSz := 1024, buffer := zeros 1024 }

def Pager.smallPage : Bytes := sqliteFileHeader ++ zeros 1008

def Pager.smallImage : Bytes :=
  ((sqlite3Codec .toy .initial .allOk .small smallPage 1 .write).bind CodecResult.out).getD []

def Pager.small : Pager :=
  { codec := .small, disk := ⟨fun _ => smallImage, none, 0⟩, log := [], cache := fun _ => none
    state := .reader, errCode := .ok, dbSize := 1, dbOrigSize := 0, dbFileVers := []
    changeCountDone := false, clock := 0 }

def World.failing (k : Nat) (rc : ResultCode) : World := fun t =>
  { env := .allOk, rc := if t = k then rc else .ok, junk := fun _ => 0, spill := none }

theorem CodecCtx.small_unlockable : small.Unlockable .toy where
  wf := ⟨by decide, rfl, rfl, .inr ⟨by decide, 0, rfl⟩, length_zeros 1024⟩
  error := rfl
  header := by decide
  room := by decide
  material := ⟨fun _ => rfl, fun _ => .inr rfl⟩
  hasSalt := fun h => by cases h <;> contradiction

theorem CodecCtx.small_freshFor : small.FreshFor .toy .initial [0x6b] :=
  .of_pending (.inr rfl) rfl rfl rfl

theorem Pager.small_hasPage (h : Pager.small.HasPage .initial n) : n = 1 :=
  Nat.le_antisymm h.2.1 h.1

theorem Pager.small_image : ∃ r, sqlite3Codec .toy .initial .allOk .small smallPage 1 .write =
    some r ∧ r.out = some smallImage := by
  have hsome : ((sqlite3Codec .toy .initial .allOk .small smallPage 1 .write).bind
      CodecResult.out).isSome := by decide +kernel
  obtain ⟨img, himg⟩ := Option.isSome_iff_exists.mp hsome
  have heq : smallImage = img := by
    rw [smallImage, himg]
    rfl
  rw [heq]
  exact Option.bind_eq_some_iff.mp himg

theorem Pager.small_atRest : Pager.small.AtRest .toy .initial [0x6b] fun _ => smallPage := by
  have hlen : smallPage.length = CodecCtx.small.pageSz := by
    rw [smallPage, List.length_append, length_zeros]
    rfl
  have hsalt : CodecCtx.small.SameSalt .allOk (Env.allOk.onFile smallImage) :=
    .inr ⟨List.Vector.replicate _ 0, rfl, congrArg some (by decide +kernel)⟩
  have hmagic : slice smallPage 0 fileHeaderSz = sqliteFileHeader := by decide +kernel
  obtain ⟨r, hr, hout⟩ := Pager.small_image
  have hkeep := CodecCtx.small_freshFor.keeps_write CodecCtx.small_unlockable hsalt hlen hmagic hr
    hout
  refine ⟨CodecCtx.small_unlockable, by decide, CodecCtx.small_freshFor,
    ⟨by decide, by decide, by decide⟩, hlen, fun n hn => ?_, nofun, rfl, rfl, rfl, rfl⟩
  rw [Pager.small_hasPage hn, Pager.unlocked, show UInt32.ofNat 1 = 1 from rfl]
  dsimp only [Pager.small]
  exact hkeep

theorem World.failing_ok (k : Nat) (t : Nat) : (World.failing k .ok t).Fine :=
  ⟨Env.allOk_fine, ite_self _⟩

theorem rekey_all_or_nothing_small : ∃ pg',
    sqlite3RekeyV2 .toy .initial (.failing 0 .ok) [1] .small =
    some (.ok (), pg') ∧
    pg'.HoldsKey .toy .initial ((Pager.small.rekeying [1]).unlocked .toy .initial)
      fun _ => Pager.smallPage := by
  obtain ⟨pg', hrun, -, hkey⟩ := (rekey_all_or_nothing .toy .initial (.failing 0 .ok) .small [0x6b]
    [1] _ Pager.small_atRest).2.1 (by decide) (World.failing_ok 0)
  exact ⟨pg', hrun, hkey⟩

def CodecCtx.smallRead (ctx : CodecCtx) (img : Bytes) : Option Bytes := do
  let r ← sqlite3Codec .toy .initial .allOk ctx img 1 .read
  let page ← r.out
  return ctx.usable page

def CodecCtx.smallReread (ctx : CodecCtx) : Option Bytes := do
  let r ← sqlite3Codec .toy .initial .allOk ctx Pager.smallPage 1 .write
  let img ← r.out
  r.ctx.smallRead img

/-- The result of a rekey of `Pager.small`, and a check on what it leaves behind. -/
def rekeySmall (w : World) (check : Pager → Bool) : Option (ResultCode × Bool) :=
  (sqlite3RekeyV2 .toy .initial w [1] .small).map fun r =>
    (match r.1 with | .ok () => .ok | .error rc => rc, check r.2)

/-- If the transaction cannot begin, the call returns `SQLITE_BUSY`, but the page written next is
stored under the new key and cannot be read back. If the commit fails, the call returns `SQLITE_OK`,
but the file is as before and cannot be read under the new key. -/
theorem not_rekey_all_or_nothing :
    rekeySmall (.failing 0 .busy) (fun pg => pg.codec.smallReread =
      some (small.usable Pager.smallPage)) = some (.busy, false) ∧
    rekeySmall (.failing 8 .ioerr) (fun pg => pg.disk.file 1 = Pager.smallImage ∧
      pg.codec.smallRead Pager.smallImage ≠ some (small.usable Pager.smallPage)) =
      some (.ok, true) := by
  decide +kernel

end SqlCipher
