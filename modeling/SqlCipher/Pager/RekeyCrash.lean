import SqlCipher.Pager.RekeySpec

/-!
# Crashes during a rekey

A rekey that is cut short at any point leaves a journal, and playing it back restores pages under
the old key. The images in the journal carry the salt of the codec context, which both keys share.
As long as the new key material leaves the salt alone, the restored file can be opened with the old
key (`rekey_crash_safe`); a key that brings its own salt puts that salt into the journal
(`not_rekey_crash_safe`).
-/

namespace SqlCipher

open Buffer UndoJournal Proc SealedPage CodecCtx

variable {p : Provider} {g : Globals} {w : World} {pg : Pager} {D : Nat → Bytes}
  {zOld zKey : Bytes}

/-- The file starts with the salt of the key of `pg`, and a new connection with the old key reads
all of it. -/
structure Pager.OpensWith (p : Provider) (g : Globals) (zOld : Bytes) (D : Nat → Bytes)
    (pg : Pager) (file : Nat → Bytes) : Prop where
  salt : slice (file 1) 0 fileHeaderSz = (pg.unlocked p g).kdfSalt.1
  reads : ∀ n, pg.HasPage g n → ∀ e : Env, e.Fine → ∃ r page,
    sqlite3Codec p g (e.onFile (file 1)) (pg.codec.reopened p zOld) (file n)
      (UInt32.ofNat n) .read =
      some r ∧
    r.out = some page ∧ r.ctx.error = .ok ∧ pg.codec.usable page = pg.codec.usable (D n)

/-- Without a plaintext header, page 1 starts with the salt. -/
theorem CodecCtx.Keeps.slice_salt {ctx : CodecCtx} (h : ctx.Keeps p g role 1 stand P img)
    (hhdr : ctx.plaintextHeaderSz = 0) : slice img 0 fileHeaderSz = stand := by
  obtain ⟨⟨P, L, hs, -⟩, -⟩ := h
  have hoff : L.offset = fileHeaderSz := by
    have := hs.layout.offset
    rw [offset, if_pos rfl, if_neg (not_not.mpr hhdr)] at this
    exact Int.ofNat_inj.mp this
  have hheader := hs.header
  rwa [clearHeader, if_pos rfl, if_neg (not_not.mpr hhdr), Layout.header, hoff] at hheader

/-- A file whose pages are all kept under the old key and salt can be opened with the old key. -/
theorem Pager.AtRest.opensWith (h : pg.AtRest p g zOld D) (hhdr : pg.codec.plaintextHeaderSz = 0)
    {file : Nat → Bytes} (hfile : ∀ n, pg.HasPage g n → (pg.unlocked p g).Keeps p g .read
      (UInt32.ofNat n) (pg.unlocked p g).kdfSalt.1 (D n) (file n)) :
    pg.OpensWith p g zOld D file := by
  have hformat : pg.codec.SameFormat 1 (pg.unlocked p g) := unlocked_sameFormat _ _ 1
  have hsalt : slice (file 1) 0 fileHeaderSz = (pg.unlocked p g).kdfSalt.1 :=
    (hfile 1 h.pageOne).slice_salt ((hformat.header rfl).trans hhdr)
  refine ⟨hsalt, fun n hn e he => ?_⟩
  have h₀ := h.codec.reopened h.nonempty
  have hkeys : (pg.unlocked p g).SameKeys .read
      ((pg.codec.reopened p zOld).unlocked p g (file 1)) .read :=
    h.fresh.reopened_sameKeys h.codec h.nonempty (Salt.ofBytes_eq hsalt)
  have hsame : (pg.unlocked p g).SameFormat 1 ((pg.codec.reopened p zOld).unlocked p g (file 1)) :=
    hformat.symm.trans ((reopened_sameFormat pg.codec zOld 1).trans (unlocked_sameFormat _ _ 1))
  have hkeep := (hfile n hn).transport hsame hkeys
  have hfollows : (pg.codec.reopened p zOld).Follows p g (file 1) False
      (pg.codec.reopened p zOld) :=
    h₀.follows
  have hlen : (file n).length = (pg.codec.reopened p zOld).pageSz :=
    (hfile n hn).length.trans hformat.pageSz
  have hheader : (pg.codec.reopened p zOld).SameSalt (e.onFile (file 1))
      (Env.allOk.onFile (file 1)) := by
    obtain ⟨salt, hsome⟩ := Option.isSome_iff_exists.mp he.fileHeader
    exact .inr ⟨Salt.ofBytes (file 1), by rw [Env.onFile, hsome]; rfl, rfl⟩
  obtain ⟨r, hr⟩ := hfollows.toFramed.exists_sqlite3Codec (g := g) h₀ hlen (e.onFile (file 1))
    (UInt32.ofNat n) .read
  obtain ⟨hf, ⟨-, -, hF⟩ | ⟨page, hout, -, huse⟩⟩ := hfollows.read h₀ (fun _ => hheader) hkeep
    (fun hbad => hbad (he.onFile _)) (fun _ => id) hr
  · exact hF.elim
  · have herr : r.ctx.error = .ok := by
      obtain ⟨herr, -⟩ | ⟨-, hF⟩ := hf.phase
      · exact herr
      · exact hF.elim
    exact ⟨r, page, hr, hout, herr, huse herr⟩

/-- Cut a rekey short anywhere, whatever failed until then, and play back the journal: if the new
key leaves the salt alone, the file opens with the old key. Its header has to be readable, unless
the salt has been read before. -/
theorem rekey_crash_safe (p : Provider) (g : Globals) (w : World) (pg : Pager) (zOld zKey : Bytes)
    (D : Nat → Bytes) (h : pg.AtRest p g zOld D) (hz : zKey ≠ [])
    (hhdr : pg.codec.plaintextHeaderSz = 0)
    (hsalt : (keyMaterial p zKey).saltD (pg.unlocked p g).kdfSalt = (pg.unlocked p g).kdfSalt)
    (hread : pg.codec.flags.hasKdfSalt = true ∨ ∀ t, (w t).env.fileHeader.isSome) :
    ∃ r pg', sqlite3RekeyV2 p g w zKey pg = some (r, pg') ∧
      Run.exec Disk.step pg.disk pg'.log = some pg'.disk ∧
      ∀ k d file, Run.exec Disk.step pg.disk (pg'.log.take k) = some d → d.Recovers file →
        pg.OpensWith p g zOld D file := by
  have hp : (pg.rekeying zKey).Prepared p g w D True := by
    refine h.prepared hz hread (fun _ _ => trivial) fun hfull => ?_
    have := h.codec.wf.pageSz_ge
    have := h.codec.wf.reserveSz_le
    omega
  -- the log of a run, successful or not, keeps to the discipline of the journal
  obtain ⟨r, pg', hrun, hlog, hguarded⟩ : ∃ r pg', sqlite3RekeyV2 p g w zKey pg = some (r, pg') ∧
      Run.exec Disk.step pg.disk pg'.log = some pg'.disk ∧
      Run.Along Disk.step (Guarded pg.disk.file ((pg.rekeying zKey).Restores p g D)) pg.disk
        pg'.log := by
    obtain ⟨⟨⟩, pg', hrun, pg₁, rfl, ⟨ht, -⟩ | ht⟩ | ⟨rc, pg', hrun, ht, -⟩ :=
      Proc.exists_of_wp (sqlite3RekeyV2_wp hz hp)
    · exact ⟨_, _, hrun, ht.run, ht.guarded⟩
    · exact ⟨_, _, hrun, ht.run, ht.guarded⟩
    · exact ⟨_, _, hrun, ht.run, ht.guarded⟩
  refine ⟨r, pg', hrun, hlog, fun k d file hd hrec => h.opensWith hhdr fun n hn => ?_⟩
  have hsame : ((pg.rekeying zKey).unlocked p g).kdfSalt = (pg.unlocked p g).kdfSalt := by
    obtain heq | heq := h.fresh.unlocked_setPass_kdfSalt h.codec hz (pg.disk.file 1)
    · exact heq
    · exact heq.trans hsalt
  have hold := recovers_of_prefix h.journal hguarded k hd hrec n
  obtain ⟨stand, hstand, hkeep⟩ := h.keeps_of_old hz hn hold
  rw [hsame, or_self] at hstand
  exact hstand ▸ hkeep

theorem rekey_crash_safe_small : ∃ r pg',
    sqlite3RekeyV2 .toy .initial (.failing 7 .ioerr) [1] .small = some (r, pg') ∧
    ∀ k d file, Run.exec Disk.step Pager.small.disk (pg'.log.take k) = some d → d.Recovers file →
      Pager.small.OpensWith .toy .initial [0x6b] (fun _ => Pager.smallPage) file := by
  obtain ⟨r, pg', hrun, -, hcrash⟩ := rekey_crash_safe .toy .initial
    (.failing 7 .ioerr) .small [0x6b]
    [1] _ Pager.small_atRest (by decide) rfl rfl (.inr fun _ => rfl)
  exact ⟨r, pg', hrun, hcrash⟩

/-- A raw key together with a salt: `x'`, the digit `1` ninety-five times, and `2'`. -/
def saltedKey : Bytes := [0x78, 0x27] ++ List.replicate 95 0x31 ++ [0x32, 0x27]

/-- The file of `Pager.small` after a rekey to `saltedKey` that crashed behind page 1, and the
playback. -/
def restoredSmall : Option Bytes := do
  let (_, pg) ← sqlite3RekeyV2 .toy .initial (.failing 0 .ok) saltedKey .small
  let d ← Run.exec Disk.step Pager.small.disk (pg.log.take 4)
  let js ← d.journal
  return playback d.file js 1

/-- With a key that brings its own salt, page 1 is restored after a crash with the new salt in
front, and a connection with the old key does not get the content. -/
theorem not_rekey_crash_safe : ∃ r pg' d file,
    sqlite3RekeyV2 .toy .initial (.failing 0 .ok) saltedKey .small = some (r, pg') ∧
    Run.exec Disk.step Pager.small.disk (pg'.log.take 4) = some d ∧ d.Recovers file ∧
    slice (file 1) 0 fileHeaderSz ≠ (Pager.small.unlocked .toy .initial).kdfSalt.1 ∧
    ∀ c out, sqlite3Codec .toy .initial (Env.allOk.onFile (file 1)) (small.reopened .toy [0x6b])
      (file 1) 1 .read = some ⟨some out, file 1, c⟩ →
      small.usable out ≠ small.usable Pager.smallPage := by
  have hfile : (restoredSmall.map fun img => (slice img 0 fileHeaderSz,
      (sqlite3Codec .toy .initial (Env.allOk.onFile img) (small.reopened .toy [0x6b]) img 1
        .read).any fun r => r.out.any fun out =>
          small.usable out = small.usable Pager.smallPage)) =
      some (List.replicate 15 0x11 ++ [0x12], false) := by decide +kernel
  obtain ⟨img, himg, hpair⟩ := Option.map_eq_some_iff.mp hfile
  obtain ⟨hsalt, hany⟩ := Prod.mk.inj hpair
  simp only [restoredSmall, Option.bind_eq_bind, Option.bind_eq_some_iff] at himg
  obtain ⟨⟨r, pg'⟩, hrun, d, hd, js, hjs, himg⟩ := himg
  have hrec : d.Recovers (playback d.file js) :=
    ⟨js, max d.synced js.length, d.file, hjs, le_max_left _ _, fun _ => .inl rfl, by
      rw [List.take_of_length_le (le_max_right _ _)]⟩
  have himg : playback d.file js 1 = img := Option.some.inj himg
  refine ⟨r, pg', d, playback d.file js, hrun, hd, hrec, ?_, fun c out hread heq => ?_⟩
  · rw [himg, hsalt]
    decide +kernel
  · rw [himg] at hread
    rw [hread] at hany
    simp [heq] at hany

end SqlCipher
