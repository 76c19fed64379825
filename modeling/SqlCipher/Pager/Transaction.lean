import SqlCipher.Pager.PagerSpec

/-!
# A transaction that rewrites every page

What holds during a write transaction in which pages are fetched, journalled and written back
without a change to their content. `start` is the pager before the transaction, `D` the content of
its pages. Pages are read and journalled under the key for reading, and written back under the key
for writing.

`Pager.Traced` survives even a failed operation: the log of what was done to the two files keeps to
the discipline of an undo journal. `Pager.Working` holds as long as nothing fails, which has to have
a reason `F`: with `F` true the results hold in every world, and with `F` false there is no failure.
-/

namespace SqlCipher

open Buffer UndoJournal Proc SealedPage Function

variable {p : Provider} {g : Globals} {w : World} {start : Pager} {D : Nat → Bytes} {pg : Pager}
  {F : Prop} {n : Nat} {img : Bytes}

/-! ## Before the transaction -/

def Pager.HasPage (g : Globals) (pg : Pager) (n : Nat) : Prop :=
  1 ≤ n ∧ n ≤ pg.dbSize ∧ n ≠ lckPgno g pg.codec.pageSz

def Pager.unlocked (p : Provider) (g : Globals) (pg : Pager) : CodecCtx :=
  pg.codec.unlocked p g (pg.disk.file 1)

def Pager.Content (start : Pager) (D : Nat → Bytes) (n : Nat) (P : Bytes) : Prop :=
  start.codec.usable P = start.codec.usable (D n) ∨
    n = 1 ∧ ∃ vers, start.codec.usable P = start.codec.usable (writeChangecounter vers (D 1))

/-- A connection at rest, to a database with content `D` that its codec can read. -/
structure Pager.Prepared (p : Provider) (g : Globals) (w : World) (start : Pager)
    (D : Nat → Bytes) (F : Prop) : Prop where
  codec : start.codec.Unlockable p
  salt : start.codec.flags.hasKdfSalt = true ∨ ∀ t, (w t).env.fileHeader.isSome
  fault : ∀ t, ¬ (w t).Fine → F
  recovery : start.codec.plaintextHeaderSz =
    (start.codec.pageSz : Int) - start.codec.reserveSz → ¬ F
  pageOne : start.HasPage g 1
  length : (D 1).length = start.codec.pageSz
  kept : ∀ n, start.HasPage g n → ∃ stand,
    (start.unlocked p g).Keeps p g .read (UInt32.ofNat n) stand (D n) (start.disk.file n)
  cached : ∀ n page, start.cache n = some page → start.HasPage g n ∧
    page.data.length = start.codec.pageSz ∧
    start.codec.usable page.data = start.codec.usable (D n) ∧
    page.dirty = false ∧ page.writeable = false
  state : start.state = .reader
  errCode : start.errCode = .ok
  journal : start.disk.journal = none
  log : start.log = []

section

variable (p g start D n img)

/-- An image of page `n` under the key for reading, as the journal is to hold it. -/
def Pager.Restores : Prop :=
  start.HasPage g n ∧
    (start.unlocked p g).Keeps p g .read (UInt32.ofNat n) (start.unlocked p g).kdfSalt.1 (D n) img

def Pager.Old : Prop := img = start.disk.file n ∨ start.Restores p g D n img

def Pager.Rewritten : Prop :=
  ∃ P L, (start.unlocked p g).Stores p g .write (UInt32.ofNat n) (start.unlocked p g).kdfSalt.1 P
    img L ∧ P.length = start.codec.pageSz ∧ start.Content D n P

end

theorem Pager.Prepared.restores (hp : start.Prepared p g w D F) (hn : start.HasPage g n)
    (hlen : P.length = start.codec.pageSz)
    (huse : start.codec.usable P = start.codec.usable (D n))
    (hs : (start.unlocked p g).Stores p g .read (UInt32.ofNat n) (start.unlocked p g).kdfSalt.1 P
      img L) : start.Restores p g D n img := by
  have hformat : start.codec.SameFormat 1 (start.unlocked p g) := unlocked_sameFormat _ _ 1
  obtain ⟨stand, hkeep⟩ := hp.kept n hn
  refine ⟨hn, ⟨P, L, hs, hlen.trans hformat.pageSz.symm, ?_⟩, hkeep.magic⟩
  rw [hformat.usable_eq, hformat.usable_eq, huse]

theorem Pager.Prepared.content_writeChangecounter (hp : start.Prepared p g w D F)
    (hlen : P.length = start.codec.pageSz) (h : start.Content D 1 P) (vers : Bytes) :
    start.Content D 1 (writeChangecounter vers P) := by
  have h512 := hp.codec.wf.pageSz_ge
  have hP : 100 ≤ P.length := by omega
  have hD : 100 ≤ (D 1).length := by rw [hp.length]; omega
  refine .inr ⟨rfl, vers, ?_⟩
  obtain heq | ⟨-, vers', heq⟩ := h
  · exact writeChangecounter_congr hP hD heq
  · have hD' : 100 ≤ (writeChangecounter vers' (D 1)).length := by
      rw [length_writeChangecounter hD]
      exact hD
    have hcongr : start.codec.usable (writeChangecounter vers P) =
        start.codec.usable (writeChangecounter vers (writeChangecounter vers' (D 1))) :=
      writeChangecounter_congr hP hD' heq
    rwa [writeChangecounter_twice hD] at hcongr

/-! ## After a failure -/

section

variable (p g start D pg)

/-- The log leads to the state of the files, and follows the discipline of an undo journal. -/
structure Pager.Traced : Prop where
  codec : start.codec.Framed p pg.codec
  run : Run.exec Disk.step start.disk pg.log = some pg.disk
  guarded : Run.Along Disk.step (Guarded start.disk.file (start.Restores p g D)) start.disk pg.log

/-- There is a journal, or the file is as it was. -/
structure Pager.Undone : Prop extends start.Traced p g D pg where
  old : pg.disk.journal = none → ∀ n, start.Old p g D n (pg.disk.file n)

/-- Before the rollback: synced records will be played back, unless the failure is permanent. -/
structure Pager.Halted : Prop extends start.Undone p g D pg where
  replay : pg.disk.journal ≠ none → pg.disk.synced = 0 ∨ pg.state = .error ∨
    pg.state = .writerDbmod ∧ pg.dbOrigSize = start.dbSize

end

theorem Pager.Traced.emitted (h : start.Traced p g D pg) (ev : Event Nat Bytes)
    (hg : Guarded start.disk.file (start.Restores p g D) pg.disk ev)
    (hd : pg.disk.step ev = some d) : start.Traced p g D (pg.emitted ev d) := by
  refine ⟨h.codec, ?_, ?_⟩
  · rw [Pager.emitted, Run.exec_append, h.run]
    exact Run.exec_cons_eq_some.mpr ⟨d, hd, rfl⟩
  · refine Run.along_append.mpr ⟨h.guarded, fun d' hd' => ?_⟩
    cases h.run.symm.trans hd'
    exact ⟨hg, fun _ _ => trivial⟩

theorem Pager.Traced.protected (h : start.Traced p g D pg) (hj : start.disk.journal = none) :
    Protected start.disk.file (start.Restores p g D) pg.disk :=
  Run.exec_invariant (fun _ _ _ hp hg hs => step_protected hp hg hs)
    (fun js hjs => by cases hj.symm.trans hjs) h.guarded h.run

theorem Pager.Undone.failed (h : start.Undone p g D pg) (rc : ResultCode) :
    start.Undone p g D (pg.failed rc) := by
  unfold Pager.failed
  split
  · exact { h with }
  · exact h

theorem Pager.Halted.failed (h : start.Halted p g D pg) (rc : ResultCode) :
    start.Halted p g D (pg.failed rc) := by
  unfold Pager.failed
  split
  · exact { h with replay := fun _ => .inr (.inl rfl) }
  · exact h

/-- The file is as it was, or the pages that are not will be restored. -/
theorem Pager.Halted.file_cases (h : start.Halted p g D pg) (hj : start.disk.journal = none)
    (hs : pg.state ≠ .error) : (∀ n, start.Old p g D n (pg.disk.file n)) ∨
      pg.state = .writerDbmod ∧ pg.dbOrigSize = start.dbSize ∧ ∀ n,
        start.Old p g D n (pg.disk.file n) ∨
          ∃ b, (n, b) ∈ (pg.disk.journal.getD []).take pg.disk.synced := by
  cases hjs : pg.disk.journal with
  | none => exact .inl (h.old hjs)
  | some js =>
    have hfile (n : Nat) : start.Old p g D n (pg.disk.file n) ∨
        ∃ b, (n, b) ∈ js.take pg.disk.synced :=
      ((h.protected hj js hjs).2.2 n).imp_left .inl
    obtain hzero | herr | ⟨hdb, horig⟩ := h.replay (by simp [hjs])
    · exact .inl fun n => (hfile n).resolve_right (by simp [hzero])
    · exact absurd herr hs
    · exact .inr ⟨hdb, horig, hfile⟩

/-! ## While nothing has failed -/

def Pager.Synced (pg : Pager) (n : Nat) : Prop :=
  ∃ js b, pg.disk.journal = some js ∧ (n, b) ∈ js.take pg.disk.synced

theorem Pager.Synced.inJournal (h : pg.Synced n) : pg.inJournal n = true := by
  obtain ⟨js, b, hjs, hmem⟩ := h
  rw [Pager.inJournal, hjs]
  exact List.any_eq_true.mpr ⟨(n, b), List.mem_of_mem_take hmem, beq_self_eq_true n⟩

/-- A page of the cache: `recorded` if it is in the journal, `safe` if it may be written to the
file. -/
structure CachedPage.Ok (g : Globals) (start : Pager) (D : Nat → Bytes) (rc : ResultCode)
    (recorded : Bool) (safe : Prop) (n : Nat) (page : CachedPage) : Prop where
  hasPage : start.HasPage g n
  length : page.data.length = start.codec.pageSz
  content : rc = .ok → start.Content D n page.data
  original : rc = .ok → recorded = false →
    start.codec.usable page.data = start.codec.usable (D n)
  dirty : page.dirty = true → recorded = true
  writeable : page.writeable = true → page.dirty = true
  synced : page.dirty = true → page.needSync = false → safe

structure Pager.Working (p : Provider) (g : Globals) (start : Pager) (D : Nat → Bytes) (F : Prop)
    (pg : Pager) : Prop extends start.Traced p g D pg where
  follows : start.codec.Follows p g (start.disk.file 1) F pg.codec
  keyed : ∀ n, pg.inJournal n = true → pg.codec.error = .ok → (start.unlocked p g).Keyed 1 pg.codec
  errCode : pg.errCode = .ok
  dbSize : pg.dbSize = start.dbSize
  dbOrigSize : pg.state ≠ .reader → pg.dbOrigSize = start.dbSize
  synced : pg.disk.journal ≠ none → pg.disk.synced = 0 ∨ pg.state = .writerDbmod
  pageOne : pg.state ≠ .reader → (pg.cache 1).isSome
  journal : (pg.state = .reader ∨ pg.state = .writerLocked) ∧ pg.disk.journal = none ∨
    (pg.state = .writerCachemod ∨ pg.state = .writerDbmod) ∧ pg.disk.journal.isSome
  file : ∀ n, pg.inJournal n = false → pg.disk.file n = start.disk.file n
  page : ∀ n page, pg.cache n = some page → page.Ok g start D pg.codec.error (pg.inJournal n)
    (pg.state = .writerDbmod → pg.Synced n) n
  rewritten : ∀ n, start.HasPage g n → pg.inJournal n = true →
    (∃ page, pg.cache n = some page ∧ page.dirty = true) ∨
      n ≠ 1 ∧ pg.Synced n ∧ start.Rewritten p g D n (pg.disk.file n)

/-! ## Calls into the codec -/

/-- The codec is on its way to its keys, and finds the salt of `start` as long as it needs it. -/
structure Pager.CodecReady (p : Provider) (g : Globals) (start : Pager) (F : Prop) (pg : Pager) :
    Prop where
  follows : start.codec.Follows p g (start.disk.file 1) F pg.codec
  early : start.codec.flags.hasKdfSalt = false → pg.codec = start.codec →
    pg.disk.file 1 = start.disk.file 1

theorem Pager.Working.codecReady (h : start.Working p g D F pg) (hp : start.Prepared p g w D F) :
    start.CodecReady p g F pg := by
  refine ⟨h.follows, fun hs hc => h.file 1 (Bool.eq_false_iff.mpr fun hj => ?_)⟩
  have hk := h.keyed 1 hj (hc ▸ hp.codec.error)
  rw [hc] at hk
  exact absurd (hk.hasSalt.symm.trans hs) (by decide)

section

variable {data : Bytes} {mode : CodecOp} {role : CipherRole} {Q : Bytes → Pager → Prop}
  {E : ResultCode → Pager → Prop} (hp : start.Prepared p g w D F)
include hp

/-- A call on a whole page, when it does not matter what comes out. -/
theorem wp_codec_framed (hc : start.codec.Framed p pg.codec)
    (hlen : data.length = start.codec.pageSz)
    (hnone : ∀ c, start.codec.Framed p c → E .nomem (pg.called c))
    (hsome : ∀ c out, start.codec.Framed p c → Q out (pg.called c)) :
    wp (codecOrNomem p g w data n mode) Q E pg := by
  have hlen' := hlen.trans hc.format.pageSz.symm
  refine wp_codecOrNomem (wp_xCodec hlen' (hc.exists_sqlite3Codec hp.codec hlen' _ _ _) ?_)
  intro r hr
  exact ⟨fun _ => hnone r.ctx (hc.call hr), fun out _ => hsome r.ctx out (hc.call hr)⟩

variable (hc : start.CodecReady p g F pg)
include hc

theorem Pager.CodecReady.sameSalt (t : Nat) : pg.codec = start.codec →
    start.codec.SameSalt ((w t).env.onFile (pg.disk.file 1))
      (Env.allOk.onFile (start.disk.file 1)) := by
  intro heq
  obtain hs | hs := hp.salt
  · exact .inl hs
  · cases hk : start.codec.flags.hasKdfSalt with
    | true => exact .inl hk
    | false =>
      obtain ⟨salt, hsome⟩ := Option.isSome_iff_exists.mp (hs t)
      refine .inr ⟨Salt.ofBytes (start.disk.file 1), ?_, rfl⟩
      rw [Env.onFile, hsome, hc.early hk heq]
      rfl

omit hc in
theorem Pager.Prepared.env_fault (t : Nat) (page1 : Bytes) (h : ¬ ((w t).env.onFile page1).Fine) :
    F :=
  hp.fault t fun hfine => h (hfine.env.onFile page1)

/-- A page is encrypted, or there is a reason why not. -/
theorem wp_encrypt (hrole : mode.role? = some role) (hlen : data.length = start.codec.pageSz)
    (hnone : ∀ c, start.codec.Follows p g (start.disk.file 1) F c → c.error ≠ .ok → F →
      E .nomem (pg.called c))
    (hsome : ∀ c img L, start.codec.Follows p g (start.disk.file 1) F c → pg.codec.error = .ok →
      (start.unlocked p g).Keyed 1 c → (start.unlocked p g).Stores p g role (UInt32.ofNat n)
        (start.unlocked p g).kdfSalt.1 data img L → Q img (pg.called c)) :
    wp (codecOrNomem p g w data n mode) Q E pg := by
  have hlen' := hlen.trans hc.follows.format.pageSz.symm
  refine wp_codecOrNomem
    (wp_xCodec hlen' (hc.follows.toFramed.exists_sqlite3Codec hp.codec hlen' _ _ _) ?_)
  intro r hr
  obtain ⟨hf, hcase⟩ := hc.follows.encrypt hp.codec (hc.sameSalt hp _) hrole hlen'
    (hp.env_fault _ _) hr
  obtain ⟨hout, hbad, hF⟩ | ⟨img, L, hout, herr, hk, hs⟩ := hcase
  · exact ⟨fun _ => hnone r.ctx hf hbad hF, fun img himg => by cases hout.symm.trans himg⟩
  · refine ⟨fun hn => (by cases hout.symm.trans hn), fun img' himg => ?_⟩
    cases hout.symm.trans himg
    exact hsome r.ctx img L hf (error_of_sqlite3Codec hlen' hr herr) hk hs

/-- An image of the database is read back to its content, or the codec has noticed. -/
theorem wp_decrypt
    (hX : (start.unlocked p g).Keeps p g .read (UInt32.ofNat n) stand (D n) data)
    (hnone : ∀ c, start.codec.Follows p g (start.disk.file 1) F c → F →
      E .nomem (pg.called c))
    (hsome : ∀ c page, start.codec.Follows p g (start.disk.file 1) F c →
      page.length = start.codec.pageSz →
      (c.error = .ok → pg.codec.error = .ok ∧ (start.unlocked p g).Keyed 1 c ∧
        start.codec.usable page = start.codec.usable (D n)) →
      Q page (pg.called c)) :
    wp (codecOrNomem p g w data n .read) Q E pg := by
  have hlen' : data.length = pg.codec.pageSz := hX.length.trans
    ((unlocked_sameFormat start.codec _ 1).pageSz.trans hc.follows.format.pageSz.symm)
  refine wp_codecOrNomem
    (wp_xCodec hlen' (hc.follows.toFramed.exists_sqlite3Codec hp.codec hlen' _ _ _) ?_)
  intro r hr
  have hsalt := hc.sameSalt hp pg.clock
  obtain ⟨hf, hcase⟩ := hc.follows.read hp.codec hsalt hX (hp.env_fault _ _) hp.recovery hr
  obtain ⟨hout, hbad, hF⟩ | ⟨page, hout, hplen, huse⟩ := hcase
  · exact ⟨fun _ => hnone r.ctx hf hF, fun img himg => by cases hout.symm.trans himg⟩
  · refine ⟨fun hn => (by cases hout.symm.trans hn), fun img' himg => ?_⟩
    cases hout.symm.trans himg
    refine hsome r.ctx page hf hplen
      fun herr => ⟨error_of_sqlite3Codec hlen' hr herr, ?_, huse herr⟩
    exact hc.follows.keyed_of_call hp.codec hsalt hlen' hr herr

end

/-! ## What keeps the invariant -/

namespace Pager.Working

variable (h : start.Working p g D F pg) {js : List (Nat × Bytes)}
include h

theorem halted : start.Halted p g D pg := by
  refine ⟨⟨h.toTraced, fun hnone n => .inl (h.file n (by simp [Pager.inJournal, hnone]))⟩, ?_⟩
  refine fun hsome => (h.synced hsome).imp_right fun hdb => .inr ⟨hdb, h.dbOrigSize ?_⟩
  simp [hdb]

theorem tick : start.Working p g D F pg.tick :=
  { h with codec := h.toTraced.codec }

theorem withFileVers (vers : Bytes) : start.Working p g D F (pg.withFileVers vers) :=
  { h with codec := h.toTraced.codec }

/-- A call into the codec that either leaves an error or the keys. -/
theorem withCodec (hf : start.codec.Follows p g (start.disk.file 1) F c)
    (hc : c.error = .ok → pg.codec.error = .ok ∧ (start.unlocked p g).Keyed 1 c) :
    start.Working p g D F (pg.called c) :=
  { h with
    codec := hf.toFramed, follows := hf
    keyed := fun _ _ herr => (hc herr).2
    page := fun n page hpage =>
      have hok := h.page n page hpage
      { hok with
        content := fun herr => hok.content (hc herr).1
        original := fun herr => hok.original (hc herr).1 } }

theorem withPage {page : Option CachedPage}
    (hok : ∀ q, page = some q → q.Ok g start D pg.codec.error (pg.inJournal n)
      (pg.state = .writerDbmod → pg.Synced n) n)
    (hone : pg.state ≠ .reader → n = 1 → page.isSome)
    (hrew : start.HasPage g n → pg.inJournal n = true →
      (∃ q, page = some q ∧ q.dirty = true) ∨
        n ≠ 1 ∧ pg.Synced n ∧ start.Rewritten p g D n (pg.disk.file n)) :
    start.Working p g D F (pg.withPage n page) :=
  { h with
    codec := h.toTraced.codec
    pageOne := fun hs => by
      by_cases h1 : 1 = n
      · subst h1
        rw [pg.withPage_self]
        exact hone hs rfl
      · rw [Pager.withPage_of_ne h1]
        exact h.pageOne hs
    page := fun m q hq => by
      by_cases hm : m = n
      · subst hm
        exact hok q (pg.withPage_self m page ▸ hq)
      · exact h.page m q (Pager.withPage_of_ne hm pg page ▸ hq)
    rewritten := fun m hm hj => by
      by_cases hmn : m = n
      · subst hmn
        rw [pg.withPage_self]
        exact hrew hm hj
      · rw [Pager.withPage_of_ne hmn]
        exact h.rewritten m hm hj }

theorem withData {page : CachedPage} (hpage : pg.cache n = some page)
    (hj : pg.inJournal n = true) (hlen : data.length = start.codec.pageSz)
    (hcontent : pg.codec.error = .ok → start.Content D n data) :
    start.Working p g D F (pg.withPage n (some { page with data := data })) := by
  have hok := h.page n page hpage
  refine h.withPage (fun q hq => ?_) (fun _ _ => rfl) fun hn _ => ?_
  · cases hq
    exact { hok with
      length := hlen, content := hcontent, original := fun _ hn =>
        absurd (hj.symm.trans hn) (by decide) }
  · refine (h.rewritten n hn hj).imp_left fun ⟨q, hq, hd⟩ => ⟨_, rfl, ?_⟩
    cases hpage.symm.trans hq
    exact hd

theorem emitWrite (hs : pg.Synced n) (hrew : start.Rewritten p g D n img) :
    start.Working p g D F
      (pg.emitted (.write n img) { pg.disk with file := update pg.disk.file n img }) := by
  have ht := h.toTraced.emitted (.write n img) hs rfl
  exact { h with
    toTraced := ht
    file := fun m hm => by
      have hmn : m ≠ n := by
        rintro rfl
        exact absurd (hs.inJournal.symm.trans hm) (by decide)
      exact (update_of_ne hmn img pg.disk.file).trans (h.file m hm)
    rewritten := fun m hm hj => by
      refine (h.rewritten m hm hj).imp_right fun hr => ⟨hr.1, hr.2.1, ?_⟩
      by_cases hmn : m = n
      · subst hmn
        simpa [Pager.emitted] using hrew
      · simpa [Pager.emitted, hmn] using hr.2.2 }

theorem state_of_journal (hjs : pg.disk.journal = some js) :
    pg.state = .writerCachemod ∨ pg.state = .writerDbmod := by
  obtain ⟨-, hnone⟩ | ⟨hs, -⟩ := h.journal
  · cases hnone.symm.trans hjs
  · exact hs

theorem ne_reader (hjs : pg.disk.journal = some js) : pg.state ≠ .reader := by
  intro hs
  obtain hs' | hs' := h.state_of_journal hjs <;> cases hs.symm.trans hs'

theorem journal_eq_none (hs : pg.state = .writerLocked) : pg.disk.journal = none := by
  obtain ⟨-, hnone⟩ | ⟨hs' | hs', -⟩ := h.journal
  · exact hnone
  · cases hs.symm.trans hs'
  · cases hs.symm.trans hs'

theorem emitSync (hjs : pg.disk.journal = some js) :
    start.Working p g D F { pg.emitted .sync { pg.disk with synced := js.length } with
      cache := fun n => (pg.cache n).map fun page => { page with needSync := false }
      state := .writerDbmod } := by
  have hstep : pg.disk.step .sync = some { pg.disk with synced := js.length } := by
    simp [Disk.step, hjs]
  have ht := h.toTraced.emitted .sync trivial hstep
  have hstate := h.ne_reader hjs
  have hall (m : Nat) (hm : pg.inJournal m = true) :
      ∃ js' b, pg.disk.journal = some js' ∧ (m, b) ∈ js'.take js.length := by
    rw [Pager.inJournal, hjs] at hm
    obtain ⟨⟨m', b⟩, hmem, heq⟩ := List.any_eq_true.mp hm
    cases (beq_iff_eq.mp heq : m' = m)
    exact ⟨js, b, hjs, by rwa [List.take_length]⟩
  exact { h with
    toTraced := { ht with }
    dbOrigSize := fun _ => h.dbOrigSize hstate
    synced := fun _ => .inr rfl
    pageOne := fun _ => by simpa using h.pageOne hstate
    journal := .inr ⟨.inr rfl, by simp [Pager.emitted, hjs]⟩
    page := fun m q hq => by
      obtain ⟨page, hpage, rfl⟩ := Option.map_eq_some_iff.mp hq
      have hok := h.page m page hpage
      exact { hok with
        dirty := hok.dirty, writeable := hok.writeable
        synced := fun hd _ _ => hall m (hok.dirty hd) }
    rewritten := fun m hm hj => by
      obtain ⟨page, hpage, hd⟩ | ⟨h1, -, hr⟩ := h.rewritten m hm hj
      · exact .inl ⟨_, Option.map_eq_some_iff.mpr ⟨page, hpage, rfl⟩, hd⟩
      · exact .inr ⟨h1, hall m hj, hr⟩ }

theorem emitOpenJournal (hs : pg.state = .writerLocked) :
    start.Working p g D F
      { pg.emitted .openJournal { pg.disk with journal := some [], synced := 0 } with
        state := .writerCachemod } := by
  have hfalse (m : Nat) : pg.inJournal m = false := by
    rw [Pager.inJournal, h.journal_eq_none hs]
    rfl
  have hreader : pg.state ≠ .reader := fun hs' => by cases hs.symm.trans hs'
  have ht := h.toTraced.emitted .openJournal (funext fun m => h.file m (hfalse m)) rfl
  exact { h with
    toTraced := { ht with }
    keyed := nofun
    dbOrigSize := fun _ => h.dbOrigSize hreader
    synced := fun _ => .inl rfl
    pageOne := fun _ => h.pageOne hreader
    journal := .inr ⟨.inl rfl, rfl⟩
    file := fun m _ => h.file m (hfalse m)
    page := fun m q hq => by
      have hok := h.page m q hq
      rw [hfalse m] at hok
      exact { hok with synced := fun hd => absurd (hok.dirty hd) (by decide) }
    rewritten := nofun }

/-- A page is journalled and may be changed. -/
theorem record {page q : CachedPage} (hpage : pg.cache n = some page)
    (hjs : pg.disk.journal = some js) (hf : start.codec.Follows p g (start.disk.file 1) F c)
    (hk : (start.unlocked p g).Keyed 1 c) (herr : pg.codec.error = .ok)
    (himg : start.Restores p g D n img)
    (hq : q.data = page.data ∧ q.dirty = true ∧ q.needSync = true)
    (hpg' : pg' = { pg.emitted (.record n img)
      { pg.disk with journal := some (js ++ [(n, img)]) } with
        codec := c, cache := update pg.cache n (some q), clock := t }) :
    start.Working p g D F pg' := by
  have hdisk : pg'.disk = { pg.disk with journal := some (js ++ [(n, img)]) } := by
    rw [hpg']
    rfl
  have hstep : pg.disk.step (.record n img) = some pg'.disk := by simp [Disk.step, hjs, hdisk]
  have ht := h.toTraced.emitted (.record n img) himg hstep
  have hmem (m : Nat) : pg'.inJournal m = (pg.inJournal m || n == m) := by
    simp [Pager.inJournal, hdisk, hjs]
  have hmem_of_ne (m : Nat) (hm : m ≠ n) : pg'.inJournal m = pg.inJournal m := by
    simp [hmem, hm.symm]
  have hsynced (m : Nat) (hm : pg.Synced m) : pg'.Synced m := by
    obtain ⟨js', b, hjs', hb⟩ := hm
    cases hjs.symm.trans hjs'
    refine ⟨_, b, by rw [hdisk], ?_⟩
    rw [hdisk, List.take_append]
    exact List.mem_append_left _ hb
  have hok := h.page n page hpage
  subst hpg'
  exact { h with
    toTraced := { ht with codec := hf.toFramed }
    follows := hf
    keyed := fun _ _ _ => hk
    synced := fun _ => h.synced (by simp [hjs])
    pageOne := fun hs => by
      by_cases h1 : 1 = n
      · simp [h1]
      · simpa [h1] using h.pageOne hs
    journal := .inr ⟨h.state_of_journal hjs, rfl⟩
    file := fun m hm => by
      rw [hmem, Bool.or_eq_false_iff] at hm
      exact h.file m hm.1
    page := fun m q' hq' => by
      by_cases hmn : m = n
      · subst hmn
        cases (update_self m (some q) pg.cache).symm.trans hq'
        rw [hmem, beq_self_eq_true, Bool.or_true]
        exact ⟨hok.hasPage, hq.1 ▸ hok.length, fun _ => hq.1 ▸ hok.content herr, nofun,
          fun _ => rfl, fun _ => hq.2.1, fun _ hn => absurd (hq.2.2.symm.trans hn) (by decide)⟩
      · have hok' := h.page m q' (update_of_ne hmn (some q) pg.cache ▸ hq')
        rw [hmem_of_ne m hmn]
        exact { hok' with
          content := fun _ => hok'.content herr
          original := fun _ => hok'.original herr
          synced := fun hd hn hs => hsynced m (hok'.synced hd hn hs) }
    rewritten := fun m hm hj => by
      by_cases hmn : m = n
      · subst hmn
        exact .inl ⟨q, update_self .., hq.2.1⟩
      · rw [hmem_of_ne m hmn] at hj
        obtain ⟨q', hq', hd⟩ | ⟨h1, hs, hr⟩ := h.rewritten m hm hj
        · exact .inl ⟨q', (update_of_ne hmn ..).trans hq', hd⟩
        · exact .inr ⟨h1, hsynced m hs, hr⟩ }

end Pager.Working

end SqlCipher
