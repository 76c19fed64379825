import SqlCipher.PageIo.Sealed
import SqlCipher.PageIo.Transaction

/-!
# Images in transactions

The functions of `PageIo.Transaction` preserve `State.Sealed`. Playback is where images go from a
journal to the database: records of the rollback journal come from a codec, and those of the
sub-journal either do or go through the codec on their way.
-/

namespace SqlCipher.PageIo

open Proc List State

set_option synthInstance.maxSize 10000

variable {κ : Type} {C : XCodec κ} {cfg : Config} {w : Nat → Answer} {b isMainJrnl : Bool}
  {size : Option Nat} {pageSize : Nat}
  {imgs : List Image} {img : Image} {pg : State κ}

instance : Kept (Sealed C (some pageSize) b imgs) (pagerIncrChangecounter C cfg w) := by
  unfold pagerIncrChangecounter
  infer_instance

instance : Kept (Sealed C (some pageSize) b imgs) (pagerCommitPhaseOne C cfg w) := by
  unfold pagerCommitPhaseOne
  infer_instance

instance : Kept (Sealed C size b imgs) (modify dropJournal : M κ Unit) :=
  ⟨.modify fun _ h => h.setJournal nofun⟩

instance : Kept (Sealed C size b imgs) (finalizeJournal w : M κ Unit) := by
  have : Kept (Sealed C size b imgs)
      (modify fun pg => { pg.dropJournal with jfd := .closed } : M κ Unit) :=
    ⟨.modify fun _ h => h.setJournal nofun⟩
  infer_instance

instance {bCommit : Bool} : Kept (Sealed C size b imgs)
    (pagerEndTransaction w bCommit : M κ Unit) := by
  unfold pagerEndTransaction
  infer_instance

instance : Kept (Sealed C size b imgs) (pagerCommitPhaseTwo w : M κ Unit) := by
  unfold pagerCommitPhaseTwo
  infer_instance

/-- A record that is encoded goes to the file as it is, whatever the page size is. -/
theorem playbackWrite_keeps (himg : jrnlEnc = true → img ∈ imgs)
    (hsize : jrnlEnc = false → size = some pageSize) :
    Keeps (Sealed C size b imgs) (playbackWrite C w jrnlEnc img) := by
  cases jrnlEnc with
  | true =>
    refine fun pg h => .bind
      (.pure (Maintains.bind (.attempt (writeDatabase_keeps (himg rfl))) ?_ pg h))
    exact fun _ => Kept.keeps
  | false =>
    obtain rfl := hsize rfl
    refine keeps_codec (by decide) fun data => .bind (.attempt (writeDatabase_keeps ?_)) ?_
    · exact mem_cons_self
    · exact fun _ => Kept.keeps

theorem playbackStore_keeps (synced : Bool) (himg : isMainJrnl = true ∨ b = false → img ∈ imgs)
    (hsize : isMainJrnl = false → size = some pageSize) :
    Keeps (Sealed C size b imgs) (playbackStore C cfg w isMainJrnl synced img) := by
  refine .get_bind fun pg h => ?_
  have henc : (isMainJrnl || !pg.subjInMemory) = true → img ∈ imgs := by
    rw [h.flag]
    simpa using himg
  have hmain : (isMainJrnl || !pg.subjInMemory) = false → isMainJrnl = false := by
    cases isMainJrnl <;> simp
  unfold playbackBackup playbackFetch
  refine .ite ⟨fun _ => ?_, fun _ => .bind (.when ⟨fun hsub => ?_, fun _ => h⟩)⟩
  · exact Maintains.bind (playbackWrite_keeps henc (hsize ∘ hmain)) (fun _ => Kept.keeps) pg h
  · obtain rfl := hsize hsub.1
    exact Kept.wlp (I := Sealed C (some pageSize) b imgs) h

theorem pagerPlaybackOnePage_keeps (synced : Bool)
    (himg : isMainJrnl = true ∨ b = false → img ∈ imgs)
    (hsize : isMainJrnl = false → size = some pageSize) :
    Keeps (Sealed C size b imgs) (pagerPlaybackOnePage C cfg w isMainJrnl synced img) :=
  .bind (.bind (.when (.modify fun _ h => h)) fun _ => playbackStore_keeps synced himg hsize)
    fun _ => Kept.keeps

theorem playbackRecords_keeps (once : Bool) (i : Nat) (done : List Nat) {records : List Image}
    (hrec : isMainJrnl = true ∨ b = false → records ⊆ imgs)
    (hsize : isMainJrnl = false → size = some pageSize) :
    Keeps (Sealed C size b imgs) (playbackRecords C cfg w isMainJrnl once i done records) := by
  induction records generalizing i done with
  | nil => exact .pure done
  | cons img records ih =>
    have himg : isMainJrnl = true ∨ b = false → img ∈ imgs := fun h => hrec h mem_cons_self
    have hrest := fun h => subset_of_cons_subset (hrec h)
    exact .bind .get fun pg => .ite (ih (i + 1) done hrest)
      (.bind (pagerPlaybackOnePage_keeps _ himg hsize) fun _ => ih (i + 1) _ hrest)

theorem mainRecords_keeps (once : Bool) (i : Nat) (done : List Nat) {records : List Image}
    (hrec : records ⊆ imgs) :
    Keeps (Sealed C size b imgs) (playbackRecords C cfg w true once i done records) :=
  playbackRecords_keeps once i done (fun _ => hrec) (show true = false → size = some 0 from nofun)

theorem State.foundRecords_subset (pg : State κ) (isHot : Bool) :
    pg.foundRecords isHot ⊆ pg.journal := by
  unfold foundRecords
  split
  · exact take_subset _ _
  · exact List.Subset.refl _

theorem State.records_subset (pg : State κ) : pg.records ⊆ pg.journal := by
  unfold records
  split
  · exact List.Subset.refl _
  · exact nil_subset _

theorem State.journal_subset_images (pg : State κ) : pg.journal ⊆ pg.images b := fun _ h => by
  simp [images, h]

theorem State.subJournal_subset_images (pg : State κ) (hoff : b = false) :
    pg.subJournal ⊆ pg.images b := fun _ h => by
  simp [images, h, hoff]

theorem State.mem_images_append {records : List Image} (h : records ⊆ pg.images b) :
    records ⊆ pg.images b ++ imgs :=
  fun _ hmem => mem_append_left imgs (h hmem)

instance {n : Nat} : Kept (Sealed C none b imgs) (pagerSetPagesize w n : M κ Unit) :=
  ⟨.bind .get fun _ => .when (.bind Kept.keeps fun _ => .bind Kept.keeps fun _ =>
    .modify fun _ h => { h with fits := nofun })⟩

instance {isHot : Bool} : Kept (Sealed C none b imgs) (playbackJournal C cfg w isHot) := by
  refine ⟨keeps_read fun pg _ => ?_⟩
  have hrec : pg.foundRecords isHot ⊆ pg.images b ++ imgs :=
    mem_images_append fun _ h => pg.journal_subset_images (pg.foundRecords_subset isHot h)
  have : Kept (Sealed C none b (pg.images b ++ imgs))
      (playbackRecords C cfg w true false 0 [] (pg.foundRecords isHot)) :=
    ⟨mainRecords_keeps false 0 [] hrec⟩
  exact Kept.keeps

instance {isHot : Bool} : Kept (Sealed C none b imgs) (pagerPlayback C cfg w isHot) := by
  unfold pagerPlayback
  infer_instance

instance {pgno : Nat} : Kept (Sealed C size b imgs) (pagerUndoCallback C w pgno) := by
  refine ⟨.bind Kept.keeps fun o => .bind .get fun pg => ?_⟩
  cases pg.cache pgno <;> exact Kept.keeps

instance : Kept (Sealed C size b imgs) (pagerRollbackWal C cfg w) := by
  unfold pagerRollbackWal
  infer_instance

theorem pagerPlaybackSavepoint_keeps (p : Savepoint) :
    Keeps (Sealed C (some pageSize) b imgs) (pagerPlaybackSavepoint C cfg w p) := by
  refine .bind (.modify fun _ h => h) fun _ => keeps_read fun pg _ => ?_
  have hjournal : pg.records.drop p.iRec ⊆ pg.images b ++ imgs := mem_images_append fun _ h =>
      pg.journal_subset_images (pg.records_subset (drop_subset _ _ h))
  refine .ite_bind (.pure []) (mainRecords_keeps true p.iRec [] hjournal) fun done =>
    .bind (.when (.modify fun _ h => h)) fun _ =>
    .bind (playbackRecords_keeps true 0 done ?_ fun _ => rfl) fun _ => .pure ()
  rintro (hmain | hoff)
  · exact nomatch hmain
  · exact mem_images_append fun _ h =>
      pg.subJournal_subset_images hoff (drop_subset _ _ h)

theorem pagerPlaybackAll_keeps : Keeps (Sealed C size b imgs) (pagerPlaybackAll C cfg w) := by
  refine .bind (.modify fun _ h => h) fun _ => keeps_read fun pg _ => ?_
  have hrec : pg.records ⊆ pg.images b ++ imgs :=
    mem_images_append fun _ h => pg.journal_subset_images (pg.records_subset h)
  exact .ite Kept.keeps (.bind (mainRecords_keeps false 0 [] hrec) fun _ => .pure ())

instance {iSavepoint : Nat} :
    Kept (Sealed C size b imgs) (pagerReleaseSavepoint iSavepoint : M κ Unit) := by
  refine ⟨.bind .get fun pg => .bind Kept.keeps fun _ => ?_⟩
  cases pg.savepoints[iSavepoint]? with
  | none => exact .pure ()
  | some rel =>
    refine .bind (.modify fun _ h => h) fun _ => .when (.modify fun s h => ?_)
    refine h.setSub (fun hclosed => ?_) h.onFile fun hoff img himg => ?_
    · simp [h.closed hclosed]
    · exact h.subJournal hoff img (mem_of_mem_take himg)

instance {iSavepoint : Option Nat} :
    Kept (Sealed C (some pageSize) b imgs) (pagerRollbackSavepoint C cfg w iSavepoint) := by
  refine ⟨.bind .get fun pg => .bind Kept.keeps fun _ =>
    .when (.bind (.modify fun _ h => h) fun _ => .when ?_)⟩
  cases iSavepoint.bind fun i => pg.savepoints[i]? with
  | none => exact pagerPlaybackAll_keeps
  | some p => exact pagerPlaybackSavepoint_keeps p

instance : Kept (Sealed C size b imgs) (pagerRollbackSavepoint C cfg w none) :=
  ⟨.bind .get fun _ => .bind Kept.keeps fun _ =>
    .when (.bind (.modify fun _ h => h) fun _ => .when pagerPlaybackAll_keeps)⟩

instance : Kept (Sealed C none b imgs) (pagerRollback C cfg w) := by
  unfold pagerRollback
  infer_instance

instance : Kept (Sealed C size b imgs) (modify closeJournal : M κ Unit) := by
  refine ⟨.modify fun pg h => ?_⟩
  unfold closeJournal
  split
  · exact h.setJournal nofun
  · exact h

instance : Kept (Sealed C size b imgs) (pagerUnlock cfg w : M κ Unit) := by
  refine ⟨.bind (.modify fun _ h => h) fun _ => .bind Kept.keeps fun _ => .bind .get fun pg =>
    .ite_bind Kept.keeps (.when ?_) fun _ => Kept.keeps⟩
  refine .bind Kept.keeps fun _ => .bind Kept.keeps fun r => ?_
  cases r <;> exact Kept.keeps

instance : Kept (Sealed C none b imgs) (pagerUnlockAndRollback C cfg w) := by
  unfold pagerUnlockAndRollback
  infer_instance

instance : Kept (Sealed C size b imgs) (pagerOpenWal w : M κ Unit) := by
  unfold pagerOpenWal
  infer_instance

instance : Kept (Sealed C none b imgs) (recoverHotJournal C cfg w) := by
  unfold recoverHotJournal
  infer_instance

instance : Kept (Sealed C none b imgs) (sharedLock C cfg w) := by
  unfold sharedLock
  infer_instance

instance : Kept (Sealed C none b imgs) (pagerSharedLock C cfg w) := by
  refine ⟨.bind Kept.keeps fun r => ?_⟩
  cases r <;> exact Kept.keeps

/-- `sqlite3PagerBegin` may change `subjInMemory` while there is no sub-journal. -/
theorem Sealing.setFlag (h : pg.Sealed C size b imgs) {subjInMemory : Bool}
    (hclosed : subjInMemory ≠ pg.subjInMemory → pg.sjfd = .closed) :
    ({ pg with subjInMemory := subjInMemory } : State κ).Sealed C size subjInMemory imgs := by
  by_cases heq : subjInMemory = pg.subjInMemory
  · obtain rfl : subjInMemory = b := heq.trans h.flag
    exact { h with flag := rfl }
  · have hsjfd : pg.sjfd = .closed := hclosed heq
    refine { h with flag := rfl, onFile := fun hfile => ?_, subJournal := fun _ img himg => ?_ }
    · rw [hsjfd] at hfile
      exact hfile.elim
    · rw [h.closed hsjfd] at himg
      cases himg

theorem pagerBegin_wlp (exFlag subjInMemory : Bool) (h : pg.Sealed C size b imgs)
    (hclosed : subjInMemory ≠ pg.subjInMemory → pg.sjfd = .closed) :
    wlp (pagerBegin w exFlag subjInMemory : M κ Unit)
      (fun _ s => ∃ b, s.Sealed C size b imgs) (fun _ s => ∃ b, s.Sealed C size b imgs) pg := by
  refine .read (.bind (.ite ⟨fun _ => ?_, fun _ => ⟨b, h⟩⟩))
  refine .pure (.write ?_)
  exact .mono (Kept.wlp (h.setFlag hclosed)) (fun _ _ hs => ⟨_, hs⟩) fun _ _ hs => ⟨_, hs⟩

instance {eMode : JournalMode} : Kept (Sealed C none b imgs)
    (pagerSetJournalMode C cfg w eMode) := by
  unfold pagerSetJournalMode removeJournal
  infer_instance

theorem State.findFrame_pgno {pgno minFrame mxFrame : Nat}
    (hpos : 0 < pg.findFrame pgno minFrame mxFrame)
    (himg : pg.frames[pg.findFrame pgno minFrame mxFrame - 1]? = some img) : img.pgno = pgno := by
  unfold findFrame at hpos himg
  cases hlast : ((range' minFrame (mxFrame + 1 - minFrame)).filter fun i =>
      0 < i ∧ (pg.frames[i - 1]?.map Image.pgno) = some pgno).getLast? with
  | none => simp only [hlast, Option.getD_none, Nat.lt_irrefl] at hpos
  | some i =>
    have hfound := (mem_filter.mp (mem_of_getLast? hlast)).2
    simp only [hlast, Option.getD_some] at himg
    simp only [himg, Option.map_some, Option.some.injEq, decide_eq_true_eq] at hfound
    exact hfound.2

instance {nBackfill mxSafeFrame mxFrame pgno : Nat} :
    Kept (Sealed C size b imgs) (backfillPage w nBackfill mxSafeFrame mxFrame pgno : M κ Unit) := by
  refine ⟨keeps_read fun pg _ s h => .ite ⟨fun hframe => ?_, fun _ => h⟩⟩
  refine Maintains.bind request_keeps (fun _ => ?_) s h
  cases himg : pg.frames[pg.findFrame pgno 1 mxFrame - 1]? with
  | none => exact .undefined
  | some img =>
    have hpgno : img.pgno = pgno := findFrame_pgno (Nat.zero_lt_of_lt hframe.1) himg
    have hmem : img ∈ pg.images b := by simp [images, mem_of_getElem? himg]
    subst hpgno
    exact writeDatabase_keeps (mem_append_left imgs hmem)

instance {reset : Bool} : Kept (Sealed C size b imgs) (pagerCheckpoint w reset : M κ Unit) := by
  unfold pagerCheckpoint
  infer_instance

instance : Kept (Sealed C size b imgs) (pagerCloseWal w : M κ Unit) :=
  ⟨.bind Kept.keeps fun _ => .bind Kept.keeps fun _ => .modify fun _ h => h.setFrames nofun⟩

end SqlCipher.PageIo
