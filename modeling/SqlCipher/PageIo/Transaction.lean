import SqlCipher.PageIo.Pager

/-!
# Transactions of the pager in all its modes

The other half of the model: committing and rolling back transactions and savepoints, finalizing
and replaying journals, the locks between transactions, changes of the journal mode, and
checkpoints.
-/

namespace SqlCipher.PageIo

open Buffer Proc State

variable {κ : Type} (C : XCodec κ) (cfg : Config) (w : Nat → Answer)

/-! ## Ending a transaction -/

def pagerIncrChangecounter : M κ Unit := do
  let pg ← get
  when (pg.changeCountDone = false ∧ 0 < pg.dbSize) do
    pagerGet C cfg w 1 false
    pagerWrite C cfg w 1
    let page ← lookup 1
    let _ ← changeCounted 1 page
    modify fun pg => { pg with changeCountDone := true }

variable (pg : State κ)

def State.dirtyList : List Nat :=
  (List.range' 1 cfg.mxPgno).filter fun n => (pg.cache n).any Cached.dirty

def cleanAll : M κ Unit := mapCache Cached.makeClean

def pagerCommitPhaseOne : M κ Unit := do
  let pg ← get
  check pg.errCode
  when (EState.rank .writerCachemod ≤ pg.eState.rank) do
    if pg.useWal then do
      let list := pg.dirtyList cfg
      when (list = []) (pagerGet C cfg w 1 false)
      let list := if list = [] then [1] else list
      pagerWalFrames C w list pg.dbSize true
      cleanAll
    else do
      pagerIncrChangecounter C cfg w
      syncJournal cfg w
      let pg ← get
      pagerWritePagelist C w (pg.dirtyList cfg)
      cleanAll
      let pg ← get
      when (pg.dbFileSize < pg.dbSize) do
        pagerTruncate w (if pg.dbSize = cfg.sjPgno then pg.dbSize - 1 else pg.dbSize)
      request w
      setState .writerFinished

def State.dropJournal : State κ :=
  { pg with journal := [], header := { pg.header with magic := false } }

/-- `sqlite3OsClose` on the journal. One that is in memory is lost. -/
def State.closeJournal : State κ :=
  { (if pg.jfd = .memory none then pg.dropJournal else pg) with jfd := .closed }

/-- The journal is finalized: closed, truncated, zeroed or deleted. No record is valid any more. -/
def finalizeJournal : M κ Unit := do
  let pg ← get
  match pg.jfd with
  | .closed => return ()
  | .memory _ => modify fun pg => { pg.dropJournal with jfd := .closed }
  | .file =>
    if pg.journalMode = .truncate then do
      request w
      modify dropJournal
    else if pg.journalMode = .persist ∨ (pg.exclusiveMode ∧ pg.journalMode ≠ .wal) then do
      request w
      modify dropJournal
    else do
      modify fun pg => { pg with jfd := .closed }
      request w
      modify dropJournal

def pagerEndTransaction (bCommit : Bool) : M κ Unit := do
  let pg ← get
  if pg.eState.rank < EState.rank .writerLocked ∧ pg.eLock.rank < Lock.rank .reserved then return ()
  else do
    releaseAllSavepoints
    let rc ← attempt do
      let rc ← attempt (finalizeJournal w)
      modify fun pg => { pg with inJournal := none }
      ofExcept rc
      cleanAll
      modify fun pg =>
        { pg with cache := fun n => if n ≤ pg.dbSize then pg.cache n else none }
      let pg ← get
      when (pg.useWal = false ∧ bCommit = true ∧ pg.dbSize < pg.dbFileSize)
        (pagerTruncate w pg.dbSize)
    let o ← ask w
    let rc2 ← attempt <|
      when (pg.exclusiveMode = false ∧ (pg.useWal = false ∨ o.found)) (pagerUnlockDb w .shared)
    setState .reader
    ofExcept rc
    ofExcept rc2

/-- `sqlite3PagerCommitPhaseTwo`. Without changes, a persistent journal in exclusive mode is left
alone. -/
def pagerCommitPhaseTwo : M κ Unit := do
  let pg ← get
  check pg.errCode
  if pg.eState = .writerLocked ∧ pg.exclusiveMode ∧ pg.journalMode = .persist then setState .reader
  else pagerError (pagerEndTransaction w true)

/-! ## Rolling back -/

variable (jrnlEnc : Bool) (img : Image)

/-- `CODEC1` where a failure only sets the code. -/
def decodeRecord (pgno : Nat) (data : Bytes) (rc : Except ResultCode Unit) :
    M κ (Bytes × Except ResultCode Unit) := do
  match ← attempt (codec1 C pgno data) with
  | .ok plain => return (plain, rc)
  | .error e => return (data, .error e)

/-- A record of an encoded journal goes to the file as it is, others through the codec. The result
is what `aData` holds then, and the code. -/
def playbackWrite : M κ (Bytes × Except ResultCode Unit) := do
  let data ← if jrnlEnc then pure img.data else codec2 C w .journal img.pgno img.data
  let rc ← attempt (writeDatabase w ⟨img.pgno, data⟩)
  modify fun pg => { pg with dbFileSize := max pg.dbFileSize img.pgno }
  if jrnlEnc then return (data, rc) else decodeRecord C img.pgno data rc

variable (pgno : Nat)

/-- A backup is told what was written, decoded. The record is encoded again after that. -/
def playbackBackup (data : Bytes) (rc : Except ResultCode Unit) :
    M κ (Bytes × Except ResultCode Unit) := do
  let pg ← get
  if pg.backup ∧ jrnlEnc then do
    let (plain, rc) ← decodeRecord C pgno data rc
    let data ← codec2 C w .journal pgno plain
    ofExcept rc
    return (data, rc)
  else return (data, rc)

/-- A page that is not in the cache, and could not be written, is put into the cache. -/
def playbackFetch : M κ Unit := do
  modify fun pg => { pg with spillRollback := true }
  let rc ← attempt (pagerGet C cfg w pgno true)
  modify fun pg => { pg with spillRollback := false }
  ofExcept rc
  let page ← lookup pgno
  setPage pgno (some page.makeDirty)

variable (isMainJrnl : Bool) (synced : Bool)

/-- The part of `pager_playback_one_page` that brings the record to the file, or makes room in the
cache. -/
def playbackStore (img : Image) :
    M κ (Bytes × Except ResultCode Unit) := do
  let pg ← get
  let jrnlEnc := isMainJrnl || !pg.subjInMemory
  let page := if pg.useWal then none else pg.cache img.pgno
  let isSynced := if isMainJrnl then cfg.noSync || synced else page.all (!·.needSync)
  if (EState.rank .writerDbmod ≤ pg.eState.rank ∨ pg.eState = .open) ∧ isSynced then do
    let (data, rc) ← playbackWrite C w jrnlEnc img
    playbackBackup C w jrnlEnc img.pgno data rc
  else do
    when (isMainJrnl = false ∧ page = none) (playbackFetch C cfg w img.pgno)
    return (img.data, .ok ())

/-- The record is copied into the page of the cache, with the bytes that tell of changes. -/
def playbackCopy (page : Cached) : M κ Unit := do
  setPage img.pgno (some { page with data := img.data })
  when (img.pgno = 1) do
    modify fun pg => { pg with dbFileVers := slice img.data 24 16 }

def playbackDecode : M κ Unit :=
  when (jrnlEnc = true) do
    let data ← codec1 C img.pgno img.data
    let page ← lookup img.pgno
    setPage img.pgno (some { page with data := data })

/-- The end of `pager_playback_one_page`: the record replaces the page in the cache. -/
def playbackCached : M κ Unit := do
  let pg ← get
  match pg.cache img.pgno with
  | none => return ()
  | some page => do
    playbackCopy img page
    playbackDecode C jrnlEnc img

/-- `nReserve` becomes byte 20 of page 1, as it is in the journal. -/
def playbackReserve : M κ Unit :=
  when (img.pgno = 1) do
    modify fun pg => { pg with nReserve := (img.data.getD 20 0).toNat }

/-- The part of `pager_playback_one_page` before the cached page is replaced, with `aData` as it is
then. -/
def playbackRecord (img : Image) :
    M κ (Bytes × Except ResultCode Unit) := do
  playbackReserve img
  playbackStore C cfg w isMainJrnl synced img

/-- `pager_playback_one_page`, for a record that is neither skipped nor damaged. -/
def pagerPlaybackOnePage (img : Image) : M κ Unit := do
  let (data, rc) ← playbackRecord C cfg w isMainJrnl synced img
  let pg ← get
  playbackCached C (isMainJrnl || !pg.subjInMemory) ⟨img.pgno, data⟩
  ofExcept rc

/-- The records from number `i` on, but pages behind the end of the database and those in `pDone`,
which is there with `once`. -/
def playbackRecords (isMainJrnl once : Bool) : Nat → List Nat → List Image → M κ (List Nat)
  | _, done, [] => return done
  | i, done, img :: imgs => do
    let pg ← get
    if pg.dbSize < img.pgno ∨ img.pgno ∈ done then
      playbackRecords isMainJrnl once (i + 1) done imgs
    else do
      pagerPlaybackOnePage C cfg w isMainJrnl (i < pg.journalHdr) img
      playbackRecords isMainJrnl once (i + 1) (if once then img.pgno :: done else done) imgs

def State.records : List Image := if pg.inJournal.isSome then pg.journal else []

variable (isHot : Bool)

/-- The records that `pager_playback` finds: of a hot journal only those that the headers count. -/
def State.foundRecords : List Image :=
  if isHot then pg.journal.take (pg.header.nRec.getD pg.journal.length) else pg.journal

def State.fileBytes : Bytes :=
  ((List.range' 1 (pg.fileLength / pg.pageSize + 1)).flatMap pg.database).take pg.fileLength

def pageOfFile (file : Bytes) (pageSize n : Nat) : Bytes :=
  let data := slice file ((n - 1) * pageSize) pageSize
  data ++ zeros (pageSize - data.length)

/-- `sqlite3PagerSetPagesize`, while no page is referenced. -/
def pagerSetPagesize (pageSize : Nat) : M κ Unit := do
  let pg ← get
  when (pageSize ≠ 0 ∧ pageSize ≠ pg.pageSize) do
    request w
    pagerReset
    modify fun pg => { pg with
      dbSize := if pg.eState = .open then 0 else (pg.fileLength + pageSize - 1) / pageSize
      pageSize := pageSize
      database := pageOfFile pg.fileBytes pageSize }

/-- What `pager_playback` does with a journal whose first header can be read. -/
def playbackJournal : M κ Unit := do
  let pg ← get
  pagerSetPagesize w pg.header.pageSize
  pagerTruncate w pg.header.dbSize
  modify fun s => { s with dbSize := pg.header.dbSize }
  when (isHot = true ∧ pg.foundRecords isHot ≠ []) pagerReset
  let _ ← playbackRecords C cfg w true false 0 [] (pg.foundRecords isHot)

/-- `pager_playback`. The magic of the header is looked at only if the journal may be hot. -/
def pagerPlayback : M κ Unit := do
  let pg ← get
  let rc ← attempt do
    request w
    when (isHot = false ∨ pg.header.magic = true) (playbackJournal C cfg w isHot)
    pagerSetPagesize w pg.pageSize
  modify fun pg => { pg with changeCountDone := false }
  ofExcept rc
  when (EState.rank .writerDbmod ≤ pg.eState.rank ∨ pg.eState = .open) (request w)
  pagerEndTransaction w false

/-- `pagerUndoCallback`: a page in use is read again. -/
def pagerUndoCallback : M κ Unit := do
  let o ← ask w
  let pg ← get
  match pg.cache pgno with
  | none => return ()
  | some page =>
    if o.found then do
      let data ← readDbPage C w pgno
      setPage pgno (some { page with data := data })
    else setPage pgno none

def pagerRollbackWal : M κ Unit := do
  let pg ← get
  modify fun pg => { pg with dbSize := pg.dbOrigSize, mxFrame := pg.liveFrame }
  let undone := (pg.frames.take pg.mxFrame).drop pg.liveFrame
  forEach (fun img => pagerUndoCallback C w img.pgno) undone
  let pg ← get
  forEach (pagerUndoCallback C w) (pg.dirtyList cfg)

/-- `pagerPlaybackSavepoint` for an open savepoint. -/
def pagerPlaybackSavepoint (p : Savepoint) : M κ Unit := do
  modify fun pg => { pg with dbSize := p.nOrig, changeCountDone := false }
  let pg ← get
  let done ← if pg.useWal then pure []
    else playbackRecords C cfg w true true p.iRec [] (pg.records.drop p.iRec)
  when (pg.useWal = true) do
    modify fun pg => { pg with mxFrame := min p.walData pg.mxFrame }
  let _ ← playbackRecords C cfg w false true 0 done (pg.subJournal.drop p.iSubRec)

/-- `pagerPlaybackSavepoint` for the whole transaction. -/
def pagerPlaybackAll : M κ Unit := do
  modify fun pg => { pg with dbSize := pg.dbOrigSize, changeCountDone := false }
  let pg ← get
  if pg.useWal then pagerRollbackWal C cfg w
  else do
    let _ ← playbackRecords C cfg w true false 0 [] pg.records

/-- `sqlite3PagerSavepoint` with `SAVEPOINT_RELEASE`. -/
def pagerReleaseSavepoint (iSavepoint : Nat) : M κ Unit := do
  let pg ← get
  check pg.errCode
  match pg.savepoints[iSavepoint]? with
  | none => return ()
  | some rel => do
    modify fun pg => { pg with savepoints := pg.savepoints.take iSavepoint }
    when (rel.truncateOnRelease ∧ pg.sjfd ≠ .closed) do
      modify fun pg => { pg with subJournal := pg.subJournal.take rel.iSubRec }

/-- `sqlite3PagerSavepoint` with `SAVEPOINT_ROLLBACK`; `none` stands for -1. -/
def pagerRollbackSavepoint (iSavepoint : Option Nat) : M κ Unit := do
  let pg ← get
  check pg.errCode
  let nNew := (iSavepoint.map (· + 1)).getD 0
  when (nNew ≤ pg.savepoints.length) do
    modify fun pg => { pg with savepoints := pg.savepoints.take nNew }
    when (pg.useWal = true ∨ pg.jfd ≠ .closed) do
      match iSavepoint.bind fun i => pg.savepoints[i]? with
      | some p => pagerPlaybackSavepoint C cfg w p
      | none => pagerPlaybackAll C cfg w

def pagerOpenSavepoint (nSavepoint : Nat) : M κ Unit :=
  modify fun pg =>
    let p : Savepoint :=
      { nOrig := pg.dbSize
        inSavepoint := []
        iRec := pg.records.length
        iSubRec := pg.subJournal.length
        truncateOnRelease := true
        walData := pg.mxFrame }
    { pg with
      savepoints := pg.savepoints ++ List.replicate (nSavepoint - pg.savepoints.length) p }

/-- `sqlite3PagerRollback`. Without a journal the cache can no longer be trusted. -/
def pagerRollback : M κ Unit := do
  let pg ← get
  if pg.eState = .error then fail pg.errCode
  else if pg.eState.rank ≤ EState.rank .reader then return ()
  else if pg.useWal then pagerError do
    let rc ← attempt (pagerRollbackSavepoint C cfg w none)
    let rc2 ← attempt (pagerEndTransaction w false)
    ofExcept rc
    ofExcept rc2
  else if pg.jfd = .closed ∨ pg.eState = .writerLocked then do
    let rc ← attempt (pagerEndTransaction w false)
    if EState.rank .writerLocked < pg.eState.rank then do
      modify fun pg => { pg with errCode := .abort, eState := .error }
      ofExcept rc
    else pagerError (ofExcept rc)
  else pagerError (pagerPlayback C cfg w false)

/-! ## Locks between transactions -/

def pagerUnlock : M κ Unit := do
  modify fun pg => { pg with inJournal := none }
  releaseAllSavepoints
  let pg ← get
  if pg.useWal then setState .open
  else when (pg.exclusiveMode = false) do
    when (cfg.undeletableWhenOpen = false ∨
        (pg.journalMode ≠ .truncate ∧ pg.journalMode ≠ .persist)) do
      modify closeJournal
    match ← attempt (pagerUnlockDb w .none) with
    | .ok () => return ()
    | .error _ => modify fun pg =>
      { pg with eLock := if pg.eState = .error then .unknown else pg.eLock }
    setState .open
  let pg ← get
  when (pg.errCode ≠ .ok) do
    pagerReset
    modify fun pg => { pg with changeCountDone := false, eState := .open, errCode := .ok }

/-- `pagerUnlockAndRollback`, when the last page is released. A journal in memory is played back
first. -/
def pagerUnlockAndRollback : M κ Unit := do
  let pg ← get
  if pg.eState ≠ .error ∧ pg.eState ≠ .open then do
    let _ ← attempt <|
      if EState.rank .writerLocked ≤ pg.eState.rank then pagerRollback C cfg w
      else when (pg.exclusiveMode = false) (pagerEndTransaction w false)
  else when (pg.eState = .error ∧ pg.journalMode = .memory ∧ pg.jfd ≠ .closed) do
    modify fun pg => { pg with eState := .open, errCode := .ok, eLock := .exclusive }
    let _ ← attempt (pagerPlayback C cfg w true)
    modify fun s => { s with errCode := pg.errCode, eLock := pg.eLock }
  pagerUnlock cfg w

/-- `sqlite3WalOpen`, through `sqlite3PagerOpenWal`. -/
def pagerOpenWal : M κ Unit := do
  modify closeJournal
  let pg ← get
  when (pg.exclusiveMode = true) (pagerLockDb w .exclusive)
  request w
  modify fun pg => { pg with useWal := true, journalMode := .wal, eState := .open }

/-- The hot journal, if there is one, is rolled back under an exclusive lock. -/
def recoverHotJournal : M κ Unit := do
  pagerLockDb w .exclusive
  let o ← ask w
  check o.rc
  modify fun pg => { pg with
    jfd := if pg.jfd = .closed ∧ pg.journalMode ≠ .off ∧ o.found then .file else pg.jfd }
  let pg ← get
  if pg.jfd ≠ .closed then do
    request w
    modify fun pg => { pg with journalHdr := pg.journal.length }
    pagerPlayback C cfg w true
    setState .open
  else when (pg.exclusiveMode = false) (pagerUnlockDb w .shared)

/-- `pagerBeginReadTransaction`: the header that the connections share is read anew. -/
def pagerBeginReadTransaction : M κ Unit := do
  let o ← ask w
  when (o.rc ≠ .ok ∨ o.found) pagerReset
  check o.rc
  modify fun pg => { pg with mxFrame := pg.liveFrame, minFrame := pg.nBackfill + 1 }

/-- The number of pages in the database file, as `pagerPagecount` counts them. -/
def State.pagecount : Nat := (pg.fileLength + pg.pageSize - 1) / pg.pageSize

/-- `sqlite3PagerSharedLock` up to the label `failed`. The cache is dropped if the bytes 24 to 39 of
the file have changed. -/
def sharedLock : M κ Unit := do
  let pg ← get
  when (pg.useWal = false ∧ pg.eState = .open) do
    pagerLockDb w .shared
    let o ← ask w
    check o.rc
    let pg ← get
    when (Lock.rank .shared < pg.eLock.rank ∨ o.found) (pagerError (recoverHotJournal C cfg w))
    let pg ← get
    when (pg.hasHeldSharedLock = true) do
      request w
      when (slice (pg.database 1) 24 16 ≠ pg.dbFileVers) pagerReset
    let o ← ask w
    check o.rc
    if o.found then pagerOpenWal w
    else modify fun pg =>
      { pg with journalMode := if pg.journalMode = .wal then .delete else pg.journalMode }
  let pg ← get
  when (pg.useWal = true) (pagerBeginReadTransaction w)
  let pg ← get
  when (pg.eState = .open) do
    request w
    modify fun pg => { pg with
      dbSize := if pg.useWal ∧ 0 < pg.nPage then pg.nPage else pg.pagecount }

def pagerSharedLock : M κ Unit := do
  match ← attempt (sharedLock C cfg w) with
  | .ok () => modify fun pg => { pg with eState := .reader, hasHeldSharedLock := true }
  | .error rc => do
    pagerUnlock cfg w
    fail rc

def pagerBegin (exFlag subjInMemory : Bool) : M κ Unit := do
  let pg ← get
  check pg.errCode
  modify fun pg => { pg with subjInMemory := subjInMemory }
  when (pg.eState = .reader) do
    if pg.useWal then do
      when (pg.exclusiveMode = true) (pagerLockDb w .exclusive)
      request w
    else do
      pagerLockDb w .reserved
      when (exFlag = true) (pagerLockDb w .exclusive)
    modify fun pg => { pg with
      eState := .writerLocked, dbFileSize := pg.dbSize, dbOrigSize := pg.dbSize }

/-! ## Modes and checkpoints -/

def deleteJournal : M κ Unit := do
  request w
  modify dropJournal

/-- The journal left by the old mode is deleted under a RESERVED lock; `pg` is the state in which
the mode was to be changed. -/
def removeJournal : M κ Unit :=
  if Lock.rank .reserved ≤ pg.eLock.rank then do
    let _ ← attempt (deleteJournal w)
  else do
    let _ ← attempt do
      when (pg.eState = .open) (pagerSharedLock C cfg w)
      pagerLockDb w .reserved
      let _ ← attempt (deleteJournal w)
      when (pg.eState = .reader) (pagerUnlockDb w .shared)
    when (pg.eState = .open) (pagerUnlock cfg w)

def pagerSetJournalMode (eMode : JournalMode) : M κ Unit := do
  let pg ← get
  when (eMode ≠ pg.journalMode) do
    modify fun pg => { pg with journalMode := eMode }
    if pg.exclusiveMode = false ∧ (pg.journalMode = .truncate ∨ pg.journalMode = .persist) ∧
        (eMode = .delete ∨ eMode = .off ∨ eMode = .memory) then do
      modify closeJournal
      removeJournal C cfg w pg
    else when (eMode = .off ∨ eMode = .memory) (modify closeJournal)

def backfillPage (nBackfill mxSafeFrame mxFrame pgno : Nat) : M κ Unit := do
  let pg ← get
  let iFrame := pg.findFrame pgno 1 mxFrame
  when (nBackfill < iFrame ∧ iFrame ≤ mxSafeFrame) do
    request w
    match pg.frames[iFrame - 1]? with
    | none => undefined
    | some img => writeDatabase w ⟨pgno, img.data⟩

/-- `sqlite3PagerCheckpoint`: frames up to `mxSafeFrame`, set by the readers, are copied into the
database; a log copied as a whole may be reset. -/
def pagerCheckpoint (reset : Bool) : M κ Unit := do
  let o ← ask w
  check o.rc
  let pg ← get
  let mxSafeFrame := min o.count pg.liveFrame
  when (pg.useWal = true ∧ pg.nBackfill < mxSafeFrame) do
    request w
    forEach (backfillPage w pg.nBackfill mxSafeFrame pg.liveFrame) (List.range' 1 pg.nPage)
    when (mxSafeFrame = pg.liveFrame) (truncateDatabase w pg.nPage)
    request w
    modify fun pg => { pg with nBackfill := mxSafeFrame }
  let pg ← get
  when (reset = true ∧ pg.useWal = true ∧ pg.nBackfill = pg.liveFrame) do
    request w
    modify fun pg => { pg with mxFrame := 0, liveFrame := 0, nBackfill := 0 }

def pagerCloseWal : M κ Unit := do
  pagerLockDb w .exclusive
  pagerCheckpoint w false
  modify fun pg => { pg with
    useWal := false, frames := [], mxFrame := 0, liveFrame := 0, nBackfill := 0 }

/-! ## Invariants -/

attribute [reducible] dropJournal cleanAll deleteJournal playbackCopy playbackDecode
  pagerBeginReadTransaction

variable {I : State κ → Prop} {C cfg w} [Kept I (ask w)]

instance [hdrop : Kept I (modify dropJournal : M κ Unit)]
    [hmem : Kept I (modify fun pg => { pg.dropJournal with jfd := .closed } : M κ Unit)]
    [Same I fun pg => I { pg with jfd := .closed }] : Kept I (finalizeJournal w) := by
  refine ⟨.bind .get fun pg => ?_⟩
  cases pg.jfd <;> exact Kept.keeps

instance {pgno : Nat} {data : Bytes} {rc : Except ResultCode Unit}
    [Kept I (xCodec C .read pgno data)] : Kept I (decodeRecord C pgno data rc) := by
  refine ⟨.bind Kept.keeps fun r => ?_⟩
  cases r <;> exact .pure _

instance {jrnlEnc : Bool} {img : Image} [∀ data, Kept I (xCodec C .read img.pgno data)]
    [∀ page, Kept I (setPage img.pgno page : M κ Unit)]
    [Same I fun pg => I { pg with dbFileVers := slice img.data 24 16 }] :
    Kept I (playbackCached C jrnlEnc img) := by
  refine ⟨.bind .get fun pg => ?_⟩
  cases pg.cache img.pgno <;> exact Kept.keeps

end SqlCipher.PageIo
