import SqlCipher.Pager.Pager

/-!
# The pager in all its modes

`pager.c` over the page images that it hands to files, for a pager with a codec: every journal mode
including the write-ahead log, both locking modes, savepoints and their sub-journal, cache spills,
rollbacks, hot journals and checkpoints. `State.writes` logs the images passed to `sqlite3OsWrite`
on a file, even if it fails; `State.encoded` is what a codec has returned for a page, here or in
another connection.

The codec is a callback with a state of its own, as `Pager.xCodec` is. A journal is the list of its
records, with what its headers say about them, and the log the list of its frames. Locks, failures,
the wishes of the cache and what other connections do are answers of the environment.

Not modelled: temporary and in-memory databases, memory-mapped files, the atomic-write options,
super-journals, what a backup does with its pages, and changes of the page size other than those of
`pager_playback`.
-/

namespace SqlCipher.PageIo

open Proc Buffer Function

/-! ## Files -/

inductive JournalMode where
  | delete | persist | off | truncate | memory | wal
  deriving DecidableEq, Repr

inductive File where
  | database | journal | wal | subJournal
  deriving DecidableEq, Repr

/-- A journal as `sqlite3JournalOpen` leaves it: a file, or in memory until it exceeds `nSpill`
bytes. -/
inductive Handle where
  | closed
  | memory (nSpill : Option Nat)
  | file
  deriving DecidableEq, Repr

structure Image where
  pgno : Nat
  data : Bytes
  deriving DecidableEq, Repr

/-- What `sqlite3OsWrite` is given: an image, or the zeros by which `pager_truncate` lengthens the
file. -/
inductive Write where
  | image (file : File) (img : Image)
  | zeros (pgno : Nat)
  deriving DecidableEq, Repr

/-! ## The state of a pager -/

inductive EState where
  | «open» | reader | writerLocked | writerCachemod | writerDbmod | writerFinished | error
  deriving DecidableEq, Repr

def EState.rank : EState → Nat
  | .open => 0
  | .reader => 1
  | .writerLocked => 2
  | .writerCachemod => 3
  | .writerDbmod => 4
  | .writerFinished => 5
  | .error => 6

inductive Lock where
  | none | shared | reserved | exclusive | unknown
  deriving DecidableEq, Repr

def Lock.rank : Lock → Nat
  | .none => 0
  | .shared => 1
  | .reserved => 2
  | .exclusive => 4
  | .unknown => 5

structure Cached where
  data : Bytes
  dirty : Bool
  writeable : Bool
  needSync : Bool
  dontWrite : Bool
  deriving DecidableEq, Repr

def Cached.makeDirty (page : Cached) : Cached := { page with dirty := true, dontWrite := false }

def Cached.makeClean (page : Cached) : Cached :=
  { page with dirty := false, writeable := false, needSync := false }

/-- A `PagerSavepoint`. The positions in the journal and in the log are counted in records and
frames. -/
structure Savepoint where
  nOrig : Nat
  inSavepoint : List Nat
  iRec : Nat
  iSubRec : Nat
  truncateOnRelease : Bool
  walData : Nat
  deriving DecidableEq, Repr

structure JournalHeader where
  /-- The first header begins with `aJournalMagic`. -/
  magic : Bool
  /-- The number of records that the headers count, or `none` for `0xffffffff`. -/
  nRec : Option Nat
  dbSize : Nat
  pageSize : Nat
  deriving DecidableEq, Repr

structure Config where
  /-- `sqlite3Config.nStmtSpill` -/
  nStmtSpill : Int
  /-- The number of pages in a sector, at least one. -/
  pagesPerSector : Nat
  /-- `PAGER_SJ_PGNO` -/
  sjPgno : Nat
  /-- The limit for page numbers, not below the size of the database. -/
  mxPgno : Nat
  noSync : Bool
  /-- `SQLITE_IOCAP_SAFE_APPEND` -/
  safeAppend : Bool
  /-- `SQLITE_IOCAP_UNDELETABLE_WHEN_OPEN` -/
  undeletableWhenOpen : Bool

structure State (κ : Type) where
  codec : κ
  journalMode : JournalMode
  exclusiveMode : Bool
  subjInMemory : Bool
  eState : EState
  eLock : Lock
  errCode : ResultCode
  pageSize : Nat
  nReserve : Nat
  backup : Bool
  hasHeldSharedLock : Bool
  dbSize : Nat
  dbOrigSize : Nat
  dbFileSize : Nat
  dbFileVers : Bytes
  changeCountDone : Bool
  /-- `SPILLFLAG_ROLLBACK` and `SPILLFLAG_NOSYNC` of `doNotSpill` -/
  spillRollback : Bool
  spillNosync : Bool
  cache : Nat → Option Cached
  /-- The pages of the database file, with zeros behind its end, and its length in bytes. -/
  database : Nat → Bytes
  fileLength : Nat
  jfd : Handle
  /-- The journal, open or left on disk. -/
  header : JournalHeader
  journal : List Image
  journalHdr : Nat
  inJournal : Option (List Nat)
  sjfd : Handle
  /-- The first `nSubRec` records of the sub-journal. -/
  subJournal : List Image
  savepoints : List Savepoint
  /-- `pWal` is set. -/
  useWal : Bool
  frames : List Image
  /-- `mxFrame` of the header the connection holds, and of the one it shares with others. -/
  mxFrame : Nat
  liveFrame : Nat
  nPage : Nat
  minFrame : Nat
  nBackfill : Nat
  writes : List Write
  encoded : List Image
  clock : Nat

structure Answer where
  rc : ResultCode
  /-- What a probe finds: a file that exists, a header that is not zero, a page in use. -/
  found : Bool
  count : Nat
  spill : Option Nat
  junk : Nat → UInt8

/-- `Pager.xCodec`: the buffer it returns, if any, and the state of the codec afterwards. -/
abbrev XCodec (κ : Type) := CodecOp → Nat → Bytes → κ → Option Bytes × κ

variable {κ : Type} (C : XCodec κ) (cfg : Config) (w : Nat → Answer)

abbrev M (κ : Type) := Proc (State κ) ResultCode

/-! ## Requests -/

def ask : M κ Answer := fun pg => some (.ok (w pg.clock), { pg with clock := pg.clock + 1 })

def check (rc : ResultCode) : M κ Unit := if rc = .ok then pure () else fail rc

/-- A lock or file operation, of which only success or failure matters. -/
def request : M κ Unit := do
  let o ← ask w
  check o.rc

def osWrite (x : Write) : M κ Unit := do
  modify fun pg => { pg with writes := pg.writes ++ [x] }
  request w

def xCodec (op : CodecOp) (pgno : Nat) (data : Bytes) : M κ (Option Bytes) := fun pg =>
  let r := C op pgno data pg.codec
  let outputs := if op = .read then [] else r.1.toList.map (Image.mk pgno)
  some (.ok r.1, { pg with codec := r.2, encoded := pg.encoded ++ outputs })

/-- The macro `CODEC1`, which decodes a page in place. -/
def codec1 (pgno : Nat) (data : Bytes) : M κ Bytes := do
  match ← xCodec C .read pgno data with
  | none => fail .nomem
  | some out => return overwrite data 0 out

/-- What the pager reads from the buffer of a codec: a page, with other memory behind the end of a
shorter buffer. -/
def pageOf (pageSize : Nat) (junk : Nat → UInt8) (out : Bytes) : Bytes :=
  out.take pageSize ++ stream junk (pageSize - out.length)

/-- The macro `CODEC2`, for a page that is to be written. -/
def codec2 (op : CodecOp) (pgno : Nat) (data : Bytes) : M κ Bytes := do
  match ← xCodec C op pgno data with
  | none => fail .nomem
  | some out => do
    let pg ← get
    return pageOf pg.pageSize (w pg.clock).junk out

variable (pgno : Nat)

def setPage (page : Option Cached) : M κ Unit :=
  modify fun pg => { pg with cache := update pg.cache pgno page }

def mapCache (f : Cached → Cached) : M κ Unit :=
  modify fun pg => { pg with cache := fun n => (pg.cache n).map f }

def setState (eState : EState) : M κ Unit := modify fun pg => { pg with eState := eState }

def lookup : M κ Cached := do
  let pg ← get
  match pg.cache pgno with
  | none => undefined
  | some page => return page

def pagerError (x : M κ Unit) : M κ Unit := do
  match ← attempt x with
  | .ok () => return ()
  | .error rc => do
    when (rc = .full ∨ rc = .ioerr) do
      modify fun pg => { pg with errCode := rc, eState := .error }
    fail rc

def pagerReset : M κ Unit := modify fun pg => { pg with cache := fun _ => none }

def pagerLockDb (eLock : Lock) : M κ Unit := do
  let pg ← get
  when (pg.eLock.rank < eLock.rank ∨ pg.eLock = .unknown) do
    request w
    modify fun pg =>
      { pg with eLock := if pg.eLock ≠ .unknown ∨ eLock = .exclusive then eLock else pg.eLock }

def pagerUnlockDb (eLock : Lock) : M κ Unit := do
  modify fun pg =>
    { pg with eLock := if pg.eLock = .unknown then .unknown else eLock, changeCountDone := false }
  request w

/-! ## The sub-journal -/

/-- A write to the file of the sub-journal: part of a record, with the image that it holds. -/
def subJournalFileWrite : Option Image → M κ Unit
  | none => request w
  | some img => osWrite w (.image .subJournal img)

/-- `memjrnlCreateFile` for the sub-journal. Its memory holds the first `nSubRec` records: a release
that lowers `nSubRec` cuts off the rest. -/
def subJournalCreateFile : M κ Unit := do
  request w
  modify fun pg => { pg with writes := pg.writes ++ pg.subJournal.map (.image .subJournal) }
  request w
  modify fun pg => { pg with sjfd := .file }

/-- A write of `iAmt` bytes at `iOfst` into the sub-journal, which may turn from memory into a file
(`memjrnlWrite`). -/
def subJournalWrite (iOfst iAmt : Nat) (img : Option Image) : M κ Unit := do
  let pg ← get
  match pg.sjfd with
  | .closed => undefined
  | .file => subJournalFileWrite w img
  | .memory nSpill =>
    if ∃ n ∈ nSpill, n < iOfst + iAmt then do
      subJournalCreateFile w
      subJournalFileWrite w img
    else request w

def openSubJournal : M κ Unit := do
  let pg ← get
  when (pg.sjfd = .closed) do
    let nStmtSpill :=
      if pg.journalMode = .memory ∨ pg.subjInMemory then -1 else cfg.nStmtSpill
    if nStmtSpill = 0 then do
      request w
      modify fun pg => { pg with sjfd := .file }
    else
      modify fun pg => { pg with
        sjfd := .memory (if 0 < nStmtSpill then some nStmtSpill.toNat else none) }

def addToSavepointBitvecs : M κ Unit :=
  modify fun pg => { pg with
    savepoints := pg.savepoints.map fun p =>
      if pgno ≤ p.nOrig then { p with inSavepoint := pgno :: p.inSavepoint } else p }

def subjournalImage (data : Bytes) : M κ Bytes := do
  let pg ← get
  if pg.subjInMemory then return data else codec2 C w .journal pgno data

def subjournalPage (page : Cached) : M κ Unit := do
  let pg ← get
  when (pg.journalMode ≠ .off) do
    openSubJournal cfg w
    let offset := pg.subJournal.length * (4 + pg.pageSize)
    let data ← subjournalImage C w pgno page.data
    subJournalWrite w offset 4 none
    subJournalWrite w (offset + 4) pg.pageSize (some ⟨pgno, data⟩)
    modify fun pg => { pg with subJournal := pg.subJournal ++ [⟨pgno, data⟩] }
  addToSavepointBitvecs pgno

/-- `subjRequiresPage`: the savepoints after the first that lacks the page cannot be cut off. -/
def requiresPage (pgno : Nat) : List Savepoint → Option (List Savepoint)
  | [] => none
  | p :: ps =>
    if pgno ≤ p.nOrig ∧ pgno ∉ p.inSavepoint then
      some (p :: ps.map fun q => { q with truncateOnRelease := false })
    else (requiresPage pgno ps).map (p :: ·)

def subjournalPageIfRequired (page : Cached) : M κ Unit := do
  let pg ← get
  match requiresPage pgno pg.savepoints with
  | none => return ()
  | some ps => do
    modify fun pg => { pg with savepoints := ps }
    subjournalPage C cfg w pgno page

def releaseAllSavepoints : M κ Unit :=
  modify fun pg => { pg with
    sjfd := if pg.exclusiveMode ∧ pg.sjfd = .file then .file else .closed
    savepoints := []
    subJournal := [] }

/-! ## The log -/

variable (pg : State κ)

/-- `walFindFrame`: the last frame of the page from `minFrame` to `mxFrame`, or 0. -/
def State.findFrame (pgno minFrame mxFrame : Nat) : Nat :=
  ((List.range' minFrame (mxFrame + 1 - minFrame)).filter fun i =>
    0 < i ∧ (pg.frames[i - 1]?.map Image.pgno) = some pgno).getLast?.getD 0

def State.imageAt (pgno iFrame : Nat) : Bytes :=
  if iFrame = 0 then pg.database pgno else (pg.frames[iFrame - 1]?.map Image.data).getD []

def State.stored (pgno : Nat) : Bytes :=
  pg.imageAt pgno (if pg.useWal then pg.findFrame pgno pg.minFrame pg.mxFrame else 0)

/-- The content of a page for `pager_write_pagelist` and `pagerWalFrames`; page 1 has the change
counter. -/
def changeCounted (page : Cached) : M κ Cached := do
  let pg ← get
  let page :=
    if pgno = 1 then { page with data := writeChangecounter pg.dbFileVers page.data } else page
  setPage pgno (some page)
  return page

/-- `walWriteOneFrame`, and the write of a frame in place, which leaves its header. -/
def walWriteFrame (inPlace : Bool) (iFrame pgno : Nat) (page : Cached) : M κ Unit := do
  let data ← codec2 C w .write pgno page.data
  when (inPlace = false) (request w)
  osWrite w (.image .wal ⟨pgno, data⟩)
  modify fun pg => { pg with
    frames := pg.frames.take (iFrame - 1) ++ ⟨pgno, data⟩ :: pg.frames.drop iFrame }

/-- One page of `walFrames`: a page already written by the transaction is overwritten, but a commit
ends with a new frame. -/
def walFrame (iFirst : Nat) (isCommit : Bool) (iFrame pgno : Nat) (last : Bool) : M κ Nat := do
  let pg ← get
  let page ← lookup pgno
  let iWrite := pg.findFrame pgno pg.minFrame pg.mxFrame
  if iFirst ≠ 0 ∧ (¬ last ∨ ¬ isCommit) ∧ iFirst ≤ iWrite then do
    walWriteFrame C w true iWrite pgno page
    return iFrame
  else do
    walWriteFrame C w false (iFrame + 1) pgno page
    return iFrame + 1

/-- The pages of `walFrames`, and the copies of the last one that fill up the sector. -/
def walFrameList (iFirst : Nat) (isCommit : Bool) : Nat → List Nat → M κ Nat
  | iFrame, [] => return iFrame
  | iFrame, pgno :: pgnos => do
    let iFrame ← walFrame C w iFirst isCommit iFrame pgno pgnos.isEmpty
    walFrameList iFirst isCommit iFrame pgnos

def walPad (pgno : Nat) : Nat → Nat → M κ Nat
  | 0, iFrame => return iFrame
  | n + 1, iFrame => do
    let page ← lookup pgno
    walWriteFrame C w false (iFrame + 1) pgno page
    walPad pgno n (iFrame + 1)

/-- `walRestartLog`: a log that is completely in the database may be started again. -/
def walRestartLog : M κ Unit := do
  let o ← ask w
  let pg ← get
  when (o.found ∧ pg.nBackfill = pg.mxFrame ∧ 0 < pg.nBackfill) do
    modify fun pg => { pg with mxFrame := 0, liveFrame := 0, nBackfill := 0, minFrame := 1 }
  check o.rc

variable (pgnos : List Nat)

def walFrames (nTruncate : Nat) (isCommit : Bool) : M κ Unit := do
  let pg ← get
  let iFirst := if pg.mxFrame ≠ pg.liveFrame then pg.liveFrame + 1 else 0
  walRestartLog w
  request w
  let pg ← get
  let iFrame ← walFrameList C w iFirst isCommit pg.mxFrame pgnos
  let o ← ask w
  let iFrame ← if isCommit then walPad C w (pgnos.getLast?.getD 0) o.count iFrame else pure iFrame
  check o.rc
  modify fun pg => { pg with mxFrame := iFrame }
  when (isCommit = true) do
    modify fun pg => { pg with liveFrame := iFrame, nPage := nTruncate }

/-- `pagerWalFrames`: a commit leaves out the pages behind the end of the database. -/
def pagerWalFrames (nTruncate : Nat) (isCommit : Bool) : M κ Unit := do
  let pgnos := if isCommit then pgnos.filter (· ≤ nTruncate) else pgnos
  when (pgnos.head? = some 1) do
    let page ← lookup 1
    let _ ← changeCounted 1 page
  walFrames C w pgnos nTruncate isCommit

/-! ## Writing pages to the database file -/

variable (img : Image)

def writeDatabase : M κ Unit := do
  osWrite w (.image .database img)
  modify fun pg => { pg with
    database := update pg.database img.pgno img.data
    fileLength := max pg.fileLength (img.pgno * pg.pageSize) }

/-- The bytes 24 to 39 of page 1 and the size of the file, as the pager knows them. -/
def noteWrite : M κ Unit :=
  modify fun pg => { pg with
    dbFileVers := if img.pgno = 1 then slice img.data 24 16 else pg.dbFileVers
    dbFileSize := max pg.dbFileSize img.pgno }

def writePage : M κ Unit := do
  let page ← lookup pgno
  let pg ← get
  when (pgno ≤ pg.dbSize ∧ page.dontWrite = false) do
    let page ← changeCounted pgno page
    let data ← codec2 C w .write pgno page.data
    noteWrite ⟨pgno, data⟩
    writeDatabase w ⟨pgno, data⟩

def pagerWritePagelist : M κ Unit := forEach (writePage C w) pgnos

variable (nPage : Nat)

def truncateDatabase : M κ Unit := do
  request w
  modify fun pg => { pg with
    database := fun n => if n ≤ nPage then pg.database n else zeros pg.pageSize
    fileLength := nPage * pg.pageSize }

/-- The last page of a longer database file is written. -/
def extendDatabase : M κ Unit := do
  osWrite w (.zeros nPage)
  modify fun pg => { pg with
    database := update pg.database nPage (zeros pg.pageSize)
    fileLength := nPage * pg.pageSize }

def pagerTruncate : M κ Unit := do
  let pg ← get
  when (EState.rank .writerDbmod ≤ pg.eState.rank ∨ pg.eState = .open) do
    request w
    when (pg.fileLength ≠ nPage * pg.pageSize) do
      when (nPage * pg.pageSize < pg.fileLength) (truncateDatabase w nPage)
      when (pg.fileLength + pg.pageSize ≤ nPage * pg.pageSize) (extendDatabase w nPage)
      modify fun pg => { pg with dbFileSize := nPage }

def pagerExclusiveLock : M κ Unit := do
  let pg ← get
  check pg.errCode
  when (pg.useWal = false) (pagerLockDb w .exclusive)

/-- `syncJournal`: without syncing the last header stays. A header that counts its records is
written again. -/
def syncJournal : M κ Unit := do
  pagerExclusiveLock w
  when (cfg.noSync = false) do
    request w
    modify fun pg => { pg with
      header := { pg.header with
        magic := true, nRec := pg.header.nRec.map fun _ => pg.journal.length }
      journalHdr := pg.journal.length }
    request w
  mapCache fun page => { page with needSync := false }
  setState .writerDbmod

def pagerStress : M κ Unit := do
  let pg ← get
  match pg.cache pgno with
  | none => return ()
  | some page =>
    if pg.errCode ≠ .ok ∨ page.dirty = false ∨ pg.spillRollback = true ∨
        (pg.spillNosync = true ∧ page.needSync = true) then return ()
    else pagerError do
      if pg.useWal then do
        subjournalPageIfRequired C cfg w pgno page
        pagerWalFrames C w [pgno] 0 false
      else do
        when (page.needSync ∨ pg.eState = .writerCachemod) (syncJournal cfg w)
        pagerWritePagelist C w [pgno]
      let page ← lookup pgno
      setPage pgno (some page.makeClean)

/-! ## Fetching pages -/

/-- `readDbPage`. The codec is called even when the read has failed. -/
def readDbPage : M κ Bytes := do
  let o ← ask w
  let pg ← get
  let raw := if o.rc = .ok then pg.stored pgno else stream o.junk pg.pageSize
  when (pgno = 1) do
    modify fun pg => { pg with
      dbFileVers := if o.rc = .ok then slice raw 24 16 else List.replicate 16 0xff }
  let data ← codec1 C pgno raw
  check o.rc
  return data

def makeRoom : M κ Unit := do
  let o ← ask w
  match o.spill with
  | none => return ()
  | some victim => do
    match ← attempt (pagerStress C cfg w victim) with
    | .ok () => return ()
    | .error rc => check (if rc = .busy then .ok else rc)

/-- A page that is fetched without its content needs no record in the journals. -/
def skipRecords : M κ Unit := do
  modify fun pg => { pg with
    inJournal := if pgno ≤ pg.dbOrigSize then pg.inJournal.map (pgno :: ·) else pg.inJournal }
  addToSavepointBitvecs pgno

/-- A page outside the cache, or whose content is not wanted, asked for in the state `pg`. -/
def fetchPage (pgno : Nat) (noContent : Bool) : M κ Unit := do
  when ((pg.cache pgno).isSome = false) (makeRoom C cfg w)
  check (if pgno = cfg.sjPgno then .corrupt else .ok)
  check (if (pg.dbSize < pgno ∨ noContent) ∧ cfg.mxPgno < pgno then .full else .ok)
  when (noContent = true) (skipRecords pgno)
  let data ← if pg.dbSize < pgno ∨ noContent then pure (zeros pg.pageSize)
    else readDbPage C w pgno
  let flags := (pg.cache pgno).getD ⟨[], false, false, false, false⟩
  setPage pgno (some { flags with data := data })

/-- `getPageNormal` and `getPageError`. -/
def pagerGet (noContent : Bool) : M κ Unit := do
  let pg ← get
  check pg.errCode
  check (if pgno = 0 then .corrupt else .ok)
  if (pg.cache pgno).isSome ∧ ¬ noContent then return () else fetchPage C cfg w pg pgno noContent

/-! ## Changing pages -/

/-- The bytes of the journal's file, or memory, that a record is written to. -/
def journalWrite : M κ Unit := do
  let pg ← get
  if pg.jfd = .file then osWrite w (.image .journal img) else request w

/-- `writeJournalHdr` at the start of the journal. A header that counts no records is complete. -/
def State.newHeader : JournalHeader :=
  let all := cfg.noSync || pg.journalMode == .memory || cfg.safeAppend
  { magic := all
    nRec := if all then none else some 0
    dbSize := pg.dbOrigSize
    pageSize := pg.pageSize }

def pagerOpenJournal : M κ Unit := do
  let pg ← get
  when (pg.useWal = false ∧ pg.journalMode ≠ .off) do
    when (pg.jfd = .closed) do
      when (pg.journalMode ≠ .memory) (request w)
      modify fun pg => { pg with
        jfd := if pg.journalMode = .memory then .memory none else .file }
    modify fun pg => { pg with journal := [], header := pg.newHeader cfg, journalHdr := 0 }
    request w
    modify fun pg => { pg with inJournal := some [] }
  setState .writerCachemod

def pagerAddPageToRollbackJournal (page : Cached) : M κ Unit := do
  let data ← codec2 C w .journal pgno page.data
  setPage pgno (some { page with needSync := true })
  request w
  journalWrite w ⟨pgno, data⟩
  request w
  modify fun pg => { pg with
    journal := pg.journal ++ [⟨pgno, data⟩], inJournal := pg.inJournal.map (pgno :: ·) }
  addToSavepointBitvecs pgno

/-- The part of `pager_write` that journals the page. -/
def journalPage (page : Cached) : M κ Unit := do
  let pg ← get
  match pg.inJournal with
  | none => return ()
  | some inJournal =>
    if pgno ∈ inJournal then return ()
    else if pgno ≤ pg.dbOrigSize then pagerAddPageToRollbackJournal C w pgno page
    else when (pg.eState ≠ .writerDbmod) (setPage pgno (some { page with needSync := true }))

/-- The part of `pager_write` after the journal has been opened. -/
def pagerWriteRest : M κ Unit := do
  let page ← lookup pgno
  setPage pgno (some page.makeDirty)
  journalPage C w pgno page.makeDirty
  let page ← lookup pgno
  setPage pgno (some { page with writeable := true })
  let rc ← attempt (subjournalPageIfRequired C cfg w pgno { page with writeable := true })
  modify fun pg => { pg with dbSize := max pg.dbSize pgno }
  ofExcept rc

def pagerWriteOne : M κ Unit := do
  let pg ← get
  when (pg.eState = .writerLocked) (pagerOpenJournal cfg w)
  pagerWriteRest C cfg w pgno

/-- One page of the sector in `pagerWriteLargeSector`. -/
def writeSectorPage (pg : Nat) : M κ Unit := do
  let s ← get
  when ((pg = pgno ∨ pg ∉ s.inJournal.getD []) ∧ pg ≠ cfg.sjPgno) do
    pagerGet C cfg w pg false
    pagerWriteOne C cfg w pg

/-- `pagerWriteLargeSector`: the pages of a sector are journalled together, and all need a sync if
one does. -/
def pagerWriteLargeSector : M κ Unit := do
  let pg ← get
  modify fun pg => { pg with spillNosync := true }
  let pg1 := (pgno - 1) / cfg.pagesPerSector * cfg.pagesPerSector + 1
  let nPage :=
    if pg.dbSize < pgno then pgno - pg1 + 1
    else if pg.dbSize < pg1 + cfg.pagesPerSector - 1 then pg.dbSize + 1 - pg1
    else cfg.pagesPerSector
  let rc ← attempt (forEach (writeSectorPage C cfg w pgno) (List.range' pg1 nPage))
  modify fun pg => { pg with
    spillNosync := false
    cache := fun n => (pg.cache n).map fun page =>
      if pg1 ≤ n ∧ n < pg1 + nPage ∧ (List.range' pg1 nPage).any fun k =>
          (pg.cache k).any Cached.needSync then { page with needSync := true } else page }
  ofExcept rc

def pagerWrite : M κ Unit := do
  let page ← lookup pgno
  let pg ← get
  if page.writeable ∧ pgno ≤ pg.dbSize then subjournalPageIfRequired C cfg w pgno page
  else do
    check pg.errCode
    if 1 < cfg.pagesPerSector then pagerWriteLargeSector C cfg w pgno
    else pagerWriteOne C cfg w pgno

def pagerDontWrite : M κ Unit := do
  let page ← lookup pgno
  let pg ← get
  when (page.dirty ∧ pg.savepoints = []) do
    setPage pgno (some { page with dontWrite := true, writeable := false })

def pagerMovepage (target : Nat) (isCommit : Bool) : M κ Unit := do
  let page ← lookup pgno
  when (page.dirty = true) (subjournalPageIfRequired C cfg w pgno page)
  let page ← lookup pgno
  let pg ← get
  let needSync := (pg.cache target).any Cached.needSync
  setPage pgno none
  setPage target (some { page.makeDirty with needSync := needSync })
  when (page.needSync = true ∧ isCommit = false) do
    match ← attempt (pagerGet C cfg w pgno false) with
    | .error rc => do
      modify fun pg => { pg with
        inJournal :=
          if pgno ≤ pg.dbOrigSize then pg.inJournal.map (·.filter (· ≠ pgno)) else pg.inJournal }
      fail rc
    | .ok () => do
      let page ← lookup pgno
      setPage pgno (some { page.makeDirty with needSync := true })

/-! ## Invariants -/

attribute [reducible] check request setPage mapCache setState pagerReset pagerLockDb pagerUnlockDb
  addToSavepointBitvecs changeCounted walRestartLog noteWrite truncateDatabase

variable {I : State κ → Prop} {C cfg w}

instance [h : Same I fun pg => I { pg with clock := pg.clock + 1 }] : Kept I (ask w) := ⟨h.imp⟩

instance [Kept I (ask w)] {x : Write} [Same I fun pg => I { pg with writes := pg.writes ++ [x] }] :
    Kept I (osWrite w x) := by
  unfold osWrite
  infer_instance

instance {op : CodecOp} {pgno : Nat} {data : Bytes} [h : Same I fun pg => I { pg with
      codec := (C op pgno data pg.codec).2
      encoded := pg.encoded ++
        if op = .read then [] else (C op pgno data pg.codec).1.toList.map (Image.mk pgno) }] :
    Kept I (xCodec C op pgno data) := ⟨h.imp⟩

instance {pgno : Nat} {data : Bytes} [h : Kept I (xCodec C .read pgno data)] :
    Kept I (codec1 C pgno data) := by
  refine ⟨.bind h.keeps fun r => ?_⟩
  cases r with
  | none => exact .fail fun _ => id
  | some out => exact .pure _

instance {op : CodecOp} {pgno : Nat} {data : Bytes} [h : Kept I (xCodec C op pgno data)] :
    Kept I (codec2 C w op pgno data) := by
  refine ⟨.bind h.keeps fun r => ?_⟩
  cases r with
  | none => exact .fail fun _ => id
  | some out => exact .bind .get fun _ => .pure _

instance {pgno : Nat} : Kept I (lookup pgno : M κ Cached) := by
  refine ⟨.bind .get fun pg => ?_⟩
  cases pg.cache pgno with
  | none => exact .undefined
  | some page => exact .pure page

instance {x : M κ Unit} [hx : Kept I x] [h : ∀ rc, Kept I (when (rc = .full ∨ rc = .ioerr)
      (modify fun pg => { pg with errCode := rc, eState := .error }) : M κ Unit)] :
    Kept I (pagerError x) := by
  refine ⟨.bind (.attempt hx.keeps) fun r => ?_⟩
  cases r with
  | ok u => exact .pure ()
  | error rc => exact .bind (h rc).keeps fun _ => .fail fun _ => id

section

variable [h : ∀ inPlace iFrame pgno page, Kept I (walWriteFrame C w inPlace iFrame pgno page)]

instance {iFirst iFrame : Nat} {isCommit : Bool} {pgnos : List Nat} :
    Kept I (walFrameList C w iFirst isCommit iFrame pgnos) := by
  induction pgnos generalizing iFrame with
  | nil => exact ⟨.pure iFrame⟩
  | cons pgno pgnos ih =>
    unfold walFrameList walFrame
    infer_instance

instance {pgno n iFrame : Nat} : Kept I (walPad C w pgno n iFrame) := by
  induction n generalizing iFrame with
  | zero => exact ⟨.pure iFrame⟩
  | succ n ih =>
    unfold walPad
    infer_instance

end

instance [Kept I (ask w)] [h : ∀ pgno, Kept I (pagerStress C cfg w pgno)] :
    Kept I (makeRoom C cfg w) := by
  refine ⟨.bind Kept.keeps fun o => ?_⟩
  cases o.spill with
  | none => exact .pure ()
  | some victim =>
    refine .bind (.attempt (h victim).keeps) fun r => ?_
    cases r with
    | ok u => exact .pure ()
    | error rc => exact Kept.keeps

instance {pgno : Nat} {page : Cached} [h : Kept I (pagerAddPageToRollbackJournal C w pgno page)]
    [hset : ∀ page, Kept I (setPage pgno page : M κ Unit)] : Kept I
      (journalPage C w pgno page) := by
  refine ⟨.bind .get fun pg => ?_⟩
  cases pg.inJournal with
  | none => exact .pure ()
  | some inJournal => exact .ite (.pure ()) (.ite h.keeps (.when (hset _).keeps))

end SqlCipher.PageIo
