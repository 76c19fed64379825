import SqlCipher.Codec.Unlocked
import SqlCipher.Library.Proc
import SqlCipher.Library.UndoJournal

/-!
# The pager

The part of `pager.c` that a write transaction with a rollback journal goes through: fetching pages,
journalling a page before it is changed, writing dirty pages back (at commit, or when the cache
needs room), committing and rolling back. Pages pass through the codec: `CODEC_READ_OP` when they
are read, `CODEC_JOURNAL_OP` into the journal and `CODEC_WRITE_OP` into the database.

Every request to the outside world (a lock, a file operation, a call into the codec) takes the next
answer of a `World`. What is asked of the two files is also logged, and a crash cuts that log short.

Not modelled: write-ahead logging, savepoints, super-journals, memory-mapped files, sectors larger
than a page, journals in memory, and what other connections do to the file. Pages have the page size
of the codec.
-/

namespace SqlCipher

open Proc Buffer UndoJournal

structure Outcome where
  env : Env
  rc : ResultCode
  junk : Nat → UInt8
  spill : Option Nat

abbrev World := Nat → Outcome

inductive PagerState where
  | reader | writerLocked | writerCachemod | writerDbmod | writerFinished | error
  deriving DecidableEq, Repr

structure CachedPage where
  data : Bytes
  dirty : Bool
  writeable : Bool
  needSync : Bool
  deriving DecidableEq, Repr

structure Pager where
  codec : CodecCtx
  disk : Disk Nat Bytes
  log : List (Event Nat Bytes)
  cache : Nat → Option CachedPage
  state : PagerState
  errCode : ResultCode
  dbSize : Nat
  dbOrigSize : Nat
  dbFileVers : Bytes
  changeCountDone : Bool
  clock : Nat

abbrev PagerM := Proc Pager ResultCode

variable (p : Provider) (g : Globals) (w : World)

def ask : PagerM Outcome := fun pg =>
  some (.ok (w pg.clock), { pg with clock := pg.clock + 1 })

def require (c : Bool) (rc : ResultCode) : PagerM Unit :=
  if c then pure () else fail rc

/-- A lock or file operation, of which only success or failure matters. -/
def request : PagerM Unit := do
  let o ← ask w
  require (o.rc == .ok) o.rc

def emit (ev : Event Nat Bytes) : PagerM Unit := fun pg =>
  (pg.disk.step ev).map fun d => (.ok (), { pg with disk := d, log := pg.log ++ [ev] })

def xCodec (data : Bytes) (pgno : Nat) (mode : CodecOp) : PagerM (Option Bytes) := do
  let o ← ask w
  let pg ← get
  if data.length ≠ pg.codec.pageSz then undefined
  else
    match sqlite3Codec p g (o.env.onFile (pg.disk.file 1)) pg.codec data (UInt32.ofNat pgno)
        mode with
    | none => undefined
    | some r => do
      modify fun pg => { pg with codec := r.ctx }
      return r.out

/-- The macros `CODEC1` and `CODEC2`: without a buffer the pager is out of memory. -/
def codecOrNomem (data : Bytes) (pgno : Nat) (mode : CodecOp) : PagerM Bytes := do
  match ← xCodec p g w data pgno mode with
  | none => fail .nomem
  | some out => return out

variable (pgno : Nat)

def setPage (page : Option CachedPage) : PagerM Unit :=
  modify fun pg => { pg with cache := Function.update pg.cache pgno page }

def mapCache (f : CachedPage → CachedPage) : PagerM Unit :=
  modify fun pg => { pg with cache := fun n => (pg.cache n).map f }

def setState (state : PagerState) : PagerM Unit :=
  modify fun pg => { pg with state := state }

def lookup : PagerM CachedPage := do
  let pg ← get
  match pg.cache pgno with
  | none => undefined
  | some page => return page

/-- `pager_error`: full disks and I/O errors are persistent. -/
def pagerError (x : PagerM Unit) : PagerM Unit := do
  match ← attempt x with
  | .ok () => return ()
  | .error rc => do
    modify fun pg =>
      if rc = .full ∨ rc = .ioerr then { pg with errCode := rc, state := .error } else pg
    fail rc

def sqliteVersionNumber : UInt32 := 3054001

def get4byte (bs : Bytes) : UInt32 :=
  (bs.getD 0 0).toUInt32 <<< 24 ||| (bs.getD 1 0).toUInt32 <<< 16 |||
    (bs.getD 2 0).toUInt32 <<< 8 ||| (bs.getD 3 0).toUInt32

/-- `pager_write_changecounter` on the content of page 1. -/
def writeChangecounter (dbFileVers data : Bytes) : Bytes :=
  let changeCounter := put4byte (get4byte dbFileVers + 1)
  let data := overwrite data 24 changeCounter
  let data := overwrite data 92 changeCounter
  overwrite data 96 (put4byte sqliteVersionNumber)

def noteFileVers (vers : Bytes) : PagerM Unit :=
  modify fun pg => { pg with dbFileVers := if pgno = 1 then vers else pg.dbFileVers }

def writePage : PagerM Unit := do
  let page ← lookup pgno
  let pg ← get
  if pg.dbSize < pgno then return ()
  else
    let data := if pgno = 1 then writeChangecounter pg.dbFileVers page.data else page.data
    setPage pgno (some { page with data := data })
    let img ← codecOrNomem p g w data pgno .write
    let o ← ask w
    noteFileVers pgno (slice img 24 16)
    require (o.rc == .ok) o.rc
    emit (.write pgno img)

def pagerWritePagelist (pgnos : List Nat) : PagerM Unit :=
  forEach (writePage p g w) pgnos

/-- `syncJournal`: take the exclusive lock, sync the journal, and let the file be changed. -/
def syncJournal : PagerM Unit := do
  request w
  request w
  emit .sync
  mapCache fun page => { page with needSync := false }
  setState .writerDbmod

/-- `pagerStress` for a dirty page that nobody holds; page 1 is always held. -/
def pagerStress : PagerM Unit := do
  let pg ← get
  match pg.cache pgno with
  | none => return ()
  | some page =>
    if pg.errCode ≠ .ok ∨ page.dirty = false ∨ pgno = 1 then return ()
    else pagerError do
      when (page.needSync ∨ pg.state = .writerCachemod) (syncJournal w)
      pagerWritePagelist p g w [pgno]
      setPage pgno none

/-- `sqlite3PcacheFetchStress`: a busy database is no reason to refuse room. -/
def fetchStress : PagerM Unit := do
  let o ← ask w
  match o.spill with
  | none => return ()
  | some pgno => do
    match ← attempt (pagerStress p g w pgno) with
    | .ok () => return ()
    | .error rc => require (rc == .busy) rc

/-- `readDbPage`. The codec is called even when the read has failed. -/
def readDbPage : PagerM Bytes := do
  let o ← ask w
  let pg ← get
  let raw := if o.rc = .ok then pg.disk.file pgno else stream o.junk pg.codec.pageSz
  noteFileVers pgno (if o.rc = .ok then slice raw 24 16 else List.replicate 16 0xff)
  let page ← codecOrNomem p g w raw pgno .read
  require (o.rc == .ok) o.rc
  return page

/-- The content of a page that is not in the cache: zeros behind the end of the database. -/
def pageContent : PagerM Bytes := do
  let pg ← get
  if pg.dbSize < pgno then return zeros pg.codec.pageSz else readDbPage p g w pgno

def pagerGet : PagerM Unit := do
  let pg ← get
  require (pg.errCode == .ok) pg.errCode
  require (pgno != 0) .corrupt
  if (pg.cache pgno).isSome then return ()
  else do
    fetchStress p g w
    require (pgno != lckPgno g pg.codec.pageSz) .corrupt
    let data ← pageContent p g w pgno
    setPage pgno (some { data := data, dirty := false, writeable := false, needSync := false })

def pagerOpenJournal : PagerM Unit := do
  request w
  emit .openJournal
  setState .writerCachemod

variable (pg : Pager)

def Pager.inJournal (pgno : Nat) : Bool :=
  (pg.disk.journal.getD []).any fun r => r.1 == pgno

variable (page : CachedPage)

def pagerAddPageToRollbackJournal : PagerM Unit := do
  let img ← codecOrNomem p g w page.data pgno .journal
  setPage pgno (some { page with needSync := true })
  request w
  emit (.record pgno img)

/-- Journal a page that is in the file and not yet in the journal. -/
def journalPage : PagerM Unit := do
  let pg ← get
  if pg.inJournal pgno then return ()
  else if pgno ≤ pg.dbOrigSize then pagerAddPageToRollbackJournal p g w pgno page
  else if pg.state ≠ .writerDbmod then setPage pgno (some { page with needSync := true })
  else return ()

def Pager.grown (n : Nat) : Pager := { pg with dbSize := max pg.dbSize n }

/-- `pager_write`: journal the page and let the caller change it. -/
def pagerWriteNew : PagerM Unit := do
  let pg ← get
  when (pg.state = .writerLocked) (pagerOpenJournal w)
  setPage pgno (some { page with dirty := true })
  journalPage p g w pgno { page with dirty := true }
  let page ← lookup pgno
  setPage pgno (some { page with writeable := true })
  modify fun pg => pg.grown pgno

/-- `sqlite3PagerWrite` on a page the caller holds. -/
def pagerWrite : PagerM Unit := do
  let page ← lookup pgno
  let pg ← get
  if page.writeable ∧ pgno ≤ pg.dbSize then return ()
  else do
    require (pg.errCode == .ok) pg.errCode
    pagerWriteNew p g w pgno page

def pagerIncrChangecounter : PagerM Unit := do
  let pg ← get
  if pg.changeCountDone ∨ pg.dbSize = 0 then return ()
  else do
    pagerGet p g w 1
    pagerWrite p g w 1
    let page ← lookup 1
    let pg ← get
    setPage 1 (some { page with data := writeChangecounter pg.dbFileVers page.data })
    modify fun pg => { pg with changeCountDone := true }

def Pager.dirtyList : List Nat :=
  (List.range' 1 pg.dbSize).filter fun n => (pg.cache n).any CachedPage.dirty

def cleanAll : PagerM Unit :=
  mapCache fun page => { page with dirty := false, writeable := false, needSync := false }

def truncateCache : PagerM Unit :=
  modify fun pg =>
    { pg with cache := fun n => if n ≤ pg.dbSize then pg.cache n else none }

/-- `sqlite3PagerCommitPhaseOne`: everything but the end of the journal. -/
def pagerCommitPhaseOne : PagerM Unit := do
  let pg ← get
  require (pg.errCode == .ok) pg.errCode
  if pg.state = .reader ∨ pg.state = .writerLocked then return ()
  else do
    pagerIncrChangecounter p g w
    syncJournal w
    let pg ← get
    pagerWritePagelist p g w pg.dirtyList
    cleanAll
    request w
    setState .writerFinished

/-- `pager_end_transaction`: delete the journal. The transaction is over even if that fails. -/
def pagerEndTransaction : PagerM Unit := do
  let o ← ask w
  let pg ← get
  modify fun pg => { pg with state := .reader, changeCountDone := false }
  when (pg.disk.journal.isSome) do
    require (o.rc == .ok) o.rc
    emit .closeJournal
  cleanAll
  truncateCache

def pagerCommitPhaseTwo : PagerM Unit := do
  let pg ← get
  require (pg.errCode == .ok) pg.errCode
  pagerError (pagerEndTransaction w)

/-- Restore a page of the cache from its journal record, which is decrypted in place. -/
def restorePage (img : Bytes) : PagerM Unit := do
  let pg ← get
  match pg.cache pgno with
  | none => return ()
  | some page => do
    noteFileVers pgno (slice img 24 16)
    let data ← codecOrNomem p g w img pgno .read
    setPage pgno (some { page with data := data })

/-- `pager_playback_one_page` for the main journal. The file is restored only if it can have been
changed. -/
def pagerPlaybackOnePage (isSynced : Bool) (pgno : Nat) (img : Bytes) : PagerM Unit := do
  let pg ← get
  if pg.dbSize < pgno then return ()
  else do
    when (isSynced ∧ (pg.state = .writerDbmod ∨ pg.state = .writerFinished)) do
      request w
      emit (.write pgno img)
    restorePage p g w pgno img

/-- `pager_playback` of the journal of this process. -/
def pagerPlayback : PagerM Unit := do
  let pg ← get
  let records := pg.disk.journal.getD []
  modify fun pg => { pg with dbSize := pg.dbOrigSize }
  forEach (fun r => pagerPlaybackOnePage p g w true r.1 r.2) (records.take pg.disk.synced)
  forEach (fun r => pagerPlaybackOnePage p g w false r.1 r.2) (records.drop pg.disk.synced)
  request w
  pagerEndTransaction w

def pagerRollback : PagerM Unit := do
  let pg ← get
  if pg.state = .error then fail pg.errCode
  else if pg.state = .reader then return ()
  else pagerError do
    if pg.state = .writerLocked then pagerEndTransaction w else pagerPlayback p g w

/-- `sqlite3BtreeBeginTrans` for writing, outside a transaction: the shared lock, page 1, the
reserved lock. -/
def btreeBeginTrans : PagerM Unit := do
  request w
  pagerGet p g w 1
  request w
  modify fun pg => { pg with state := .writerLocked, dbOrigSize := pg.dbSize }

def btreeCommit : PagerM Unit := do
  pagerCommitPhaseOne p g w
  pagerCommitPhaseTwo w

/-- `sqlite3BtreeRollback`. Page 1, which is fetched again afterwards, is held all along. -/
def btreeRollback : PagerM Unit := pagerRollback p g w

end SqlCipher
