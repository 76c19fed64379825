import SqlCipher.Backup.Dest
import SqlCipher.Library.Run

/-!
# The steps of a backup

`sqlite3_backup_step` copies pages from a source that others go on using. The source's connection
tells the backup of each page that its pager writes (`sqlite3BackupUpdate`) and of each time that
the cache is discarded (`sqlite3BackupRestart`).

`Source.current` is the last committed state, `Source.seen` the one that the connection's cache is
about, and `Source.stored` what the pager has written last for each page. `Op.Allowed` says what the
pager does: a write transaction ends when all pages of its outcome have been written, or with a
restart; others commit only when the locks allow it, and the connection's next lock then finds the
cache out of date.
-/

namespace SqlCipher.Backup

open Proc

/-- A committed state of the source: 480 bytes of a page are usable, page 1 has the magic and the
size of the database, and the pending-byte page is not the last. -/
structure Image where
  pageSize : Nat
  /-- `pageSize - usableSize` -/
  reserve : Nat
  nPage : Nat
  page : Nat → Content
  valid : ValidPageSize pageSize
  usable : reserve + 480 ≤ pageSize
  magic : 0 < nPage → ∀ j < fileHeaderSz, page 1 j = Backup.magic j
  /-- The size in the header is up to date. -/
  sizeField : 0 < nPage → ∀ k < 4, page 1 (28 + k) = byte4 nPage k
  ne_pending : nPage ≠ pendingBytePage pageSize

structure Source where
  current : Image
  seen : Image
  stale : Bool
  wal : Bool
  reading : Bool
  writing : Bool
  stored : Nat → Option Content
  keyed : Bool
  codecError : Bool

/-- The codec has recorded no error, and every page that is not in the cache decrypts. -/
def Source.Intact (src : Source) (w : World) : Prop :=
  src.codecError = false ∧ ∀ n, src.keyed = false ∨ w.cached n = true ∨ w.bad n = false

/-- `sqlite3_backup` -/
structure Handle where
  iNext : Nat
  rc : ResultCode
  bDestLocked : Bool
  isAttached : Bool
  iDestSchema : Nat

structure State where
  src : Source
  dest : Dest
  bk : Handle

abbrev M := Proc State ResultCode

def onDest {α : Type} (x : D α) : M α := Proc.onPart State.dest (fun d s => { s with dest := d }) x

def backupRestart : M Unit := modify fun s =>
  if s.bk.isAttached then { s with bk := { s.bk with iNext := 1 } } else s

def backupUpdate (w : World) (pgno : Nat) (data : Content) : M Unit := do
  let s ← get
  if s.bk.isAttached = true ∧ isFatalError s.bk.rc = false ∧ pgno < s.bk.iNext then do
    match ← attempt (onDest
        (backupOnePage w s.src.seen.pageSize s.src.seen.reserve pgno data none)) with
    | .ok () => return ()
    | .error rc => modify fun s => { s with bk := { s.bk with rc := rc } }
  else return ()

def Image.stored (img : Image) : Nat → Option Content := fun n =>
  if 1 ≤ n ∧ n ≤ img.nPage ∧ n ≠ pendingBytePage img.pageSize then some (img.page n) else none

/-- A shared lock, or a read transaction of the log: a cache that is out of date is discarded. -/
def beginRead : M Unit := do
  let s ← get
  when (s.src.stale = true) do
    backupRestart
    modify fun s => { s with
      src := { s.src with seen := s.src.current, stale := false, stored := s.src.current.stored } }
  modify fun s => { s with src := { s.src with reading := true } }

def endRead : M Unit := modify fun s => { s with src := { s.src with reading := false } }

variable (w : World) (pgno : Nat)

/-- `sqlite3PagerGet` on the source. A page that does not decrypt is zeros, and so is every later
page outside the cache. -/
def srcGet : M Content := do
  request w (.srcGet pgno)
  let s ← get
  if s.src.keyed = false ∨ w.cached pgno = true then return s.src.seen.page pgno
  else if s.src.codecError = true ∨ w.bad pgno = true then do
    modify fun s => { s with src := { s.src with codecError := true } }
    return .zero
  else return s.src.seen.page pgno

def copyPage : M Unit := do
  let s ← get
  if pgno = pendingBytePage s.src.seen.pageSize then return ()
  else do
    let data ← srcGet w pgno
    onDest (backupOnePage w s.src.seen.pageSize s.src.seen.reserve pgno data
      (some s.src.seen.nPage))

/-- One round of the loop. The page counts as copied even if that has failed. -/
def copyNext : M Unit := do
  let r ← attempt (copyPage w pgno)
  modify fun s => { s with bk := { s.bk with iNext := pgno + 1 } }
  ofExcept r

variable (nPage : Int)

def rounds (iNext nSrcPage : Nat) : Nat :=
  if nPage < 0 then nSrcPage + 1 - iNext else min nPage.toNat (nSrcPage + 1 - iNext)

def copyPages : M Unit := do
  let s ← get
  forEach (copyNext w)
    (List.range' s.bk.iNext (rounds nPage s.bk.iNext s.src.seen.nPage))

variable (srcPageSize : Nat)

/-- The offsets of the source's pages behind the pending-byte page that lie in that of the
destination. -/
def extraOffsets (destPageSize nSrcPage : Nat) : List Nat :=
  ((List.range (destPageSize / srcPageSize - 1)).map
    fun k => pendingByte + (k + 1) * srcPageSize).filter
    fun off => off < min (pendingByte + destPageSize) (srcPageSize * nSrcPage)

def copyExtra (off : Nat) : M Unit := do
  let data ← srcGet w (off / srcPageSize + 1)
  onDest (extraWrite w srcPageSize (off / srcPageSize + 1) data)

variable (nSrcPage : Nat)

/-- The end of a backup to larger pages: the file is cut in the middle of one. -/
def finishLarger : M Unit := do
  let s ← get
  let destPageSize := s.dest.pageSize
  let nDestTruncate := (nSrcPage + destPageSize / srcPageSize - 1) / (destPageSize / srcPageSize)
  let nDestTruncate :=
    if nDestTruncate = pendingBytePage destPageSize then nDestTruncate - 1 else nDestTruncate
  onDest (journalRest w nDestTruncate)
  onDest (commitPhaseOne w)
  forEach (copyExtra w srcPageSize) (extraOffsets srcPageSize destPageSize nSrcPage)
  onDest (backupTruncateFile w (srcPageSize * nSrcPage))
  request w .sync
  onDest (commitPhaseTwo w)

/-- The end of a backup to pages of the same size or smaller ones. -/
def finishSmaller : M Unit := do
  let s ← get
  onDest (truncateImage (nSrcPage * (srcPageSize / s.dest.pageSize)))
  onDest (commitPhaseOne w)
  onDest (commitPhaseTwo w)

def finishCommit : M Unit := do
  let s ← get
  onDest (updateMeta w (s.bk.iDestSchema + 1))
  when (s.dest.wal = true) (onDest (setVersion w))
  if s.src.seen.pageSize < s.dest.pageSize then finishLarger w s.src.seen.pageSize nSrcPage
  else finishSmaller w s.src.seen.pageSize nSrcPage

/-- All pages are copied. An empty source becomes a database of one page. -/
def finish : M Unit := do
  when (nSrcPage = 0) (onDest (newDb w))
  finishCommit w (max nSrcPage 1)

def openDest : M Unit := do
  let s ← get
  when (s.bk.bDestLocked = false) do
    lock w .findDest
    let schema ← onDest (lockDest w s.src.seen.pageSize)
    modify fun s => { s with bk := { s.bk with bDestLocked := true, iDestSchema := schema } }

def stepBody : M ResultCode := do
  let s ← get
  if s.src.writing = true then fail .busy
  else do
    when (s.src.reading = false) do
      lock w .srcBegin
      beginRead
    openDest w
    let s ← get
    if (s.dest.wal = true ∨ s.dest.memDb = true) ∧ s.src.seen.pageSize ≠ s.dest.pageSize then
      fail .readonly
    else do
      copyPages w nPage
      let s ← get
      if s.src.seen.nPage < s.bk.iNext then do
        finish w s.src.seen.nPage
        return .done
      else do
        modify fun s => { s with bk := { s.bk with isAttached := true } }
        return .ok

/-- `sqlite3_backup_step`. A read transaction that it opens on the source it also closes. -/
def backupStep : M ResultCode := do
  let s ← get
  if isFatalError s.bk.rc = true then return s.bk.rc
  else do
    let r ← attempt (stepBody w nPage)
    when (s.src.writing = false ∧ s.src.reading = false) endRead
    let rc := match r with
      | .ok rc => rc
      | .error rc => rc
    modify fun s => { s with bk := { s.bk with rc := rc } }
    return rc

inductive Op where
  | step (w : World) (nPage : Int)
  | beginRead
  | endRead
  | beginWrite
  /-- The pager writes a page, on commit, from a full cache or for a rollback. -/
  | writeOut (w : World) (pgno : Nat) (data : Content)
  | commit (img : Image) (restarted : Bool)
  | rollback (restarted : Bool)
  | restart
  | foreign (img : Image)

def Source.Settled (src : Source) (img : Image) : Prop :=
  ∀ n, 1 ≤ n → n ≤ img.nPage → n ≠ pendingBytePage img.pageSize → src.stored n = some (img.page n)

def Op.Allowed (s : State) : Op → Prop
  | .step _ _ => True
  | .beginRead => True
  | .endRead => s.src.writing = false
  | .beginWrite => s.src.writing = false ∧ (s.src.reading = true → s.src.stale = false)
  | .writeOut _ n _ => s.src.writing = true ∧ 1 ≤ n ∧ n ≠ pendingBytePage s.src.seen.pageSize
  | .commit img restarted => s.src.writing = true ∧
    (restarted = true ∨ img.pageSize = s.src.seen.pageSize ∧ s.src.Settled img)
  | .rollback restarted => s.src.writing = true ∧ (restarted = true ∨ s.src.Settled s.src.seen)
  | .restart => True
  | .foreign _ => s.src.writing = false ∧ (s.src.wal = true ∨ s.src.reading = false)

def Op.run : Op → M Unit
  | .step w nPage => do
    let _ ← backupStep w nPage
  | .beginRead => do
    let s ← get
    when (s.src.reading = false) Backup.beginRead
  | .endRead => Backup.endRead
  | .beginWrite => do
    let s ← get
    when (s.src.reading = false) Backup.beginRead
    modify fun s => { s with src := { s.src with writing := true } }
  | .writeOut w n data => do
    modify fun s => { s with
      src := { s.src with stored := fun m => if m = n then some data else s.src.stored m } }
    backupUpdate w n data
  | .commit img restarted => do
    when (restarted = true) backupRestart
    modify fun s => { s with
      src := { s.src with writing := false, current := img, seen := img, stored := img.stored } }
  | .rollback restarted => do
    when (restarted = true) backupRestart
    modify fun s => { s with
      src := { s.src with writing := false, stored := s.src.seen.stored } }
  | .restart => backupRestart
  | .foreign img => modify fun s => { s with src := { s.src with current := img, stale := true } }

def step (s : State) (op : Op) : Option State := (op.run s).map Prod.snd

structure State.Start (s : State) : Prop where
  iNext : s.bk.iNext = 1
  rc : s.bk.rc = .ok
  unlocked : s.bk.bDestLocked = false
  detached : s.bk.isAttached = false
  seen : s.src.seen = s.src.current
  fresh : s.src.stale = false
  writing : s.src.writing = false
  stored : s.src.stored = s.src.seen.stored
  codecError : s.src.codecError = false
  /-- `sqlite3_backup_init` wants both databases encrypted, or neither. -/
  keyed : s.src.keyed = s.dest.codec.isSome
  pageSize : ValidPageSize s.dest.pageSize
  headerSize : ∀ pageSize ∈ s.dest.headerSize, ValidPageSize pageSize

end SqlCipher.Backup
