import SqlCipher.Codec.Context
import SqlCipher.Library.Proc

/-!
# The destination of a backup

The destination's pager as far as the write transaction of a backup uses it (the cache, which may
spill, and the file), and the part of `backup.c` that works on it: `backupOnePage`, and the
statements that finish the transaction.

The bytes of a file are counted from 0, so that pages of different sizes can be compared. A codec
reads back what was written up to its own reserve, if a page has its page size. Page numbers are
natural numbers: the pager refuses the last ones before they could wrap around.
-/

namespace SqlCipher.Backup

open Proc

abbrev Content := Nat → UInt8

def Content.zero : Content := fun _ => 0

def Content.copy (out : Content) (pos : Nat) (inp : Content) (start n : Nat) : Content := fun j =>
  if pos ≤ j ∧ j < pos + n then inp (start + (j - pos)) else out j

def byte4 (v k : Nat) : UInt8 := UInt8.ofNat (v / 256 ^ (3 - k))

def Content.put4byte (c : Content) (pos v : Nat) : Content := fun j =>
  if pos ≤ j ∧ j < pos + 4 then byte4 v (j - pos) else c j

def Content.get4byte (c : Content) (pos : Nat) : Nat :=
  (c pos).toNat * 256 ^ 3 + (c (pos + 1)).toNat * 256 ^ 2 + (c (pos + 2)).toNat * 256 +
    (c (pos + 3)).toNat

def magic (j : Nat) : UInt8 := sqliteFileHeader.getD j 0

variable (pageSize : Nat)

def ValidPageSize : Prop := ∃ k, 9 ≤ k ∧ k ≤ 16 ∧ pageSize = 2 ^ k

def pendingByte : Nat := 0x40000000

def pendingBytePage : Nat := pendingByte / pageSize + 1

structure PageCodec where
  pageSz : Nat
  reserve : Nat
  encode : (nonce pgno : Nat) → Content → Content
  decode : (pgno : Nat) → Content → Option Content
  decode_encode : ∀ nonce pgno c raw, (pgno = 1 → ∀ j < fileHeaderSz, c j = magic j) →
    (∀ j < pageSz, raw j = encode nonce pgno c j) →
    ∃ c', decode pgno raw = some c' ∧ ∀ j < pageSz - reserve, c' j = c j

structure Dest where
  pageSize : Nat
  /-- `BTS_PAGESIZE_FIXED` -/
  fixed : Bool
  /-- The page size in the header of the file, if it can be read without a codec. -/
  headerSize : Option Nat
  /-- `pageSize - usableSize` of the b-tree -/
  reserve : Nat
  /-- `nReserveWanted` -/
  reserveWanted : Nat
  /-- `Pager.nReserve` -/
  nReserve : Nat
  codec : Option PageCodec
  codecError : Bool
  wal : Bool
  memDb : Bool
  autoVacuum : Bool
  incrVacuum : Bool
  file : Nat → UInt8
  fileSize : Nat
  dbSize : Nat
  dbFileSize : Nat
  cache : Nat → Option Content

/-- Errors of page requests. With all locks held, `SQLITE_BUSY` and `SQLITE_LOCKED` cannot occur. -/
inductive Fault where
  | nomem | ioerr | corrupt | full | readonly
  deriving DecidableEq, Repr

def Fault.rc : Fault → ResultCode
  | .nomem => .nomem
  | .ioerr => .ioerr
  | .corrupt => .corrupt
  | .full => .full
  | .readonly => .readonly

inductive Refusal where
  | busy | locked
  | fault (f : Fault)
  deriving DecidableEq, Repr

def Refusal.rc : Refusal → ResultCode
  | .busy => .busy
  | .locked => .locked
  | .fault f => f.rc

def isFatalError (rc : ResultCode) : Bool := rc ≠ .ok ∧ rc ≠ .busy ∧ rc ≠ .locked

inductive PageCall where
  | srcGet (pgno : Nat)
  | destGet (pgno : Nat)
  | destWrite (pgno : Nat)
  | newDb
  | updateMeta
  | setVersion
  | commitOne
  | extraWrite (pgno : Nat)
  | truncate
  | sync
  | commitTwo
  deriving DecidableEq, Repr

inductive LockCall where
  | srcBegin | findDest | setPgsz | destBegin
  deriving DecidableEq, Repr

structure World where
  lock : LockCall → Option Refusal
  fault : PageCall → Option Fault
  spill : Nat → List Nat
  nonce : Nat → Nat
  counter : Nat
  /-- The page of the source is in the cache. -/
  cached : Nat → Bool
  /-- The page of the source does not decrypt. Only this makes `Source.codecError` true. -/
  bad : Nat → Bool

def request {σ : Type} (w : World) (call : PageCall) : Proc σ ResultCode Unit :=
  match w.fault call with
  | none => pure ()
  | some fault => fail fault.rc

/-- A lock request, which may also be refused for a while. -/
def lock {σ : Type} (w : World) (call : LockCall) : Proc σ ResultCode Unit :=
  match w.lock call with
  | none => pure ()
  | some refusal => fail refusal.rc

abbrev D := Proc Dest ResultCode

variable (d : Dest)

/-- The page as it is in the file; what is missing counts as zeros. -/
def Dest.raw (pgno : Nat) : Content := fun j =>
  if j < d.pageSize ∧ (pgno - 1) * d.pageSize + j < d.fileSize then
    d.file ((pgno - 1) * d.pageSize + j)
  else 0

def Dest.byte (off : Nat) : UInt8 := if off < d.fileSize then d.file off else 0

def Dest.put (pgno : Nat) (raw : Content) : Dest :=
  { d with
    file := fun off => if off / d.pageSize + 1 = pgno then raw (off % d.pageSize) else d.byte off
    fileSize := max d.fileSize (pgno * d.pageSize)
    dbFileSize := max d.dbFileSize pgno }

def Dest.setContent (pgno : Nat) (c : Content) : Dest :=
  { d with cache := fun n => if n = pgno then some c else d.cache n }

def Dest.drop (pgno : Nat) : Dest :=
  { d with cache := fun n => if n = pgno then none else d.cache n }

variable (w : World)

/-- What is written to the file for a page. A failed codec returns `NULL`. -/
def encoded (pgno : Nat) (c : Content) : D Content := do
  let d ← get
  match d.codec with
  | none => return c
  | some codec =>
    if codec.pageSz ≠ d.pageSize then undefined
    else if d.codecError then fail .nomem
    else return codec.encode (w.nonce pgno) pgno c

/-- Page 1 is held all the time. -/
def spill (pgno : Nat) : D Unit := do
  let d ← get
  match d.cache pgno with
  | none => return ()
  | some c =>
    if pgno ≤ 1 ∨ d.dbSize < pgno then return ()
    else do
      let raw ← encoded w pgno c
      modify fun d => (d.put pgno raw).drop pgno

/-- `readDbPage`: a page that does not decrypt is zeros, and so is every page after it. -/
def readDbPage (pgno : Nat) : D Content := do
  let d ← get
  match d.codec with
  | none => return d.raw pgno
  | some codec =>
    if codec.pageSz ≠ d.pageSize then undefined
    else if d.codecError then return .zero
    else match codec.decode pgno (d.raw pgno) with
      | some c => return c
      | none => do
        modify fun d => { d with codecError := true }
        return .zero

def destGet (pgno : Nat) : D Content := do
  forEach (spill w) (w.spill pgno)
  request w (.destGet pgno)
  let d ← get
  match d.cache pgno with
  | some c => return c
  | none => do
    let c ← if d.dbSize < pgno then pure .zero else readDbPage pgno
    modify fun d => d.setContent pgno c
    return c

def destWrite (pgno : Nat) : D Unit := do
  request w (.destWrite pgno)
  modify fun d => { d with dbSize := max d.dbSize pgno }

/-- The header of page 1 gets the size of the source, unless this is an update. -/
def patched (last : Option Nat) (off : Nat) (c : Content) : Content :=
  match last with
  | some n => if off = 0 then c.put4byte 28 n else c
  | none => c

variable (srcPageSize : Nat)

/-- The part of a page of the source that belongs to the page of the destination at `off`. -/
def copyPart (last : Option Nat) (data : Content) (off : Nat) : D Unit := do
  let d ← get
  let iDest := off / d.pageSize + 1
  if iDest = pendingBytePage d.pageSize then return ()
  else do
    let c ← destGet w iDest
    destWrite w iDest
    let c := c.copy (off % d.pageSize) data (off % srcPageSize) (min srcPageSize d.pageSize)
    modify fun d => d.setContent iDest (patched last off c)

/-- The checks at the start of `backupOnePage`. If the reserves differ, the second result counts;
the page size is fixed while page 1 is held. -/
def checkGeometry (srcReserve : Nat) : D Unit := do
  let d ← get
  if srcReserve ≠ max d.reserveWanted d.reserve then do
    modify fun d => { d with nReserve := srcReserve }
    if d.pageSize ≠ srcPageSize then fail .readonly else return ()
  else if srcPageSize ≠ d.pageSize ∧ d.codec.isSome then fail .readonly
  else return ()

/-- Where the pages of the destination start that a page of the source spans. -/
def offsets (destPageSize pgno : Nat) : List Nat :=
  (List.range ((srcPageSize + destPageSize - 1) / destPageSize)).map fun k =>
    (pgno - 1) * srcPageSize + k * destPageSize

def backupOnePage (srcReserve pgno : Nat) (data : Content) (last : Option Nat) :
    D Unit := do
  checkGeometry srcPageSize srcReserve
  let d ← get
  forEach (copyPart w srcPageSize last data) (offsets srcPageSize d.pageSize pgno)

def Dest.setPageSize (d : Dest) (pageSize : Nat) : Dest :=
  { d with
    pageSize := pageSize
    dbSize := (d.fileSize + pageSize - 1) / pageSize
    dbFileSize := (d.fileSize + pageSize - 1) / pageSize
    cache := fun _ => none }

/-- `setDestPgsz`: `sqlite3BtreeSetPageSize` for the page size of the source. Only `SQLITE_NOMEM`
counts. -/
def setDestPgsz : D Unit := do
  modify fun d => { d with reserveWanted := 0 }
  let d ← get
  if (d.reserve = 0 ∧ srcPageSize = d.pageSize) ∨ d.fixed = true then return ()
  else do
    when (d.memDb = false ∨ d.dbSize = 0) <| modify fun d =>
      d.setPageSize (if 32 < d.reserve ∧ srcPageSize = 512 then 1024 else srcPageSize)
    if w.lock .setPgsz = some (.fault .nomem) then fail .nomem else return ()

def newDatabase (c : Content) : Content := fun j =>
  if j < 16 then magic j
  else if j = 16 then UInt8.ofNat (d.pageSize / 2 ^ 8)
  else if j = 17 then UInt8.ofNat (d.pageSize / 2 ^ 16)
  else if j = 18 ∨ j = 19 then 1
  else if j = 20 then UInt8.ofNat d.reserve
  else if j = 21 then 64
  else if j = 22 ∨ j = 23 then 32
  else if j = 31 then 1
  else if j = 55 then (if d.autoVacuum then 1 else 0)
  else if j = 67 then (if d.incrVacuum then 1 else 0)
  else if j < 100 then 0
  else if j = 100 then 0x0d
  else if j = 105 then UInt8.ofNat ((d.pageSize - d.reserve) / 2 ^ 8)
  else if j = 106 then UInt8.ofNat (d.pageSize - d.reserve)
  else if j < 108 then 0
  else c j

/-- The size is that of the file, and the page size the one in its header, if it can be read. -/
def Dest.opened : Dest :=
  match d.codec, d.headerSize with
  | none, some pageSize => { d.setPageSize pageSize with fixed := true }
  | _, _ => d.setPageSize d.pageSize

/-- `sqlite3BtreeBeginTrans` for an exclusive write transaction. It returns the schema cookie. -/
def destBegin : D Nat := do
  lock w .destBegin
  modify Dest.opened
  let d ← get
  if d.dbSize = 0 then do
    modify fun d => { d.setContent 1 (newDatabase d .zero) with dbSize := 1, fixed := true }
    return 0
  else do
    let c ← readDbPage 1
    modify fun d => d.setContent 1 c
    return c.get4byte 40

def lockDest : D Nat := do
  setDestPgsz w srcPageSize
  destBegin w

def modifyPage1 (f : Dest → Content → Content) : D Unit := do
  let d ← get
  match d.cache 1 with
  | none => undefined
  | some c => modify fun d => { d.setContent 1 (f d c) with dbSize := max d.dbSize 1 }

def newDb : D Unit := do
  request w .newDb
  modifyPage1 newDatabase

def updateMeta (schema : Nat) : D Unit := do
  request w .updateMeta
  modifyPage1 fun _ c => c.put4byte 40 schema

def setVersion : D Unit := do
  request w .setVersion
  modifyPage1 fun _ c j => if j = 18 ∨ j = 19 then 2 else c j

def changeCounter (c : Content) : Content :=
  ((c.put4byte 24 w.counter).put4byte 92 w.counter).put4byte 96 3054001

def Dest.flush (enc : Nat → Content → Content) : Dest :=
  { d with
    file := fun off =>
      let n := off / d.pageSize + 1
      match d.cache n with
      | some c => if n ≤ d.dbSize then enc n c (off % d.pageSize) else d.byte off
      | none => d.byte off
    fileSize := max d.fileSize
      ((if d.dbSize = pendingBytePage d.pageSize then d.dbSize - 1 else d.dbSize) * d.pageSize)
    dbFileSize := max d.dbFileSize d.dbSize
    cache := fun _ => none }

/-- `sqlite3PagerCommitPhaseOne`. Clean pages of the cache are now those of the file. -/
def commitPhaseOne : D Unit := do
  modifyPage1 fun _ => changeCounter w
  request w .commitOne
  let d ← get
  match d.codec with
  | none => modify fun d => d.flush fun _ c => c
  | some codec =>
    if codec.pageSz ≠ d.pageSize then undefined
    else if d.codecError then fail .nomem
    else modify fun d => d.flush fun n => codec.encode (w.nonce n) n

def truncateImage (nPage : Nat) : D Unit := modify fun d => { d with dbSize := nPage }

/-- `sqlite3PagerCommitPhaseTwo`: a file that has become too long is cut. -/
def commitPhaseTwo : D Unit := do
  request w .commitTwo
  modify fun d =>
    if d.dbSize < d.dbFileSize then { d with fileSize := d.dbSize * d.pageSize } else d

/-- Get and write the pages from `nDestTruncate` on, for the journal. -/
def journalRest (nDestTruncate : Nat) : D Unit := do
  let d ← get
  forEach (fun iPg =>
      if iPg = pendingBytePage d.pageSize then pure ()
      else do
        let _ ← destGet w iPg
        destWrite w iPg)
    (List.range' nDestTruncate (d.dbSize + 1 - nDestTruncate))

/-- `sqlite3OsWrite` of a page of the source behind the pending byte. -/
def extraWrite (pgno : Nat) (data : Content) : D Unit := do
  request w (.extraWrite pgno)
  modify fun d =>
    { d with
      file := fun off =>
        if off / srcPageSize + 1 = pgno then data (off % srcPageSize) else d.byte off
      fileSize := max d.fileSize (pgno * srcPageSize) }

def backupTruncateFile (size : Nat) : D Unit := do
  request w .truncate
  modify fun d => { d with fileSize := min d.fileSize size }

end SqlCipher.Backup
