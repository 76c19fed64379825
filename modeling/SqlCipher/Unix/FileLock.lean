import Mathlib.Data.Fintype.Card
import Mathlib.Order.Lattice
import SqlCipher.Library.Run
import SqlCipher.Library.Suspend

/-!
# Locks on a database file

The locking part of `os_unix.c`. A process has one `unixInodeInfo` for the file, and one `unixFile`
for each connection. `unixLock`, `unixUnlock` and `unixCheckReservedLock` run under `pLockMutex`,
and make `fcntl` calls between which other processes act. `unixClose` takes that mutex several
times. The bytes that are locked are PENDING, RESERVED and the SHARED range, always as a whole.
-/

namespace SqlCipher.Unix

open Coroutine Function

inductive FileLock where
  | none | shared | reserved | pending | exclusive
  deriving DecidableEq

def FileLock.rank : FileLock → Nat
  | .none => 0
  | .shared => 1
  | .reserved => 2
  | .pending => 3
  | .exclusive => 4

theorem FileLock.rank_injective : Function.Injective FileLock.rank := by
  intro a b
  cases a <;> cases b <;> decide

instance : LinearOrder FileLock := .lift' FileLock.rank FileLock.rank_injective

inductive Rc where
  | ok | busy | perm | ioerrLock | ioerrUnlock | ioerrRdlock | ioerrCheckReservedLock
  deriving DecidableEq

inductive LockByte where
  | pending | reserved | shared
  deriving DecidableEq

inductive Mode where
  | read | write
  deriving DecidableEq

abbrev Row := LockByte → Option Mode

inductive LockType where
  | rdlck | wrlck | unlck
  deriving DecidableEq

def LockType.mode : LockType → Option Mode
  | .rdlck => some .read
  | .wrlck => some .write
  | .unlck => none

structure Flock where
  lType : LockType
  range : List LockByte
  deriving DecidableEq

inductive SysCall where
  | setlk (lock : Flock)
  | getlk (lock : Flock)
  | close
  deriving DecidableEq

inductive Errno where
  /-- One of those that `sqliteErrorFromPosixError` takes for a lock that is held elsewhere. -/
  | temporary
  | eperm
  | other
  deriving DecidableEq

inductive Reply where
  | ok
  /-- Another process holds a lock that is in the way. -/
  | conflict
  | failed (errno : Errno)
  deriving DecidableEq

/-- The locks of a process after its call. A lock replaces what the process has on its range; a
`close` drops all its locks, whatever the descriptor. -/
def Row.after : SysCall → Reply → Row → Row
  | .setlk lock, .ok, row => fun b => if b ∈ lock.range then lock.lType.mode else row b
  | .close, _, _ => fun _ => none
  | _, _, row => row

def Compatible {n : Nat} (locks : Fin n → Row) (p : Fin n) (lock : Flock) : Prop :=
  ∀ q, q ≠ p → ∀ b ∈ lock.range,
    match lock.lType with
    | .rdlck => locks q b ≠ some .write
    | .wrlck => locks q b = none
    | .unlck => True

instance (locks : Fin n → Row) (p : Fin n) (lock : Flock) : Decidable (Compatible locks p lock) :=
  haveI (q : Fin n) (b : LockByte) : Decidable (match lock.lType with
      | .rdlck => locks q b ≠ some .write
      | .wrlck => locks q b = none
      | .unlck => True) := by split <;> infer_instance
  inferInstanceAs (Decidable (∀ _, _))

/-- The system can give the reply. Any call may fail. -/
def Answers {n : Nat} (locks : Fin n → Row) (p : Fin n) : SysCall → Reply → Prop
  | .setlk lock, .ok => Compatible locks p lock
  | _, _ => True

instance (locks : Fin n → Row) (p : Fin n) (request : SysCall) (reply : Reply) :
    Decidable (Answers locks p request reply) := by
  unfold Answers
  split <;> infer_instance

/-- The locking fields of `unixInodeInfo`, protected by `pLockMutex`. -/
structure InodeInfo where
  nShared : Nat
  nLock : Nat
  eFileLock : FileLock
  bProcessLock : Bool
  pUnused : Nat

def InodeInfo.zero : InodeInfo where
  nShared := 0
  nLock := 0
  eFileLock := .none
  bProcessLock := false
  pUnused := 0

structure UnixFile where
  eFileLock : FileLock
  h : Bool
  excl : Bool
  rdonly : Bool

/-- What a call reads and writes: the inode information of the process and the file. -/
structure Shared where
  inode : InodeInfo
  file : UnixFile

abbrev M := Coroutine Shared SysCall Reply

def setInode (f : InodeInfo → InodeInfo) : M Unit :=
  Coroutine.modify fun s => { s with inode := f s.inode }

variable (eFileLock : FileLock)

def setFileLock : M Unit :=
  Coroutine.modify fun s => { s with file := { s.file with eFileLock := eFileLock } }

/-- Locks are set once, for the whole process. -/
def UnixFile.processLock (file : UnixFile) : Bool := file.excl && !file.rdonly

def sqliteErrorFromPosixError (reply : Reply) (ioerr : Rc) : Rc :=
  match reply with
  | .ok => .ok
  | .conflict => .busy
  | .failed .temporary => .busy
  | .failed .eperm => .perm
  | .failed .other => ioerr

def unixFileLock (lock : Flock) : M Reply := do
  let s ← get
  if s.file.processLock = true then
    if s.inode.bProcessLock = true then
      return .ok
    else
      let reply ← await (.setlk ⟨.wrlck, [.shared]⟩)
      if reply = .ok then
        setInode fun inode => { inode with bProcessLock := true, nLock := inode.nLock + 1 }
      return reply
  else
    await (.setlk lock)

/-- The part of `unixLock` that follows the read-lock on the PENDING byte. -/
def lockShared : M Rc := do
  let locked ← unixFileLock ⟨.rdlck, [.shared]⟩
  let dropped ← unixFileLock ⟨.unlck, [.pending]⟩
  if locked ≠ .ok then
    return sqliteErrorFromPosixError locked .ioerrLock
  else if dropped ≠ .ok then
    return .ioerrUnlock
  else
    setFileLock .shared
    setInode fun inode => { inode with nLock := inode.nLock + 1, nShared := 1 }
    return .ok

variable (sharingShm : Bool)

/-- The part of `unixLock` for RESERVED and EXCLUSIVE. -/
def lockWrite (eFileLock : FileLock) : M Rc := do
  let s ← get
  if eFileLock = .exclusive ∧ 1 < s.inode.nShared then
    return .busy
  else if sharingShm = true then
    return .busy
  else
    let reply ← unixFileLock ⟨.wrlck, if eFileLock = .reserved then [.reserved] else [.shared]⟩
    return sqliteErrorFromPosixError reply .ioerrLock

/-- The part of `unixLock` in which the lock is asked for. -/
def lockSystem (eFileLock : FileLock) : M Rc := do
  let rc ← if eFileLock = .shared then lockShared else lockWrite sharingShm eFileLock
  if rc = .ok then
    setFileLock eFileLock
    setInode fun inode => { inode with eFileLock := eFileLock }
  return rc

/-- `sharingShm` is what `unixIsSharingShmNode` finds. -/
def unixLock (eFileLock : FileLock) : M Rc := do
  let s ← get
  if eFileLock ≤ s.file.eFileLock then
    return .ok
  else if s.file.eFileLock ≠ s.inode.eFileLock ∧
      (.pending ≤ s.inode.eFileLock ∨ .shared < eFileLock) then
    return .busy
  else if eFileLock = .shared ∧
      (s.inode.eFileLock = .shared ∨ s.inode.eFileLock = .reserved) then
    setFileLock .shared
    setInode fun inode => { inode with nShared := inode.nShared + 1, nLock := inode.nLock + 1 }
    return .ok
  else if eFileLock = .shared ∨ (eFileLock = .exclusive ∧ s.file.eFileLock = .reserved) then
    let reply ← unixFileLock ⟨if eFileLock = .shared then .rdlck else .wrlck, [.pending]⟩
    if reply ≠ .ok then
      return sqliteErrorFromPosixError reply .ioerrLock
    else if eFileLock = .exclusive then
      setFileLock .pending
      setInode fun inode => { inode with eFileLock := .pending }
      lockSystem sharingShm eFileLock
    else
      lockSystem sharingShm eFileLock
  else
    lockSystem sharingShm eFileLock

def closeFds : Nat → M Unit
  | 0 => pure ()
  | n + 1 => do
    let _ ← await .close
    closeFds n

def closePendingFds : M Unit := do
  let s ← get
  closeFds s.inode.pUnused
  setInode fun inode => { inode with pUnused := 0 }

/-- The part of `posixUnlock` that releases the system's lock once no connection of the process has
one. -/
def unlockLast : M Rc := do
  let reply ← unixFileLock ⟨.unlck, [.pending, .reserved, .shared]⟩
  setInode fun inode => { inode with eFileLock := .none }
  if reply = .ok then
    return .ok
  else
    setFileLock .none
    return .ioerrUnlock

/-- The part of `posixUnlock` that counts the locks of the process down. -/
def dropLock : M Unit := do
  setInode fun inode => { inode with nLock := inode.nLock - 1 }
  let s ← get
  if s.inode.nLock = 0 then
    closePendingFds

/-- The part of `posixUnlock` that gives up SHARED. -/
def unlockShared : M Rc := do
  setInode fun inode => { inode with nShared := inode.nShared - 1 }
  let s ← get
  let rc ← if s.inode.nShared = 0 then unlockLast else pure .ok
  dropLock
  return rc

/-- The part of `posixUnlock` that unlocks the PENDING and RESERVED bytes. -/
def unlockBytes : M Rc := do
  let reply ← unixFileLock ⟨.unlck, [.pending, .reserved]⟩
  if reply ≠ .ok then
    return .ioerrUnlock
  else
    setInode fun inode => { inode with eFileLock := .shared }
    return .ok

/-- The part of `posixUnlock` that gives up what a connection has above SHARED. -/
def unlockWrite : M Rc :=
  if eFileLock = .shared then do
    let reply ← unixFileLock ⟨.rdlck, [.shared]⟩
    if reply ≠ .ok then
      return .ioerrRdlock
    else
      unlockBytes
  else
    unlockBytes

/-- The part of `posixUnlock` that is common to both levels. -/
def unlockRest : M Rc := do
  let rc ← if eFileLock = .none then unlockShared else pure .ok
  if rc = .ok then
    setFileLock eFileLock
  return rc

/-- `posixUnlock`, without the variant for NFS. -/
def unixUnlock : M Rc := do
  let s ← get
  if s.file.eFileLock ≤ eFileLock then
    return .ok
  else
    let rc ← if .shared < s.file.eFileLock then unlockWrite eFileLock else pure .ok
    if rc ≠ .ok then
      return rc
    else
      unlockRest eFileLock

/-- The second component is `*pResOut`. -/
def unixCheckReservedLock : M (Rc × Bool) := do
  let s ← get
  if .shared < s.inode.eFileLock then
    return (.ok, true)
  else if s.inode.bProcessLock = true then
    return (.ok, false)
  else
    let reply ← await (.getlk ⟨.wrlck, [.reserved]⟩)
    match reply with
    | .ok => return (.ok, false)
    | .conflict => return (.ok, true)
    | .failed _ => return (.ioerrCheckReservedLock, false)

/-- A call that a connection makes. `close` is the `unixUnlock` with which `unixClose` begins. -/
inductive Call where
  | lock (eFileLock : FileLock) (sharingShm : Bool)
  | unlock (eFileLock : FileLock)
  | checkReservedLock
  | close
  deriving DecidableEq

def Call.run : Call → M Rc
  | .lock eFileLock sharingShm => unixLock sharingShm eFileLock
  | .unlock eFileLock => unixUnlock eFileLock
  | .checkReservedLock => do
    let r ← unixCheckReservedLock
    return r.1
  | .close => unixUnlock .none

def Call.Ordered (held : FileLock) : Call → Prop
  | .lock eFileLock _ => eFileLock ≤ held ∨
      (held ≠ .none ∨ eFileLock = .shared) ∧ eFileLock ≠ .pending ∧
        (eFileLock = .reserved → held = .shared)
  | .unlock eFileLock => eFileLock ≤ .shared
  | .checkReservedLock => held ≤ .shared
  | .close => True

instance (held : FileLock) (call : Call) : Decidable (call.Ordered held) := by
  cases call <;> unfold Call.Ordered <;> infer_instance

structure Active (m : Nat) where
  conn : Fin m
  call : Call
  request : SysCall
  resume : Reply → Suspended Shared SysCall Reply Rc

structure Process (m : Nat) where
  inode : InodeInfo
  nRef : Nat
  files : Fin m → Option UnixFile
  active : Option (Active m)
  /-- `unixClose` has been called. -/
  closing : Fin m → Bool
  /-- The connection that holds `unixBigLock`, in the second half of its `unixClose`. -/
  bigLock : Option (Fin m)

def Process.start (m : Nat) : Process m where
  inode := .zero
  nRef := 0
  files _ := none
  active := none
  closing _ := false
  bigLock := none

structure State (n m : Nat) where
  procs : Fin n → Process m
  locks : Fin n → Row

def State.start (n m : Nat) : State n m := ⟨fun _ => .start m, fun _ _ => none⟩

def Process.enter {m : Nat} (pr : Process m) (conn : Fin m) (call : Call) : Process m :=
  { pr with closing := update pr.closing conn (decide (call = Call.close)) }

def Process.settle {m : Nat} (pr : Process m) (conn : Fin m) (call : Call)
    (x : Suspended Shared SysCall Reply Rc) : Process m :=
  { pr with
    inode := x.state.inode
    files := update pr.files conn (some x.state.file)
    active :=
      match x with
      | .done _ _ => none
      | .waiting _ request resume => some ⟨conn, call, request, resume⟩ }

/-- The part of `unixClose` under `pLockMutex`: if the process has locks the descriptor stays open.
-/
def Process.closeCheck {m : Nat} (pr : Process m) (conn : Fin m) (file : UnixFile) : Process m :=
  if pr.inode.nLock ≠ 0 then
    { pr with
      inode := { pr.inode with pUnused := pr.inode.pUnused + 1 }
      files := update pr.files conn (some { file with h := false })
      bigLock := some conn }
  else
    { pr with bigLock := some conn }

/-- The rest of `unixClose`: `releaseInodeInfo` and `closeUnixFile`. -/
def Process.closeFinish {m : Nat} (pr : Process m) (conn : Fin m) : Process m :=
  { pr with
    inode := if pr.nRef - 1 = 0 then .zero else pr.inode
    nRef := pr.nRef - 1
    files := update pr.files conn none
    closing := update pr.closing conn false
    bigLock := none }

/-- The system's locks after `closeFinish`: a descriptor may have been closed. -/
def Process.closeRow {m : Nat} (pr : Process m) (file : UnixFile) (row : Row) : Row :=
  if file.h = true ∨ pr.nRef - 1 = 0 ∧ pr.inode.pUnused ≠ 0 then row.after .close .ok else row

/-- A new connection, on a new descriptor or on one that waits to be closed. -/
def Process.openFile {m : Nat} (pr : Process m) (conn : Fin m) (excl rdonly reuse : Bool) :
    Process m :=
  { pr with
    inode := if reuse = true then { pr.inode with pUnused := pr.inode.pUnused - 1 } else pr.inode
    nRef := pr.nRef + 1
    files := update pr.files conn (some ⟨.none, true, excl, rdonly⟩) }

inductive Op (n m : Nat) where
  | openFile (p : Fin n) (conn : Fin m) (excl rdonly reuse : Bool)
  | call (p : Fin n) (conn : Fin m) (call : Call)
  | reply (p : Fin n) (reply : Reply)
  | closeCheck (p : Fin n) (conn : Fin m)
  | closeFinish (p : Fin n)

variable {n m : Nat} (s : State n m) (p : Fin n)

def State.setProcess (pr : Process m) : State n m :=
  { s with procs := update s.procs p pr }

def State.setRow (row : Row) : State n m :=
  { s with locks := update s.locks p row }

variable (conn : Fin m)

def stepOpen (excl rdonly reuse : Bool) : Option (State n m) :=
  let pr := s.procs p
  if pr.files conn = none ∧ pr.active.isNone ∧ pr.bigLock = none ∧
      (reuse = true → pr.inode.pUnused ≠ 0) then
    some (s.setProcess p (pr.openFile conn excl rdonly reuse))
  else
    none

/-- A connection calls one of the functions, when `pLockMutex` is free. -/
def stepCall (call : Call) : Option (State n m) :=
  let pr := s.procs p
  match pr.files conn with
  | none => none
  | some file =>
    if pr.active.isNone ∧ pr.closing conn = false ∧ call.Ordered file.eFileLock then
      some (s.setProcess p ((pr.enter conn call).settle conn call (call.run ⟨pr.inode, file⟩)))
    else
      none

def stepReply (reply : Reply) : Option (State n m) :=
  let pr := s.procs p
  match pr.active with
  | none => none
  | some a =>
    if Answers s.locks p a.request reply then
      some ((s.setProcess p (pr.settle a.conn a.call (a.resume reply))).setRow p
        ((s.locks p).after a.request reply))
    else
      none

/-- `unixClose` goes on after its `unixUnlock`, once it has `unixBigLock` and `pLockMutex`. -/
def stepCloseCheck : Option (State n m) :=
  let pr := s.procs p
  match pr.files conn with
  | none => none
  | some file =>
    if pr.active.isNone ∧ pr.bigLock = none ∧ pr.closing conn = true then
      some (s.setProcess p (pr.closeCheck conn file))
    else
      none

/-- `unixClose` comes to its end. It needs `pLockMutex` again if the process has no other
connection. -/
def stepCloseFinish : Option (State n m) :=
  let pr := s.procs p
  match pr.bigLock with
  | none => none
  | some conn =>
    match pr.files conn with
    | none => none
    | some file =>
      if pr.nRef - 1 = 0 → pr.active.isNone then
        some ((s.setProcess p (pr.closeFinish conn)).setRow p (pr.closeRow file (s.locks p)))
      else
        none

def step : Op n m → Option (State n m)
  | .openFile p conn excl rdonly reuse => stepOpen s p conn excl rdonly reuse
  | .call p conn call => stepCall s p conn call
  | .reply p reply => stepReply s p reply
  | .closeCheck p conn => stepCloseCheck s p conn
  | .closeFinish p => stepCloseFinish s p

/-- In a call a connection believes in the `eFileLock` of its file, but not in what it is giving up.
-/
def Call.belief : Call → FileLock → FileLock
  | .unlock eFileLock, held => min held eFileLock
  | .close, _ => .none
  | _, held => held

def Process.holds (pr : Process m) (conn : Fin m) : FileLock :=
  match pr.files conn with
  | none => .none
  | some file =>
    if pr.closing conn = true then .none
    else
      match pr.active with
      | some a => if a.conn = conn then a.call.belief file.eFileLock else file.eFileLock
      | none => file.eFileLock

def State.holds : FileLock := (s.procs p).holds conn

end SqlCipher.Unix
