import SqlCipher.Codec.Context
import SqlCipher.Library.Proc

/-!
# Migrating a database to the current format

`sqlcipher_codec_ctx_migrate` opens the file with the settings of earlier versions, exports the
content to an attached database in the current format, and renames that file over the main one,
under a connection that stays open.

A file is an encrypted database with the settings of some `cipher_compatibility`, by default 4. The
environment answers for every step whether it fails. `State.history` collects what is on disk from
change to change: a process that stops leaves one of these behind.

`ATTACH` keys the new database as the main one, and `sqlite3_key_v2` then replaces the key by the
password, unless the codec is in use or its cache is shared.

Not modelled: the page size that the b-tree is given on the way, Windows.
-/

namespace SqlCipher.Migrate

open Proc

variable {ρ : Type}

inductive JournalMode where
  | delete | persist | off | truncate | memory | wal
  deriving DecidableEq, Repr

structure Content (ρ : Type) where
  tables : List (Nat × ρ)
  userVersion : Int
  deriving DecidableEq, Repr

/-- An encrypted database. Its key is derived from a password with the settings `kdf`, its own
unless it was keyed with a derived key. -/
structure Image (ρ : Type) where
  compat : Nat
  kdf : Nat
  pass : Nat
  salt : Nat
  journalMode : JournalMode
  content : Content ρ
  deriving DecidableEq, Repr

inductive File (ρ : Type) where
  | absent
  | empty
  | keyed (img : Image ρ)
  deriving DecidableEq, Repr

/-- The file of the main database, and the one with `-migrated` at the end of its name. -/
structure Disk (ρ : Type) where
  main : File ρ
  migrated : File ρ
  deriving DecidableEq, Repr

/-- A password, or a key that was derived from one with the settings and the salt of a file. -/
inductive Key where
  | password (pass : Nat)
  | keyspec (kdf pass salt : Nat)
  deriving DecidableEq, Repr

structure Codec where
  compat : Nat
  key : Key
  keyUsed : Bool
  error : ResultCode
  deriving DecidableEq, Repr

def Codec.opens (c : Codec) (img : Image ρ) : Bool :=
  c.compat = img.compat ∧ (c.key = .password img.pass ∧ img.kdf = img.compat ∨
    c.key = .keyspec img.kdf img.pass img.salt)

inductive Step where
  | copyPass
  | checkConnection (compat : Nat)
  | formatCompat (compat : Nat)
  | formatTemp
  | copyFilename
  | formatAttach
  | formatUserVersion
  | setCompat
  | journalDelete
  | attach
  | key
  | exportTables
  | setUserVersion
  | inTransaction
  | setPageSize
  | getKey
  | codecAttach
  | rename
  | openSource
  | openDest
  | detach
  | formatJournalMode
  | journalRestore
  | deleteMigrated
  | read
  deriving DecidableEq, Repr

structure Answer where
  rc : ResultCode
  /-- A step that fails has had its effect nevertheless. -/
  done : Bool
  /-- The number of tables that an export copies before it fails. -/
  count : Nat
  /-- The salt of a new database. -/
  salt : Nat

/-- Which caches are shared: that of the main database by its URI, also the attached one's by
`SQLITE_OPEN_SHAREDCACHE`, or all by `sqlite3_enable_shared_cache`. -/
inductive Sharing where
  | none | main | attached | all
  deriving DecidableEq, Repr

def Sharing.ofMain (b : Sharing) : Bool := b ≠ .none

def Sharing.ofAttached (b : Sharing) : Bool := b = .attached ∨ b = .all

structure State (ρ : Type) where
  disk : Disk ρ
  history : List (Disk ρ)
  sharing : Sharing
  /-- `PRAGMA cipher_store_pass`. -/
  storePass : Bool
  codec : Option Codec
  /-- The context that the migration was called with has been freed. -/
  ctxFreed : Bool
  fd : Bool
  cache : Option (Content ρ)
  /-- The codec of the attached database. -/
  attached : Option Codec
  named : Bool

abbrev M (ρ : Type) := Proc (State ρ) ResultCode

variable (w : Step → Answer) (step : Step)

def request : M ρ Unit :=
  if (w step).rc = .ok then pure () else fail (w step).rc

def setDisk (f : Disk ρ → Disk ρ) : M ρ Unit :=
  modify fun s => { s with disk := f s.disk, history := s.history ++ [f s.disk] }

/-- What the connection finds in the main database. Without an open file the pager calls a null
pointer. Cached pages need no codec. -/
def access : M ρ (Content ρ) := do
  let s ← get
  if s.fd = false then undefined
  else match s.cache with
    | some content => return content
    | none => do
      request w step
      match s.codec, s.disk.main with
      | _, .absent => return ⟨[], 0⟩
      | _, .empty => return ⟨[], 0⟩
      | none, .keyed _ => fail .notadb
      | some c, .keyed img =>
        if c.error ≠ .ok then fail c.error
        else if c.opens img then do
          modify fun s => { s with
            cache := some img.content, codec := some { c with keyUsed := true } }
          return img.content
        else fail .notadb

variable (pass : Nat) (compat : Nat)

/-- `sqlcipher_check_connection` with the settings of `compat`: user version and journal mode. If
all caches are shared, the codec is the main connection's and keeps an error. -/
def checkConnection : M ρ (Int × JournalMode) := do
  modify fun s => { s with
    codec :=
      if s.sharing = .all then s.codec.map fun c => { c with compat := compat } else s.codec }
  request w (.checkConnection compat)
  let s ← get
  match s.disk.main, if s.sharing = .all then s.codec
    else some ⟨compat, .password pass, false, .ok⟩ with
  | .keyed img, some c =>
    if c.error ≠ .ok then fail c.error
    else if c.opens img then return (img.content.userVersion, img.journalMode)
    else do
      when (s.sharing = .all) (modify fun s => { s with codec := some { c with error := .error } })
      fail .notadb
  | _, _ => return (0, .delete)

/-- The loop over the earlier versions; `rc` is what the last check has returned. -/
def findCompat (pass : Nat) : ResultCode → List Nat → M ρ (Nat × Int × JournalMode)
  | _, [] => fail .notadb
  | rc, compat :: rest => do
    if (w (.formatCompat compat)).rc ≠ .ok then fail rc
    else match ← attempt (checkConnection w pass compat) with
      | .ok found => return (compat, found)
      | .error rc => findCompat pass rc rest

def setCompat : M ρ Unit := do
  request w .setCompat
  modify fun s => { s with codec := s.codec.map fun c => { c with compat := compat } }

def File.setJournalMode (mode : JournalMode) : File ρ → File ρ
  | .keyed img => .keyed { img with journalMode := mode }
  | f => f

def setJournalMode (mode : JournalMode) : M ρ Unit := do
  let _ ← access w step
  when ((w step).rc = .ok ∨ (w step).done) do
    setDisk fun d => { d with main := d.main.setJournalMode mode }
  request w step

/-- The key of an `ATTACH` without one: the password if it is stored, else what was derived from it
when the journal mode was set. -/
def attachKey (storePass : Bool) (main : Image ρ) : Key :=
  if storePass then .password pass else .keyspec main.kdf main.pass main.salt

/-- `ATTACH DATABASE`, which reads the schema of a file that is there. -/
def attach : M ρ Unit := do
  request w .attach
  let s ← get
  match s.disk.main with
  | .keyed main => do
    let codec : Codec := ⟨4, attachKey pass s.storePass main, false, .ok⟩
    match s.disk.migrated with
    | .keyed img =>
      if codec.opens img then
        modify fun s => { s with attached := some { codec with keyUsed := true } }
      else fail .notadb
    | _ => do
      setDisk fun d => { d with migrated := .empty }
      modify fun s => { s with attached := some codec }
  | _ => fail .notadb

/-- `sqlite3_key_v2` on the attached database. -/
def keyMigrated : M ρ Unit := do
  request w .key
  modify fun s => { s with attached := s.attached.map fun c =>
    if c.keyUsed ∨ s.sharing.ofAttached then c else ⟨4, .password pass, false, .ok⟩ }

/-- The attached database, which is new if the file is empty. -/
def openMigrated : M ρ (Image ρ) := do
  let s ← get
  match s.attached, s.disk.migrated with
  | some c, .keyed img => if c.opens img then return img else fail .notadb
  | some ⟨_, .password pass, _, _⟩, _ =>
    return ⟨4, 4, pass, (w .exportTables).salt, .delete, ⟨[], 0⟩⟩
  | some ⟨_, .keyspec kdf pass salt, _, _⟩, _ => return ⟨4, kdf, pass, salt, .delete, ⟨[], 0⟩⟩
  | none, _ => fail .error

/-- `sqlcipher_export`: a table that exists already stops it. Each statement is committed on its
own. -/
def sqlcipherExport : M ρ Unit := do
  let content ← access w .exportTables
  let img ← openMigrated w
  let fresh := content.tables.takeWhile fun t => t.1 ∉ img.content.tables.map Prod.fst
  let copied := if (w .exportTables).rc = .ok then fresh else fresh.take (w .exportTables).count
  setDisk fun d => { d with migrated := .keyed { img with
    content := { img.content with tables := img.content.tables ++ copied } } }
  request w .exportTables
  if fresh.length = content.tables.length then return () else fail .error

def setUserVersion (userVersion : Int) : M ρ Unit := do
  let img ← openMigrated w
  when ((w .setUserVersion).rc = .ok ∨ (w .setUserVersion).done) do
    setDisk fun d => { d with migrated := .keyed { img with
      content := { img.content with userVersion := userVersion } } }
  request w .setUserVersion

def pagerReset : M ρ Unit := modify fun s => { s with cache := none }

def setPageSize : M ρ Unit := do
  request w .setPageSize
  pagerReset

def getKey : M ρ Key := do
  let img ← openMigrated w
  request w .getKey
  return .keyspec img.kdf img.pass img.salt

/-- `sqlcipherCodecAttach` on the main database. With a shared cache the codec stays; otherwise it
is freed, and a new one attached if possible, without a result. -/
def codecAttach (key : Key) : M ρ Unit := do
  modify fun s => { s with codec := s.codec.map fun c => { c with keyUsed := false } }
  let s ← get
  when (s.sharing.ofMain = false) do
    modify fun s => { s with
      ctxFreed := true
      codec := if (w .codecAttach).rc = .ok then some ⟨4, key, false, .ok⟩ else none }

def closeFiles : M ρ Unit := modify fun s => { s with fd := false }

def rename : M ρ Unit := do
  request w .rename
  let s ← get
  match s.disk.migrated with
  | .absent => fail .error
  | f => setDisk fun _ => ⟨f, .absent⟩

/-- `sqlite3OsOpen` on the two files, which creates the first one anew. -/
def reopenFiles : M ρ Unit := do
  request w .openSource
  setDisk fun d => { d with migrated := .empty }
  request w .openDest
  modify fun s => { s with fd := true }

/-- The part from the label `migrate` up to the key of the new database. -/
def prepare (userVersion : Int) : M ρ Key := do
  request w .formatTemp
  request w .copyFilename
  modify fun s => { s with named := true }
  request w .formatAttach
  request w .formatUserVersion
  setCompat w compat
  setJournalMode w .journalDelete .delete
  attach w pass
  keyMigrated w pass
  sqlcipherExport w
  setUserVersion w userVersion
  request w .inTransaction
  setPageSize w
  getKey w

/-- The part from there to the label `handle_error`. -/
def replaceMain (key : Key) : M ρ Unit := do
  codecAttach w key
  closeFiles
  rename w
  reopenFiles w
  pagerReset

def migrate (userVersion : Int) : M ρ Unit := do
  let key ← prepare w pass compat userVersion
  replaceMain w key

def firstError (rc rc' : Except ResultCode Unit) : Except ResultCode Unit :=
  match rc with
  | .ok () => rc'
  | .error e => .error e

def detach : M ρ Unit := do
  let s ← get
  if s.attached.isSome then do
    request w .detach
    modify fun s => { s with attached := none }
  else fail .error

def restoreJournalMode (journalMode : JournalMode) : M ρ Unit :=
  when ((w .formatJournalMode).rc = .ok) (setJournalMode w .journalRestore journalMode)

def deleteMigrated : M ρ Unit := do
  let s ← get
  when (s.named = true ∧ (w .deleteMigrated).rc = .ok) do
    setDisk fun d => { d with migrated := .absent }

def report : Except ResultCode Unit → M ρ Unit
  | .ok () => return ()
  | .error e => do
    let s ← get
    if s.ctxFreed then undefined
    else do
      pagerReset
      modify fun s => { s with codec := s.codec.map fun c => { c with error := e } }
      fail e

def handleError (journalMode : JournalMode) (rc : Except ResultCode Unit) : M ρ Unit := do
  let rcDetach ← attempt (detach w)
  let rcJournal ← attempt (restoreJournalMode w journalMode)
  deleteMigrated w
  report (firstError (firstError rc rcDetach) rcJournal)

/-- `sqlcipher_codec_ctx_migrate`, called with a context whose password has not been used up. -/
def codecCtxMigrate : M ρ Unit := do
  request w .copyPass
  match ← attempt (checkConnection w pass 4) with
  | .ok _ => return ()
  | .error rc => do
    let (compat, userVersion, journalMode) ← findCompat w pass rc [3, 2, 1]
    let rc ← attempt (migrate w pass compat userVersion)
    handleError w journalMode rc

def reads : List (Step → Answer) → M ρ (List (Except ResultCode (Content ρ)))
  | [] => return []
  | w :: ws => do
    let r ← attempt (access w .read)
    let rs ← reads ws
    return r :: rs

end SqlCipher.Migrate
