import Mathlib
import SqlCipher.Library.Run

/-!
# The protocol of `sqlite3_rsync`

The two processes of `sqlite3_rsync.c` and the pipes between them. The replica hashes its pages, the
origin asks for details of ranges that differ and at last sends the pages. Each reads its pipe at
its own pace, and the connection may break at any message, or within one. The origin's statements
are answered by a world; those of the replica succeed.

The databases have the same page size. A commit of the replica ends with what its pager writes to
page 1 (`pager_write_changecounter` in `pager.c`). Left out: `--wal-only`, the communication check
and the statistics.
-/

namespace SqlCipher.Rsync

abbrev Content := List UInt8

structure Db where
  nPage : Nat
  page : Nat → Content

/-- What both sides agree on, and the snapshot that the origin has. -/
structure Config (H : Type) where
  szPage : Nat
  hash : Content → H
  agghash : List H → H
  hash_injective : hash.Injective
  agghash_injective : ∀ l l' : List Content, agghash (l.map hash) = agghash (l'.map hash) → l = l'
  /-- The origin is the side that was started by the other one. -/
  isRemote : Bool
  origin : Db

variable {H : Type}

def Config.lockBytePage (cfg : Config H) : Nat := 2 ^ 30 / cfg.szPage + 1

def Config.data (cfg : Config H) (db : Db) (n : Nat) : Content :=
  if n = cfg.lockBytePage then List.replicate cfg.szPage 0 else db.page n

def Config.pages (cfg : Config H) (db : Db) (first count : Nat) : List Content :=
  ((List.range' first count).filter fun n => 1 ≤ n ∧ n ≤ db.nPage).map (cfg.data db)

/-- `hash(data)` of one page, or `agghash(hash(data))` of several; `NULL` of none. -/
def Config.hashOf (cfg : Config H) (db : Db) (first count : Nat) : Option H :=
  match cfg.pages db first count with
  | [] => none
  | c :: cs => some (if count = 1 then cfg.hash c else cfg.agghash ((c :: cs).map cfg.hash))

inductive OriginMsg where
  | begin (protocol nPage : Nat)
  | error
  | detail (fpg npg : Nat)
  | ready
  | page (pgno : Nat) (data : Content)
  | txn (nPage : Nat)
  | «end»
  deriving DecidableEq

inductive ReplicaMsg (H : Type) where
  | begin (protocol : Nat)
  | config (fpg npg : Nat)
  | hash (h : H)
  | ready

/-- What the origin asks of its database while it handles one message. -/
inductive Request where
  | «open» | create | prepareCheck | prepareInsert | prepareMulti | check | insert
  | prepareDetail
  | detailRow (k : Nat)
  | deleteDetail | tail | lockByte | preparePages
  | pageRow (k : Nat)
  deriving DecidableEq

/-- Success, `SQLITE_ERROR`, or another error. -/
inductive Answer where
  | ok | error | failure
  deriving DecidableEq

structure Origin where
  protocol : Nat
  iHash : Nat
  nHash : Nat
  mxHash : Nat
  badHash : Option (List (Nat × Nat))
  multi : Bool
  /-- An error has been counted, or the input has ended. -/
  failed : Bool
  count : Nat
  out : List OriginMsg

variable [DecidableEq H] (cfg : Config H) (w : Nat → Request → Answer)

/-- The error goes to the other side only if that is the one with the terminal. -/
def Origin.reportError (o : Origin) : Origin :=
  { o with failed := true, out := o.out ++ if cfg.isRemote then [.error] else [] }

/-- A statement is prepared or run. An error is reported, and what was to be done is not. -/
def Origin.runSql (q : Request) (f : Origin → Origin) (o : Origin) : Origin :=
  if w o.count q = .ok then f o else o.reportError cfg

/-- The table and the statements for `REPLICA_HASH` are made when the first one arrives. -/
def Origin.prepareHash (f : Origin → Origin) (o : Origin) : Origin :=
  if o.badHash.isSome then f o
  else o.runSql cfg w .create <| Origin.runSql cfg w .prepareCheck <|
    Origin.runSql cfg w .prepareInsert fun o => f { o with badHash := some [] }

def Origin.prepareMulti (f : Origin → Origin) (o : Origin) : Origin :=
  if 1 < o.nHash ∧ o.multi = false then
    o.runSql cfg w .prepareMulti fun o => f { o with multi := true }
  else f o

/-- Of the errors of `sqlite3_step` only `SQLITE_ERROR` is reported. -/
def Origin.checkHash (h : H) (o : Origin) : Bool × Origin :=
  match w o.count .check with
  | .ok => (cfg.hashOf cfg.origin o.iHash o.nHash = some h, o)
  | .error => (false, o.reportError cfg)
  | .failure => (false, o)

/-- `INSERT INTO badHash`, of which the page number is the primary key. -/
def Origin.insertBad (o : Origin) : Origin :=
  let bad := o.badHash.getD []
  if bad.any (·.1 = o.iHash) then o.reportError cfg
  else o.runSql cfg w .insert fun o => { o with badHash := some ((o.iHash, o.nHash) :: bad) }

def Origin.advance (o : Origin) : Origin :=
  { o with mxHash := max o.mxHash (o.iHash + o.nHash), iHash := o.iHash + o.nHash }

def Origin.onHash (h : H) : Origin → Origin :=
  Origin.prepareHash cfg w <| Origin.prepareMulti cfg w fun o =>
    let (bMatch, o) := o.checkHash cfg w h
    (if bMatch then o else o.insertBad cfg w).advance

def fetch {α : Type} (answer : Nat → Answer) : Nat → List α → List α
  | _, [] => []
  | k, x :: xs => if answer k = .ok then x :: fetch answer (k + 1) xs else []

def sorted (rows : List (Nat × Nat)) : List (Nat × Nat) :=
  rows.insertionSort fun x y => x.1 ≤ y.1

/-- The pages from `mxHash` to `nPage`, printed with `%d`: from `2 ^ 31` on they are negative, and
there are no such pages. -/
def tailPages (mxHash nPage : Nat) : List Nat :=
  if 2 ^ 31 ≤ mxHash then []
  else if 2 ^ 31 ≤ nPage then [mxHash]
  else List.range' mxHash (nPage + 1 - mxHash)

def Origin.addTail (o : Origin) : Origin :=
  if o.mxHash ≤ cfg.origin.nPage then
    o.runSql cfg w .tail fun o => { o with
      badHash := o.badHash.map ((tailPages o.mxHash cfg.origin.nPage).map (·, 1) ++ ·) }
  else o

def Origin.dropLockByte (o : Origin) : Origin :=
  o.runSql cfg w .lockByte fun o => { o with
    badHash := o.badHash.map (·.filter (·.1 ≠ cfg.lockBytePage)) }

/-- No more details are needed: the pages are sent. The transaction ends whether or not all could be
read. -/
def Origin.sendPages (o : Origin) : Origin :=
  ((o.addTail cfg w).dropLockByte cfg w).runSql cfg w .preparePages fun o =>
    let rows := (sorted (o.badHash.getD [])).filter fun x => 1 ≤ x.1 ∧ x.1 ≤ cfg.origin.nPage
    let rows := if o.failed then [] else fetch (fun k => w o.count (.pageRow k)) 0 rows
    { o with
      out := o.out ++ rows.map (fun x => .page x.1 (cfg.data cfg.origin x.1)) ++
        [.txn cfg.origin.nPage, .end] }

/-- `REPLICA_READY`. Without a hash before it there is no table. -/
def Origin.onReady (o : Origin) : Origin :=
  match o.badHash with
  | none => o.reportError cfg
  | some bad => o.runSql cfg w .prepareDetail fun o =>
    let rows := fetch (fun k => w o.count (.detailRow k)) 0 (sorted (bad.filter (1 < ·.2)))
    if rows = [] then o.sendPages cfg w
    else
      let o : Origin := { o with out := o.out ++ rows.map fun x => .detail x.1 x.2 }
      let o : Origin := o.runSql cfg w .deleteDetail fun o =>
        { o with badHash := some (bad.filter (·.2 ≤ 1)) }
      { o with out := o.out ++ [.ready] }

/-- `originSide`, for one message. -/
def Origin.read (m : ReplicaMsg H) (o : Origin) : Origin :=
  let o' : Origin := match m with
    | .begin protocol =>
      if protocol < o.protocol then
        { o with protocol := protocol, out := o.out ++ [.begin protocol cfg.origin.nPage] }
      else o.reportError cfg
    | .config fpg npg => { o with iHash := fpg, nHash := npg }
    | .hash h => o.onHash cfg w h
    | .ready => o.onReady cfg w
  { o' with count := o.count + 1 }

structure Replica (H : Type) where
  protocol : Nat
  start : Db
  db : Db
  wal : Bool
  sendHash : List (Nat × Nat)
  ins : Bool
  /-- Page 1 has been received. -/
  first : Bool
  /-- No page is dirty any more when the transaction is committed: all were spilled to the WAL. -/
  spilled : Bool
  closed : Bool
  committed : Option Db
  out : List (ReplicaMsg H)

def hashMessages (db : Db) : Nat → Nat → List (Nat × Nat) → List (ReplicaMsg H)
  | _, _, [] => [.ready]
  | iHash, nHash, (fpg, npg) :: rows =>
    (if fpg ≠ iHash ∨ npg ≠ nHash then [.config fpg npg] else []) ++
      ((cfg.hashOf db fpg npg).toList.map .hash ++ hashMessages db (fpg + npg) npg rows)

/-- The recursion of `subdivideHashRange`, which has at most one row for each page. -/
def chunks (nChunk iEnd : Nat) : Nat → Nat → List (Nat × Nat)
  | 0, _ => []
  | k + 1, n =>
    (n, min (iEnd - n) nChunk) ::
      if n < iEnd - nChunk then chunks nChunk iEnd k (n + nChunk) else []

def subdivide (fpg npg : Nat) : List (Nat × Nat) :=
  let nChunk := if npg ≤ 30 then 1 else if npg ≤ 1000 then 30 else 1000
  chunks nChunk (fpg + npg) npg fpg

def replaceRows (rows table : List (Nat × Nat)) : List (Nat × Nat) :=
  rows ++ table.filter fun x => x.1 ∉ rows.map Prod.fst

/-- The ranges of the first round. The number of pages is printed with `%d` here too. -/
def firstRows (protocol nRPage : Nat) : List (Nat × Nat) :=
  if protocol < 2 ∨ nRPage ≤ 100 then
    if 2 ^ 31 ≤ nRPage then [(1, 1)] else (List.range' 1 nRPage).map (·, 1)
  else replaceRows (subdivide 2 (nRPage - 1)) [(1, 1)]

def setWal (c : Content) : Content := (c.set 18 2).set 19 2

def Replica.received (r : Replica H) (pgno : Nat) (data : Content) : Content :=
  if pgno = 1 ∧ r.wal = true ∧ data[18]? = some 1 then setWal data else data

/-- `sqlite_dbpage` with `NULL` for page `nOPage + 1`: nothing happens unless this is shorter. -/
def Replica.truncated (r : Replica H) (nOPage : Nat) : Db :=
  if nOPage < r.start.nPage then { r.db with nPage := nOPage } else r.db

def put4byte (c : Content) (pos n : Nat) : Content :=
  (((c.set pos (n / 2 ^ 24).toUInt8).set (pos + 1) (n / 2 ^ 16).toUInt8).set (pos + 2)
    (n / 2 ^ 8).toUInt8).set (pos + 3) n.toUInt8

def get4byte (c : Content) (pos : Nat) : Nat :=
  ((c.drop pos).take 4).foldl (fun n b => 2 ^ 8 * n + b.toNat) 0

def versionNumber : Nat := 3054001

/-- `pager_write_changecounter`. The counter is that of page 1 as it was read from the file, and
one more. -/
def writeChangecounter (read c : Content) : Content :=
  let counter := get4byte read 24 + 1
  put4byte (put4byte (put4byte c 24 counter) 92 counter) 96 versionNumber

/-- With a rollback journal each commit that has changed a page writes page 1 too
(`pager_incr_changecounter`). With a WAL `pagerWalFrames` does, if page 1 is dirty or there are no
dirty pages. -/
def Replica.commit (r : Replica H) (db : Db) : Db :=
  if r.wal = true ∧ r.first = false ∧ r.spilled = false then db
  else { db with
    page := Function.update db.page 1 (writeChangecounter (r.start.page 1) (db.page 1)) }

def Replica.read (m : OriginMsg) (r : Replica H) : Replica H :=
  match m with
  | .begin protocol _ =>
    if r.protocol < protocol then
      { r with ins := false, first := false, out := r.out ++ [.begin r.protocol] }
    else { r with
      protocol := protocol
      db := r.start
      ins := false
      first := false
      out := r.out ++ hashMessages cfg r.start 1 1 (sorted (firstRows protocol r.start.nPage)) }
  | .error | .end => { r with closed := true }
  | .detail fpg npg => { r with sendHash := replaceRows (subdivide fpg npg) r.sendHash }
  | .ready => { r with
      sendHash := []
      out := r.out ++ hashMessages cfg r.db 0 0 (sorted r.sendHash) }
  | .page pgno c => { r with
      ins := true
      first := r.first || pgno == 1
      db := ⟨max r.db.nPage pgno, Function.update r.db.page pgno (r.received pgno c)⟩ }
  | .txn nOPage => { r with
      committed := some (if r.ins then r.commit (r.truncated nOPage) else r.db) }

/-- The connection breaks within a message. The transaction is committed all the same if that is
`ORIGIN_TXN` and no page came before. -/
def Replica.cut (m : OriginMsg) (r : Replica H) : Replica H :=
  match m with
  | .txn _ => { r with closed := true, committed := if r.ins then r.committed else some r.db }
  | _ => { r with closed := true }

structure Sys (H : Type) where
  origin : Origin
  replica : Replica H

/-- A side reads a message, or its connection breaks between or within messages. The origin may
report that. -/
inductive Event where
  | originReads
  | replicaReads
  | originLoses (reports : Bool)
  | replicaLoses (within : Bool)

def step (s : Sys H) : Event → Option (Sys H)
  | .originReads =>
    match s.origin.failed, s.replica.out with
    | false, m :: ms => some ⟨s.origin.read cfg w m, { s.replica with out := ms }⟩
    | _, _ => none
  | .replicaReads =>
    match s.replica.closed, s.origin.out with
    | false, m :: ms => some ⟨{ s.origin with out := ms }, s.replica.read cfg m⟩
    | _, _ => none
  | .originLoses reports =>
    let o := { s.origin with failed := true }
    some { s with origin := if reports then o.reportError cfg else o }
  | .replicaLoses within =>
    match s.replica.closed, within, s.origin.out with
    | false, true, m :: _ => some { s with replica := s.replica.cut m }
    | _, _, _ => some { s with replica := { s.replica with closed := true } }

/-- The origin has its snapshot and proposes a protocol; `db` is the replica when its transaction
begins, with at least one page. -/
def start (protocol replicaProtocol : Nat) (db : Db) (wal spilled : Bool) : Sys H where
  origin :=
    Origin.runSql cfg w .open (fun o => { o with out := [.begin protocol cfg.origin.nPage] })
      ⟨protocol, 1, 1, 0, none, false, false, 0, []⟩
  replica := ⟨replicaProtocol, db, db, wal, [], false, false, spilled, false, none, []⟩

end SqlCipher.Rsync
