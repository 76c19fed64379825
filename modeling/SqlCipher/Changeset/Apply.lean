import Mathlib.Logic.Function.Basic
import SqlCipher.Library.Proc

/-!
# Applying a changeset

The model of `sqlite3changeset_apply_v2()` in `sqlite3session.c`. The changes of each table run as
INSERT, UPDATE and DELETE statements, the conflict handler is asked about those that do not fit, and
changes that hit a constraint are retried once the table has been read: in rounds, then with one row
set to random values under a savepoint, then a last time.

A changeset is given as the iterator hands it out: by tables, the changes decoded, and the code with
which reading it ends. Undefined fields of a record are `none`. Keys have no NULL, and all headers
are of the same kind. Memory for the buffers is there. Left out: the columns of `sqlite_stat1`, the
conversion of values by column affinity, and the reuse of prepared UPDATE statements
(`UpdateCache`).
-/

namespace SqlCipher.Changeset

/-! ## Changesets -/

inductive Op where
  | insert | update | delete
  deriving DecidableEq, Repr

/-- A change as the iterator hands it out: `apValue[]` holds the old and the new record. -/
structure Change (V : Type) where
  op : Op
  old : List (Option V)
  new : List (Option V)
  deriving DecidableEq, Repr

structure Header (N : Type) where
  tab : N
  /-- The columns of the key. Their order in it, which `abPK` has too, is left out. -/
  pk : List Bool
  deriving DecidableEq, Repr

structure Group (N V : Type) extends Header N where
  changes : List (Change V)

structure Stream (N V : Type) where
  patchset : Bool
  groups : List (Group N V)

variable (pk : List Bool)

def keyFields {α : Type} (fields : List α) : List α :=
  ((pk.zip fields).filter (·.1)).map (·.2)

def nonKey {V : Type} (fields : List (Option V)) : List (Option V) :=
  List.zipWith (fun b f => if b then none else f) pk fields

def defined {V : Type} (fields : List (Option V)) : Option (List V) := fields.mapM id

/-! ## Tables -/

abbrev Key (V : Type) := List V

abbrev Row (V : Type) := List V

abbrev Content (V : Type) := Key V → Option (Row V)

structure Table (V : Type) where
  pk : List Bool
  /-- The normal form of a key: keys that the database takes for equal have the same. -/
  norm : Key V → Key V
  /-- The operator `IS` with the affinity and the collation of a column. -/
  same : Nat → V → V → Bool
  null : V
  dflt : List V
  /-- Storing a row under a key would violate a UNIQUE constraint against another row. -/
  unique : Content V → Key V → Row V → Bool
  /-- The columns that are part of a UNIQUE constraint. -/
  uniqueColumn : Nat → Bool

namespace Table

variable {V : Type} (t : Table V)

def holds (fields : List (Option V)) (row : Row V) : Bool :=
  (fields.zip row).zipIdx.all fun ((f, v), i) =>
    match f with
    | none => true
    | some x => t.same i v x

def assign : List Bool → List (Option V) → Row V → Row V
  | b :: pk, f :: fields, v :: row => (if b then v else f.getD v) :: assign pk fields row
  | _, _, row => row

end Table

/-- What a statement that writes came to: `sqlite3_changes()`, or a constraint. -/
inductive Outcome where
  | changed | unchanged | constraint
  deriving DecidableEq, Repr

namespace Table

variable {V : Type} [DecidableEq V] (t : Table V) (key : Key V)

/-- `DELETE FROM t WHERE key = ? AND (any OR others IS ?)`. -/
def delete (any : Bool) (others : List (Option V)) (rows : Content V) : Outcome × Content V :=
  match rows (t.norm key) with
  | none => (.unchanged, rows)
  | some row =>
    if any || t.holds others row then
      (.changed, Function.update rows (t.norm key) none)
    else
      (.unchanged, rows)

/-- `UPDATE t SET ... WHERE key IS ? AND others IS ?`, where `set` gives the new row. -/
def update (others : List (Option V)) (set : Row V → Row V) (rows : Content V) :
    Outcome × Content V :=
  match rows (t.norm key) with
  | none => (.unchanged, rows)
  | some row =>
    if t.holds others row then
      if t.unique rows (t.norm key) (set row) then
        (.constraint, rows)
      else
        (.changed, Function.update rows (t.norm key) (some (set row)))
    else
      (.unchanged, rows)

/-- `INSERT INTO t(...) VALUES(...)`: columns that the change does not know take their default. -/
def insert (values : List V) (rows : Content V) : Outcome × Content V :=
  let row := values ++ t.dflt.drop values.length
  if (rows (t.norm key)).isSome || t.unique rows (t.norm key) row then
    (.constraint, rows)
  else
    (.changed, Function.update rows (t.norm key) (some row))

end Table

/-! ## The connection -/

inductive ErrorCode where
  | error | abort | busy | nomem | readonly | ioerr | corrupt | full | schema | constraint | misuse
  deriving DecidableEq, Repr

inductive SavepointName where
  | changesetApply | replaceOp | updateOp | user (n : Nat)
  deriving DecidableEq, Repr

/-- The statements that a call runs. `finish` is the RELEASE of `changeset_apply` that commits. -/
inductive Sql where
  | savepoint (name : SavepointName)
  | release (name : SavepointName)
  | rollbackTo (name : SavepointName)
  | finish
  | deferForeignKeys (on : Bool)
  | prepare
  | select
  | write
  deriving DecidableEq, Repr

/-- A failing statement has no effect, or takes the whole transaction back. -/
structure Fault where
  code : ErrorCode
  rollback : Bool
  deriving DecidableEq, Repr

inductive ConflictType where
  | data | notfound | conflict | constraint | foreignKey
  deriving DecidableEq, Repr

inductive Answer where
  | omitted | replace | abort | other
  deriving DecidableEq, Repr

structure Flags where
  noSavepoint : Bool
  ignoreNoop : Bool
  fkNoAction : Bool
  noUpdateLoop : Bool
  rebase : Bool
  deriving DecidableEq, Repr

/-- What the call meets: the n-th statement, the n-th question to the conflict handler. -/
structure World (N V : Type) where
  schema : N → Option (Table V)
  fault : Nat → Sql → Option Fault
  filter : N → Bool
  filterIter : Nat → Change V → Bool
  conflict : Nat → ConflictType → Option (Change V) → Option (Row V) → Answer
  random : Nat → Nat → V → V
  deferredFks : (N → Content V) → Nat

structure RebaseEntry (N V : Type) where
  header : Header N
  isDelete : Bool
  replace : Bool
  record : List (Option V)
  deriving DecidableEq, Repr

/-- The record that `sessionRebaseAdd` writes for a change. -/
def RebaseEntry.of {N V : Type} (header : Header N) (replace : Bool) (c : Change V) :
    RebaseEntry N V where
  header := header
  isDelete := c.op = .delete
  replace := replace
  record := match c.op with
    | .delete => c.old
    | .insert => c.new
    | .update => List.zipWith (fun b (f : Option V × Option V) => if b then f.1 else f.2)
        header.pk (c.old.zip c.new)

/-- What happened to a change: the answer of the handler, a change that would do nothing, a
constraint that its statement met (after a REPLACE or not). -/
inductive Event (N V : Type) where
  | answered (header : Header N) (type : ConflictType) (c : Change V) (a : Answer)
  | noop (header : Header N) (c : Change V)
  | constraint (header : Header N) (c : Change V) (replaced : Bool)
  deriving DecidableEq, Repr

structure State (N V : Type) where
  db : N → Content V
  /-- The open savepoints, the last one first, with the content at which each was opened. -/
  savepoints : List (SavepointName × (N → Content V))
  begun : Option (N → Content V)
  fkNoAction : Bool
  deferFks : Bool
  statements : Nat
  asked : Nat
  constraints : List (Change V)
  deferConstraints : Bool
  rebase : List (RebaseEntry N V)
  events : List (Event N V)

abbrev Call (N V α : Type) := Proc (State N V) ErrorCode α

structure Env (N V : Type) extends Header N where
  world : World N V
  flags : Flags
  patchset : Bool
  table : Table V

variable {N V : Type} [DecidableEq N] [DecidableEq V]

open Proc

def State.start (s : State N V) : N → Content V :=
  s.begun.getD ((s.savepoints.getLast?.map (·.2)).getD s.db)

variable (w : World N V)

def statement (q : Sql) : Call N V Unit := do
  let s ← get
  modify fun s => { s with statements := s.statements + 1 }
  match w.fault s.statements q with
  | none => pure ()
  | some f => do
    when (f.rollback = true) (modify fun s =>
      { s with
        db := s.start
        savepoints := []
        begun := none })
    fail f.code

variable (name : SavepointName)

def savepoint : Call N V Unit := do
  statement w (.savepoint name)
  modify fun s => { s with savepoints := (name, s.db) :: s.savepoints }

/-- The savepoints from the last one with this name on. -/
def fromSavepoint (name : SavepointName) :
    List (SavepointName × (N → Content V)) → List (SavepointName × (N → Content V))
  | [] => []
  | p :: ps => if p.1 = name then p :: ps else fromSavepoint name ps

def releaseAs (q : Sql) (name : SavepointName) : Call N V Unit := do
  statement w q
  let s ← get
  match fromSavepoint name s.savepoints with
  | [] => fail .error
  | _ :: rest => modify fun s => { s with savepoints := rest }

def release : Call N V Unit :=
  releaseAs w (.release name) name

def rollbackTo : Call N V Unit := do
  statement w (.rollbackTo name)
  let s ← get
  match fromSavepoint name s.savepoints with
  | [] => fail .error
  | p :: rest => modify fun s => { s with db := p.2, savepoints := p :: rest }

def setDeferForeignKeys (on : Bool) : Call N V Unit := do
  statement w (.deferForeignKeys on)
  modify fun s => { s with deferFks := on }

variable (e : Env N V)

def write (f : Content V → Outcome × Content V) : Call N V Outcome := do
  match ← attempt (statement e.world .write) with
  | .error .constraint => pure .constraint
  | .error code => fail code
  | .ok () =>
    let s ← get
    let r := f (s.db e.tab)
    modify fun s => { s with db := Function.update s.db e.tab r.2 }
    pure r.1

/-! ## Conflicts -/

/-- `sessionBindRow`: an undefined field is a sign of a corrupt changeset. -/
def bindRow (fields : List (Option V)) : Call N V (List V) :=
  match defined fields with
  | some values => pure values
  | none => fail .corrupt

variable (c : Change V)

def Change.keyRecord : List (Option V) :=
  if c.op = .insert then c.new else c.old

def bindKey (fields : List (Option V)) : Call N V (Key V) :=
  bindRow (keyFields e.pk fields)

def seekToRow : Call N V (Option (Row V)) := do
  let key ← bindKey e c.keyRecord
  statement e.world .select
  let s ← get
  pure (s.db e.tab (e.table.norm key))

/-- The last column of the SELECT: for a DELETE its parameters are not bound. -/
def noopTest (row : Row V) : Bool :=
  e.table.holds
    (nonKey e.pk (if c.op = .delete then e.pk.map fun _ => some e.table.null else c.new)) row

def rebaseAdd (replace : Bool) (c : Change V) : Call N V Unit :=
  when (e.flags.rebase = true) (modify fun s =>
    { s with rebase := s.rebase ++ [.of e.toHeader replace c] })

def ask (type : ConflictType) (c : Change V) (row : Option (Row V)) :
    Call N V Answer := do
  let s ← get
  let a := e.world.conflict s.asked type (some c) row
  modify fun s =>
    { s with
      asked := s.asked + 1
      events := .answered e.toHeader type c a :: s.events }
  pure a

def resolve : Answer → Call N V Bool
  | .replace => do
    rebaseAdd e true c
    pure true
  | .omitted => do
    rebaseAdd e false c
    pure false
  | .abort => fail .abort
  | .other => fail .misuse

/-- The changes that do not fit: a row that is not as expected, or a constraint. -/
inductive Misfit where
  | data | conflict
  deriving DecidableEq, Repr

def skipNoop : Call N V Bool := do
  modify fun s => { s with events := .noop e.toHeader c :: s.events }
  resolve e c .omitted

variable (m : Misfit)

def rowConflict (c : Change V) (row : Row V) : Call N V Bool :=
  if e.flags.ignoreNoop = true ∧ noopTest e c row = true then skipNoop e c
  else do
    let a ← ask e (if m = .data then .data else .conflict) c (some row)
    resolve e c a

def missingRow (c : Change V) : Call N V Bool := do
  let s ← get
  if s.deferConstraints = true ∧ m = .conflict then do
    modify fun s => { s with constraints := s.constraints ++ [c] }
    pure false
  else if e.flags.ignoreNoop = true ∧ c.op = .delete ∧ m = .data then skipNoop e c
  else do
    let a ← ask e (if m = .data then .notfound else .constraint) c none
    if a = .replace then fail .misuse else resolve e c a

/-- `sessionConflictHandler`. With `seek` the row with the key of the change is looked for; `true`
means REPLACE. -/
def conflictHandler (seek : Bool) (c : Change V) : Call N V Bool :=
  if seek = true then do
    match ← seekToRow e c with
    | some row => rowConflict e m c row
    | none => missingRow e m c
  else missingRow e m c

/-! ## One change -/

/-- The UPDATE statement of `sessionUpdateFind`: it has to set a column. -/
def prepareUpdate : Call N V Unit := do
  when (c.new.all (·.isNone) = true) (fail .corrupt)
  statement e.world .prepare
  when ((nonKey e.pk c.new).all (·.isNone) = true) (fail .error)

def afterWrite (first seekConflict : Bool) (c : Change V) : Outcome → Call N V Bool
  | .changed => pure false
  | .unchanged => conflictHandler e .data first c
  | .constraint => do
    modify fun s => { s with events := .constraint e.toHeader c (!first) :: s.events }
    conflictHandler e .conflict seekConflict c

/-- The UPDATE of a change. A key field that is undefined leaves its parameter NULL. -/
def writeUpdate (any : Bool) : Call N V Outcome :=
  match defined (keyFields e.pk c.old) with
  | some key =>
    write e (e.table.update key (if any then [] else nonKey e.pk c.old) (Table.assign e.pk c.new))
  | none => write e fun rows => (.unchanged, rows)

/-- `sessionApplyOneOp`. The first time conflicts are looked for; the second time, after REPLACE,
the row is written whatever it holds. -/
def applyOneOp (first : Bool) : Call N V Bool :=
  match c.op with
  | .delete => do
    let key ← bindKey e c.old
    when (e.patchset = false) (do let _ ← bindRow (N := N) c.old)
    let r ← write e (e.table.delete key (!first || e.patchset) (nonKey e.pk c.old))
    afterWrite e first false c r
  | .update => do
    prepareUpdate e c
    let r ← writeUpdate e c (!first || e.patchset)
    afterWrite e first false c r
  | .insert => do
    let values ← bindRow c.new
    let key ← bindKey e c.new
    let r ← write e (e.table.insert key values)
    afterWrite e first first c r

def replaceRow : Call N V Unit := do
  savepoint e.world .replaceOp
  let key ← bindKey e c.new
  let r ← write e (e.table.delete key true [])
  when (r = .constraint) (fail .constraint)
  let _ ← applyOneOp e c false
  release e.world .replaceOp

def applyOneWithRetry : Call N V Unit := do
  let again ← applyOneOp e c true
  when (again = true) (
    if c.op = .insert then replaceRow e c
    else do
      let _ ← applyOneOp e c false)

/-! ## Retries -/

def applyRetryBuffer (cs : List (Change V)) (skip : Option Nat) : Call N V Unit :=
  forEach (applyOneWithRetry e) (skip.elim cs cs.eraseIdx)

/-- The loop of `sessionRetryConstraints` over rounds, which ends when a round applies none of the
`n` changes kept back. -/
def retryRounds (e : Env N V) : Nat → Option Nat → Call N V Unit
  | 0, _ => pure ()
  | n + 1, skip => do
    let s ← get
    if s.constraints = [] then pure ()
    else do
      modify fun s => { s with constraints := [] }
      applyRetryBuffer e s.constraints skip
      let s' ← get
      if s.constraints.length ≤ s'.constraints.length then pure ()
      else retryRounds e n none

def updateIndex (cs : List (Change V)) (i : Nat) : Option (Change V × Nat) :=
  (cs.zipIdx.filter fun p => p.1.op = .update)[i]?

/-- The columns of an UPDATE that are in a UNIQUE constraint, with random values. -/
def placeholder (n : Nat) (c : Change V) : List (Option V) :=
  (nonKey e.pk c.new).zipIdx.map fun p =>
    if e.table.uniqueColumn p.2 then p.1.map (e.world.random n p.2) else none

/-- `sessionUpdateToUpdate`: set the unique columns to random values. `none` is a constraint; the
key is for the second UPDATE. -/
def updateToUpdate : Call N V (Option (Key V)) := do
  statement e.world .prepare
  let s ← get
  let rand := placeholder e s.statements c
  if rand.all (·.isNone) then pure none
  else do
    statement e.world .prepare
    let key ← bindKey e c.old
    let r ← write e (e.table.update key [] (Table.assign e.pk rand))
    pure (if r = .constraint then none else some key)

def finalUpdate : Option (Key V) → Call N V Outcome
  | none => pure .constraint
  | some key => write e (e.table.update key [] (Table.assign e.pk c.new))

/-- The end of one attempt: the final UPDATE, or what was done is taken back. -/
def closeUpdate (cons : List (Change V)) (key : Option (Key V)) :
    Call N V Bool := do
  let r ← finalUpdate e c key
  if r = .constraint then do
    rollbackTo e.world .updateOp
    modify fun s => { s with constraints := cons }
    release e.world .updateOp
    pure false
  else do
    release e.world .updateOp
    pure true

/-- One attempt of step (2), with the row of the UPDATE `c` at index `skip` out of the way. -/
def tryUpdate (skip : Nat) : Call N V Bool := do
  savepoint e.world .updateOp
  let key ← updateToUpdate e c
  let s ← get
  when (key.isSome = true) (retryRounds e s.constraints.length (some skip))
  closeUpdate e c s.constraints key

/-- Step (2): each UPDATE kept back is tried, from the first again after a success. An attempt takes
a change from the buffer or moves on, so the number of pairs is enough for `n`. -/
def retryUpdates (e : Env N V) : Nat → Nat → Call N V Unit
  | 0, _ => pure ()
  | n + 1, iUpdate => do
    let s ← get
    match updateIndex s.constraints iUpdate with
    | none => pure ()
    | some (c, skip) => do
      let done ← tryUpdate e c skip
      retryUpdates e n (if done then 0 else iUpdate + 1)

def retryConstraints : Call N V Unit := do
  let s ← get
  retryRounds e s.constraints.length none
  let s ← get
  when (e.flags.noUpdateLoop = false) (
    retryUpdates e ((s.constraints.length + 1) * (s.constraints.length + 1)) 0)
  let s ← get
  when (s.constraints ≠ []) (do
    modify fun s => { s with constraints := [], deferConstraints := false }
    applyRetryBuffer e s.constraints none)

/-! ## The whole changeset -/

def minColumns : Nat := (pk.reverse.dropWhile (! ·)).length

variable (flags : Flags)

def matchTable (patchset : Bool) (g : Group N V) : Option (Env N V) :=
  (w.schema g.tab).bind fun t =>
    if g.pk.length ≤ t.pk.length ∧ minColumns t.pk ≤ g.pk.length ∧
        t.pk.take g.pk.length = g.pk then
      some { g.toHeader with world := w, flags, patchset, table := t }
    else none

/-- The start of a table: `none` if it is filtered out or does not match the changeset. -/
def openTable (patchset : Bool) (g : Group N V) :
    Call N V (Option (Env N V)) := do
  modify fun s => { s with deferConstraints := true, constraints := [] }
  if w.filter g.tab = false then pure none
  else do
    statement w .prepare
    let e := matchTable w flags patchset g
    when (e.isSome = true) (forEach (fun _ => statement w .prepare) [(), (), ()])
    pure e

def retryTable : Option (Env N V) → Call N V Unit
  | none => pure ()
  | some e => retryConstraints e

def applyChange : Call N V Unit := do
  let s ← get
  when (e.world.filterIter s.asked c = true) (applyOneWithRetry e c)

def applyTable (e : Option (Env N V)) (cs : List (Change V)) : Call N V Unit :=
  match e with
  | none => pure ()
  | some e => forEach (applyChange e) cs

def applyGroups (w : World N V) (flags : Flags) (patchset : Bool) :
    Option (Env N V) → List (Group N V) → Call N V (Option (Env N V))
  | e, [] => pure e
  | e, g :: gs =>
    if g.changes = [] then applyGroups w flags patchset e gs
    else do
      retryTable e
      let e' ← openTable w flags patchset g
      applyTable e' g.changes
      applyGroups w flags patchset e' gs

def checkForeignKeys : Call N V Unit := do
  let s ← get
  when (w.deferredFks s.db ≠ 0) (do
    modify fun s => { s with asked := s.asked + 1 }
    when (w.conflict s.asked .foreignKey none none ≠ .omitted) (fail .constraint))

/-- `sqlite3changeset_finalize()` returns the error that ended the reading. -/
def endOfInput : Option ErrorCode → Call N V Unit
  | none => pure ()
  | some code => fail code

variable (cs : Stream N V) (rc : Option ErrorCode)

/-- The part of `sessionChangesetApply` that a failure ends. `rc` is how reading ended. -/
def applyBody :
    Call N V Unit := do
  when (flags.noSavepoint = false) (savepoint w .changesetApply)
  setDeferForeignKeys w true
  let e ← applyGroups w flags cs.patchset none cs.groups
  endOfInput rc
  retryTable e
  checkForeignKeys w

def undoApply (code : ErrorCode) : Call N V (Except ErrorCode Unit) := do
  let _ ← attempt (rollbackTo w .changesetApply)
  let _ ← attempt (release w .changesetApply)
  pure (.error code)

def closeApply : Except ErrorCode Unit → Call N V (Except ErrorCode Unit)
  | .error code => undoApply w code
  | .ok () => do
    match ← attempt (releaseAs w .finish .changesetApply) with
    | .ok () => pure (.ok ())
    | .error code => undoApply w code

def firstError (r r' : Except ErrorCode Unit) : Except ErrorCode Unit :=
  match r with
  | .ok () => r'
  | .error code => .error code

/-- The call between the two settings of the flag for foreign key actions. -/
def applyScope :
    Call N V (Except ErrorCode Unit) := do
  let r ← attempt (applyBody w flags cs rc)
  let r' ← attempt (setDeferForeignKeys w false)
  if flags.noSavepoint = true then pure (firstError r r') else closeApply w (firstError r r')

def changesetApply :
    Call N V Unit := do
  let s ← get
  modify fun s =>
    { s with
      constraints := []
      rebase := []
      deferConstraints := false
      fkNoAction := s.fkNoAction || flags.fkNoAction }
  let r ← applyScope w flags cs rc
  when (flags.fkNoAction = true ∧ s.fkNoAction = false) (modify fun s =>
    { s with fkNoAction := false })
  ofExcept r

/-! ## A small table -/

/-- A table with a key column and a UNIQUE column, for keys up to 3. Zero stands for NULL. -/
def Table.toy : Table Nat where
  pk := [true, false]
  norm := id
  same := fun _ v x => v == x
  null := 0
  dflt := [0, 0]
  unique := fun rows key row => [1, 2, 3].any fun k =>
    decide ([k] ≠ key) && (rows [k]).any fun other => other[1]? == row[1]?
  uniqueColumn := fun i => i == 1

def World.toy (answers : List Answer) (fault : Nat → Sql → Option Fault) : World Unit Nat where
  schema := fun _ => some Table.toy
  fault := fault
  filter := fun _ => true
  filterIter := fun _ _ => true
  conflict := fun n _ _ _ => answers.getD n .omitted
  random := fun n i v => 100 + n + i + v
  deferredFks := fun _ => 0

def State.toy : State Unit Nat where
  db := fun _ key => if key = [1] then some [1, 10] else if key = [2] then some [2, 20] else none
  savepoints := []
  begun := none
  fkNoAction := false
  deferFks := false
  statements := 0
  asked := 0
  constraints := []
  deferConstraints := false
  rebase := []
  events := []

def Flags.none : Flags where
  noSavepoint := false
  ignoreNoop := false
  fkNoAction := false
  noUpdateLoop := false
  rebase := true

def Stream.toy (changes : List (Change Nat)) : Stream Unit Nat where
  patchset := false
  groups := [{ tab := (), pk := [true, false], changes }]

end SqlCipher.Changeset
