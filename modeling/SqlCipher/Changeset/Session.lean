import SqlCipher.Changeset.Record
import SqlCipher.Library.HashTable

/-!
# Sessions

The pre-update hook notes a row when it is first touched, and `sessionGenerateChangeset` compares
what was noted with the rows at the end. An UPDATE is noted under the old key and, as an INSERT,
under the new key. When a column was added, records are extended with the value of its default
expression.

Tables have a primary key of their own and no hidden columns. The hash of a key is any function of
its fields. Memory is there.
-/

namespace SqlCipher.Changeset

open Function

variable {N V : Type}

structure SourceTable (V : Type) where
  table : Table V
  /-- The values of the default expressions of the columns, as a SELECT gives them. -/
  exprs : List V
  rows : Content V

inductive Action (V : Type) where
  | insert (row : Row V)
  | delete (key : Key V)
  | update (key : Key V) (row : Row V)
  /-- Add a column: what the rows have in it, and the value of its default expression. -/
  | addColumn (stored expr : V)
  deriving DecidableEq, Repr

structure Edit (N V : Type) where
  tab : N
  /-- Not from a trigger, and the session is not marked as indirect. -/
  direct : Bool
  action : Action V
  deriving DecidableEq, Repr

namespace SourceTable

variable (t : SourceTable V)

def place (r : Row V) : Key V := t.table.norm (keyFields t.table.pk r)

/-- The calls of the hook: the operation, with the old row or for an INSERT the new one. -/
def touches : Action V → List (Op × Row V)
  | .insert row => [(.insert, row)]
  | .delete key => ((t.rows (t.table.norm key)).map fun row => (Op.delete, row)).toList
  | .update key row =>
    match t.rows (t.table.norm key) with
    | none => []
    | some old => [(.update, old), (.insert, row)]
  | .addColumn _ _ => []

variable [DecidableEq V]

def step : Action V → Option (SourceTable V)
  | .insert row =>
    if row.length = t.table.pk.length ∧ t.rows (t.place row) = none then
      some { t with rows := update t.rows (t.place row) (some row) }
    else none
  | .delete key =>
    (t.rows (t.table.norm key)).map fun _ =>
      { t with rows := update t.rows (t.table.norm key) none }
  | .update key row =>
    if row.length = t.table.pk.length ∧ (t.rows (t.table.norm key)).isSome ∧
        (t.place row = t.table.norm key ∨ t.rows (t.place row) = none) then
      some { t with
        rows := update (update t.rows (t.table.norm key) none) (t.place row)
          (some row) }
    else none
  | .addColumn stored expr =>
    some {
      table := { t.table with pk := t.table.pk ++ [false], dflt := t.table.dflt ++ [stored] }
      exprs := t.exprs ++ [expr]
      rows := fun key => (t.rows key).map (· ++ [stored]) }

end SourceTable

/-- A table of a session: the columns as last seen, and the rows touched. The record of an INSERT
has the key only, others the row as it was. -/
structure SessionTable (N V : Type) where
  tab : N
  pk : Option (List Bool)
  changes : HashTable (Entry V)

structure Session (N V : Type) where
  tables : List (SessionTable N V)
  autoAttach : Bool
  filter : N → Bool
  rc : Option ErrorCode

/-- `sessionUpdateOneChange`: the missing fields get the values of the default expressions. -/
def Entry.fill (exprs : List V) (e : Entry V) : Entry V :=
  { e with record := e.record ++ (exprs.drop e.record.length).map some }

def Entry.noted (pk : List Bool) (op : Op) (direct : Bool) (row : Row V) : Entry V where
  op := op
  indirect := !direct
  record := if op = .insert then keyOnly pk (row.map some) else row.map some

namespace SessionTable

def reinit (t : SourceTable V) (u : SessionTable N V) : Except ErrorCode (SessionTable N V) :=
  let pk := u.pk.getD []
  if t.table.pk = pk ++ List.replicate (t.table.pk.length - pk.length) false then
    .ok { u with pk := some t.table.pk }
  else .error .schema

def updateChanges (t : SourceTable V) (u : SessionTable N V) : SessionTable N V :=
  { u with changes := u.changes.map (Entry.fill t.exprs) }

def catchUp (t : SourceTable V) (u : SessionTable N V) : Except ErrorCode (SessionTable N V) :=
  if (u.pk.getD []).length < t.table.pk.length then (u.reinit t).map (updateChanges t)
  else if (u.pk.getD []).length = t.table.pk.length then .ok u
  else .error .schema

variable [DecidableEq V] (hash : List (Option V) → Nat)

def note (t : SourceTable V) (direct : Bool) (op : Op) (row : Row V) (u : SessionTable N V) :
    SessionTable N V :=
  let pk := t.table.pk
  let changes := u.changes.grow (entryKey false pk) hash
  let key := keyFields pk (row.map some)
  if t.table.null ∈ keyFields pk row then { u with changes }
  else
    match changes.find (entryKey false pk) hash key with
    | none => { u with changes := changes.insert hash key (.noted pk op direct row) }
    | some e =>
      if e.indirect && direct then
        { u with
          changes := changes.adjust (entryKey false pk) hash key fun e =>
            { e with indirect := false } }
      else { u with changes }

def preupdateOneChange (t : SourceTable V) (direct : Bool) (u : SessionTable N V)
    (touch : Op × Row V) : Except ErrorCode (SessionTable N V) :=
  let u := { u with pk := some (u.pk.getD t.table.pk) }
  -- a table without a primary key is ignored
  if true ∉ u.pk.getD [] then .ok u
  else (u.catchUp t).map (note hash t direct touch.1 touch.2)

end SessionTable

namespace Session

variable [DecidableEq N]

def attach (n : N) (s : Session N V) : Session N V :=
  if s.tables.any (·.tab = n) then s
  else { s with tables := s.tables ++ [{ tab := n, pk := none, changes := .empty }] }

def create (names : List N) (autoAttach : Bool) (filter : N → Bool) : Session N V :=
  names.foldl (fun s n => s.attach n) { tables := [], autoAttach, filter, rc := none }

/-- `sessionFindTable`: with no table named when the session was made, tables come as they are
changed. -/
def findTable (n : N) (s : Session N V) : Session N V :=
  if s.autoAttach && s.filter n then s.attach n else s

variable [DecidableEq V] (hash : List (Option V) → Nat)

def preUpdate (n : N) (t : SourceTable V) (direct : Bool) (touches : List (Op × Row V))
    (s : Session N V) : Session N V :=
  if s.rc.isSome ∨ touches = [] then s
  else
    let s := s.findTable n
    match s.tables.find? (·.tab = n) with
    | none => s
    | some u =>
      match touches.foldlM (SessionTable.preupdateOneChange hash t direct) u with
      | .error code => { s with rc := some code }
      | .ok u' => { s with tables := s.tables.map fun v => if v.tab = n then u' else v }

end Session

structure Recording (N V : Type) where
  source : N → Option (SourceTable V)
  session : Session N V

section Edits

variable [DecidableEq N] [DecidableEq V] (hash : List (Option V) → Nat)

def Recording.step (r : Recording N V) (e : Edit N V) : Option (Recording N V) :=
  (r.source e.tab).bind fun t =>
    (t.step e.action).map fun t' =>
      { source := update r.source e.tab (some t')
        session := r.session.preUpdate hash e.tab t e.direct (t.touches e.action) }

def Recording.run (es : List (Edit N V)) (r : Recording N V) : Option (Recording N V) :=
  es.foldlM (Recording.step hash) r

end Edits

section Generate

variable [DecidableEq V] (patchset : Bool)

/-- `sessionAppendUpdate`: nothing if no column changed. -/
def appendUpdate (pk : List Bool) (row : Row V) (e : Entry V) : Option (Entry V) :=
  let columns := pk.zip (e.record.zip row)
  if columns.any fun c => c.2.1 != some c.2.2 then
    let old := columns.map fun c => if c.2.1 != some c.2.2 || c.1 then c.2.1 else none
    let new := columns.map fun c =>
      if c.2.1 != some c.2.2 || (patchset && c.1) then some c.2.2 else none
    some ⟨.update, e.indirect, if patchset then new else old ++ new⟩
  else none

omit [DecidableEq V] in
def appendDelete (pk : List Bool) (e : Entry V) : Entry V :=
  ⟨.delete, e.indirect, if patchset then keyFields pk e.record else e.record⟩

def generateOne (t : SourceTable V) (e : Entry V) : Option (Entry V) :=
  let key := (keyFields t.table.pk e.record).map (·.getD t.table.null)
  match t.rows (t.table.norm key), e.op with
  | some row, .insert => some ⟨.insert, e.indirect, row.map some⟩
  | some row, _ => appendUpdate patchset t.table.pk row e
  | none, .insert => none
  | none, _ => some (appendDelete patchset t.table.pk e)

def SessionTable.generate (source : N → Option (SourceTable V))
    (u : SessionTable N V) : Except ErrorCode (Block N V) :=
  match source u.tab with
  | none => .error .schema
  | some t =>
    (u.reinit t).map fun u' =>
      let u' := if u.pk = u'.pk then u' else u'.updateChanges t
      { tab := u.tab
        pk := t.table.pk
        entries := u'.changes.entries.filterMap (generateOne patchset t) }

def generateChangeset (r : Recording N V) : Except ErrorCode (Blob N V) :=
  match r.session.rc with
  | some code => .error code
  | none =>
    ((r.session.tables.filter fun u => u.changes.nEntry ≠ 0).mapM
      (SessionTable.generate patchset r.source)).map fun blocks =>
        { patchset, blocks := blocks.filter fun k => k.entries ≠ [] }

end Generate

end SqlCipher.Changeset
