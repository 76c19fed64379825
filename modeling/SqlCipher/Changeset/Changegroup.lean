import SqlCipher.Changeset.Record
import SqlCipher.Library.HashTable

/-!
# Changegroups

The model of `sqlite3changegroup_add()`, `sqlite3changegroup_output()` and
`sqlite3changeset_concat()`. A changegroup has a hash table for each table, with one change for each
row, into which others are merged. With a schema (`sqlite3changegroup_schema()`), records shorter
than the table are extended first.

A table name stands for all its spellings. The hash of a key is any function of its fields. Memory
is there.
-/

namespace SqlCipher.Changeset

open Proc

variable {N V : Type}

/-- What the schema says about a table: its primary key, and the values of its defaults. -/
structure SchemaTable (V : Type) where
  pk : List Bool
  dflt : List V
  deriving DecidableEq, Repr

/-- A table of a changegroup. The defaults are there if it was found in the schema. -/
structure GroupTable (N V : Type) extends Header N where
  dflt : Option (List V)
  changes : HashTable (Entry V)

structure Changegroup (N V : Type) where
  patchset : Bool
  tables : List (GroupTable N V)
  schema : Option (N → Option (SchemaTable V))

def Changegroup.new (schema : Option (N → Option (SchemaTable V))) : Changegroup N V where
  patchset := false
  tables := []
  schema := schema

abbrev Grouping (N V α : Type) := Proc (Changegroup N V) ErrorCode α

def checkCompat (t : GroupTable N V) (pk : List Bool) : Bool :=
  if t.dflt.isSome && pk.length < t.pk.length then
    t.pk == pk ++ List.replicate (t.pk.length - pk.length) false
  else t.pk == pk

variable [DecidableEq N]

def makeTable (schema : Option (N → Option (SchemaTable V))) (h : Header N) :
    Except ErrorCode (GroupTable N V) :=
  match schema with
  | none => .ok { h with dflt := none, changes := .empty }
  | some schema =>
    match schema h.tab with
    | none => .error .error
    | some t => .ok { tab := h.tab, pk := t.pk, dflt := some t.dflt, changes := .empty }

omit [DecidableEq N] in
def newTable (h : Header N) : Grouping N V (GroupTable N V) := do
  let g ← get
  let t ← ofExcept (makeTable g.schema h)
  modify fun g => { g with tables := g.tables ++ [t] }
  pure t

def lookUpTable (h : Header N) : Grouping N V (GroupTable N V) := do
  let g ← get
  match g.tables.find? (·.tab = h.tab) with
  | some t => pure t
  | none => newTable h

def findTable (h : Header N) : Grouping N V (GroupTable N V) := do
  let t ← lookUpTable h
  if checkCompat t h.pk then pure t else fail .schema

variable [DecidableEq V] (hash : List (Option V) → Nat)

def GroupTable.extend (patchset : Bool) (t : GroupTable N V) (nCol : Nat) (e : Entry V) : Entry V :=
  if nCol < t.pk.length then extendRecord patchset (t.dflt.getD []) nCol e else e

def GroupTable.add (patchset : Bool) (t : GroupTable N V) (nCol : Nat) (e : Entry V) :
    GroupTable N V :=
  let e := t.extend patchset nCol e
  { t with
    changes := t.changes.alter (entryKey patchset t.pk) hash (entryKey patchset t.pk e)
      fun exist => changeMerge t.pk patchset exist e }

def oneChangeToHash (t : GroupTable N V) (nCol : Nat) (e : Entry V) : Grouping N V Unit :=
  modify fun g =>
    { g with
      tables := g.tables.map fun u => if u.tab = t.tab then u.add hash g.patchset nCol e else u }

omit [DecidableEq N] [DecidableEq V] in
def setKind (patchset : Bool) : Grouping N V Unit := do
  let g ← get
  if g.tables = [] then modify fun g => { g with patchset := patchset }
  else when (g.patchset ≠ patchset) (fail .error)

def oneChangeIterToHash (patchset : Bool) (h : Header N) (e : Entry V) : Grouping N V Unit := do
  setKind patchset
  let t ← findTable h
  oneChangeToHash hash t h.pk.length e

def changegroupAdd (b : Blob N V) : Grouping N V Unit :=
  forEach (fun c => oneChangeIterToHash hash b.patchset c.1 c.2) b.changes

omit [DecidableEq N] [DecidableEq V] in
def changegroupOutput (g : Changegroup N V) : Blob N V where
  patchset := g.patchset
  blocks := (g.tables.filter fun t => t.changes.nEntry ≠ 0).map fun t =>
    { t.toHeader with entries := t.changes.entries }

def changegroupAddAll (bs : List (Blob N V)) : Grouping N V Unit :=
  forEach (changegroupAdd hash) bs

def changesetConcat (schema : Option (N → Option (SchemaTable V))) (left right : Blob N V) :
    Option (Blob N V) :=
  match changegroupAddAll hash [left, right] (.new schema) with
  | some (.ok (), g) => some (changegroupOutput g)
  | _ => none

end SqlCipher.Changeset
