import SqlCipher.Changeset.Record
import SqlCipher.Library.HashTable

/-!
# Rebasing

The model of `sqlite3rebaser_configure()` and `sqlite3rebaser_rebase()`. A rebaser has a hash table
of changes for each table. The records that conflicts on a row left in rebase buffers are merged
into one, in which a field can be marked as replaced (the type byte 0xFF). A local change whose row
has a record becomes another one, or is dropped.

Records have all columns. The hash of a key is any function of its fields. Memory is there.
-/

namespace SqlCipher.Changeset

variable {N V : Type}

inductive Field (V : Type) where
  | undefined | replaced | value (v : V)
  deriving DecidableEq, Repr

namespace Field

def of : Option V → Field V
  | none => .undefined
  | some v => .value v

/-- The value of a field. No record written to a changeset has a field marked as replaced. -/
def value? : Field V → Option V
  | .value v => some v
  | _ => none

def next (key replace : Bool) : Field V → Option V → Field V
  | .replaced, _ => .replaced
  | f, g => if !key && replace then .replaced else g.elim f .value

end Field

/-- A change of a rebaser: an INSERT or a DELETE, indirect if a conflict was answered REPLACE. -/
structure RebaseChange (V : Type) where
  isDelete : Bool
  indirect : Bool
  record : List (Field V)
  deriving DecidableEq, Repr

def RebaseChange.key (pk : List Bool) (c : RebaseChange V) : List (Option V) :=
  (keyFields pk c.record).map Field.value?

def firstRecord (pk : List Bool) (replace : Bool) (record : List (Option V)) : List (Field V) :=
  List.zipWith (fun b f => if f.isSome && !b && replace then .replaced else .of f) pk record

def nextRecord (pk : List Bool) (replace : Bool) (exist : List (Field V))
    (record : List (Option V)) : List (Field V) :=
  List.zipWith (fun b (f : Field V × Option V) => f.1.next b replace f.2) pk (exist.zip record)

/-- `sessionChangeMerge` for rebasers. A DELETE answered REPLACE is meant to stay, but its pointer
is overwritten. -/
def rebaseMerge (pk : List Bool) (exist : Option (RebaseChange V)) (e : RebaseEntry N V) :
    Option (RebaseChange V) :=
  match exist with
  | none => some ⟨e.isDelete, e.replace, firstRecord pk e.replace e.record⟩
  | some c =>
    if c.isDelete && c.indirect then none
    else some ⟨e.isDelete, e.replace || c.indirect, nextRecord pk e.replace c.record e.record⟩

structure RebaseTable (N V : Type) extends Header N where
  changes : HashTable (RebaseChange V)

structure Rebaser (N V : Type) where
  tables : List (RebaseTable N V)

def Rebaser.create : Rebaser N V := ⟨[]⟩

section Configure

variable [DecidableEq N] [DecidableEq V] (hash : List (Option V) → Nat)

omit [DecidableEq N] in
def RebaseTable.add (t : RebaseTable N V) (e : RebaseEntry N V) : RebaseTable N V :=
  { t with
    changes := t.changes.alter (RebaseChange.key t.pk) hash (keyFields t.pk e.record)
      fun exist => rebaseMerge t.pk exist e }

def addRecord (e : RebaseEntry N V) :
    List (RebaseTable N V) → Except ErrorCode (List (RebaseTable N V))
  | [] => .ok [RebaseTable.add hash { e.header with changes := .empty } e]
  | t :: ts =>
    if t.tab = e.header.tab then
      if t.pk = e.header.pk then .ok (t.add hash e :: ts) else .error .schema
    else (addRecord e ts).map (t :: ·)

def Rebaser.configure (buffer : List (RebaseEntry N V)) (r : Rebaser N V) :
    Except ErrorCode (Rebaser N V) :=
  (buffer.foldlM (fun ts e => addRecord hash e ts) r.tables).map Rebaser.mk

def Rebaser.find (n : N) (E : Entry V) (r : Rebaser N V) : Option (RebaseChange V) :=
  (r.tables.find? (·.tab = n)).bind fun t =>
    t.changes.find (RebaseChange.key t.pk) hash (keyFields t.pk E.record)

end Configure

/-- `sessionAppendRecordMerge`: the first record, and the second one where that is undefined. -/
def recordMerge (one two : List (Field V)) : List (Field V) :=
  List.zipWith (fun a b => match a with
    | .value v => .value v
    | _ => b) one two

section Rebase

variable [DecidableEq V]

/-- The old record of a local UPDATE: replaced fields are taken out, and the others are those of the
rebase record. -/
def partialOld (pk : List Bool) (record : List (Field V)) (old : List (Option V)) :
    List (Option V) :=
  (pk.zip (old.zip record)).map fun c =>
    if c.1 || c.2.2 = .undefined then c.2.1
    else if c.2.1.isSome then c.2.2.value? else none

def partialNew (pk : List Bool) (record : List (Field V)) (new : List (Option V)) :
    List (Option V) :=
  (pk.zip (new.zip record)).map fun c => if c.1 || c.2.2 ≠ .replaced then c.2.1 else none

def partialUpdate (pk : List Bool) (record : List (Field V)) (E : Entry V) : Option (Entry V) :=
  let old := E.record.take pk.length
  let new := E.record.drop pk.length
  if (pk.zip (old.zip record)).any fun c => !c.1 && c.2.1.isSome && c.2.2 ≠ .replaced then
    some ⟨.update, E.indirect, partialOld pk record old ++ partialNew pk record new⟩
  else none

def rebaseEntry (pk : List Bool) (E : Entry V) : Option (RebaseChange V) → Option (Entry V)
  | none => some E
  | some c =>
    match E.op, c.isDelete with
    | .insert, false =>
      if c.indirect then none
      else some ⟨.update, E.indirect, c.record.map Field.value? ++ E.record⟩
    | .insert, true => some E
    | .update, true =>
      if c.indirect then none
      else some ⟨.insert, E.indirect,
        (recordMerge ((E.record.drop pk.length).map .of) c.record).map Field.value?⟩
    | .update, false => partialUpdate pk c.record E
    | .delete, false =>
      some ⟨.delete, E.indirect, (recordMerge c.record (E.record.map .of)).map Field.value?⟩
    | .delete, true => none

variable [DecidableEq N] (hash : List (Option V) → Nat)

/-- `sqlite3rebaser_rebase`. A patchset may not be rebased. -/
def Rebaser.rebase (b : Blob N V) (r : Rebaser N V) : Except ErrorCode (Blob N V) :=
  let blocks := b.blocks.filter fun k => k.entries ≠ []
  if b.patchset && blocks ≠ [] then .error .error
  else .ok
    { patchset := b.patchset
      blocks := blocks.map fun k =>
        { k.toHeader with
          entries := k.entries.filterMap fun E => rebaseEntry k.pk E (r.find hash k.tab E) } }

end Rebase

end SqlCipher.Changeset
