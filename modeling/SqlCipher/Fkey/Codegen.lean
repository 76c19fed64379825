import SqlCipher.Library.Proc

/-!
# Code for foreign keys and triggers

How the code of an INSERT, UPDATE or DELETE comes to hold parent lookups, the programs of triggers
and those of foreign key actions (`fkey.c`, `trigger.c`, `insert.c`, `update.c`, `delete.c`), with
enforcement on. Code is a list of lines, each with its program: the write of a row with the lookups
that `sqlite3FkCheck` puts before it, or the call of a program. The programs of a statement are in
one list, the newest first; a trigger is coded once for each conflict policy.
-/

namespace SqlCipher.Fkey

open Proc

inductive Action
  | none | restrict | setNull | setDflt | cascade
  deriving DecidableEq

inductive Conflict
  | default | rollback | abort | fail | ignore | replace
  deriving DecidableEq

def Conflict.override (orconf onError : Conflict) : Conflict :=
  if orconf = .default then onError else orconf

/-- A foreign key, with the columns of the child key and of the parent key. -/
structure FKey (T C : Type) where
  id : Nat
  pFrom : T
  zTo : T
  aCol : List C
  parentKey : List C
  onDelete : Action
  onUpdate : Action
  deriving DecidableEq

/-- What is done to one row. A row that REPLACE deletes may leave the triggers alone. -/
inductive RowOp (T C : Type)
  | insert (table : T)
  | update (table : T) (changes : List C)
  | delete (table : T) (triggers : Bool)
  deriving DecidableEq

/-- A uniqueness check of an INSERT, with the policy of the constraint or the SET list of an upsert.
-/
inductive Check (C : Type)
  | unique (onError : Conflict)
  | upsert (changes : List C)
  deriving DecidableEq

inductive Stmt (T C : Type)
  | insert (table : T) (orconf : Conflict) (checks : List (Check C))
  | update (table : T) (changes : List C) (orconf : Conflict) (checks : List Conflict)
  | delete (table : T)
  | select
  deriving DecidableEq

def Stmt.orconf {T C : Type} : Stmt T C → Conflict
  | .insert _ orconf _ => orconf
  | .update _ _ orconf _ => orconf
  | _ => .default

inductive Event
  | insert | update | delete
  deriving DecidableEq

structure Trigger (T C : Type) where
  id : Nat
  table : T
  op : Event
  before : Bool
  /-- The columns of `UPDATE OF`. -/
  pColumns : Option (List C)
  steps : List (Stmt T C)
  deriving DecidableEq

/-- What a program is the code of. -/
inductive Prg (T C : Type)
  | trigger (t : Trigger T C)
  | action (f : FKey T C) (isUpdate : Bool)
  deriving DecidableEq

structure Schema (T C : Type) where
  fkeys : List (FKey T C)
  triggers : List (Trigger T C)
  isView : T → Bool
  recTriggers : Bool
  deferFKs : Bool

inductive Line (T C : Type)
  /-- A row is written, after the lookups for the row as it was and for the new row. -/
  | row (op : RowOp T C) (old new : List (FKey T C))
  | program (p : Prg T C) (orconf : Conflict)
  deriving DecidableEq

structure State (T C : Type) where
  pTriggerPrg : List (Prg T C × Conflict)
  code : List (Option (Prg T C) × Line T C)

inductive Error
  | nestedTooDeep

variable {T C : Type} [DecidableEq T] [DecidableEq C]

def RowOp.table : RowOp T C → T
  | .insert t => t
  | .update t _ => t
  | .delete t _ => t

variable (f : FKey T C)

def FKey.aAction (isUpdate : Bool) : Action :=
  if isUpdate then f.onUpdate else f.onDelete

def FKey.childIsModified (changes : List C) : Bool := f.aCol.any (· ∈ changes)

def FKey.parentIsModified (changes : List C) : Bool :=
  f.parentKey.any (· ∈ changes)

/-- The statement of an action, coded under `OE_Abort`, so that no check of it deletes rows. -/
def FKey.step (isUpdate : Bool) : Stmt T C :=
  match f.aAction isUpdate with
  | .restrict => .select
  | .cascade => if isUpdate then .update f.pFrom f.aCol .default [] else .delete f.pFrom
  | _ => .update f.pFrom f.aCol .default []

def Prg.steps : Prg T C → List (Stmt T C)
  | .trigger t => t.steps
  | .action f isUpdate => [f.step isUpdate]

def Trigger.matches (t : Trigger T C) : RowOp T C → Bool
  | .insert table => t.table = table ∧ t.op = .insert
  | .delete table triggers => triggers ∧ t.table = table ∧ t.op = .delete
  | .update table changes => t.table = table ∧ t.op = .update ∧
      (t.pColumns.all fun cols => cols.any (· ∈ changes))

namespace Schema

variable (sch : Schema T C)

def childKeys (t : T) : List (FKey T C) := sch.fkeys.filter (·.pFrom = t)

def fkReferences (t : T) : List (FKey T C) := sch.fkeys.filter (·.zTo = t)

def fkRequired : RowOp T C → Bool
  | .update t changes => (sch.childKeys t).any (·.childIsModified changes) ||
      (sch.fkReferences t).any (·.parentIsModified changes)
  | op => sch.childKeys op.table ≠ [] ∨ sch.fkReferences op.table ≠ []

def fkChecked : RowOp T C → List (FKey T C)
  | .update t changes => (sch.childKeys t).filter fun f => f.zTo = t ∨ f.childIsModified changes
  | op => sch.childKeys op.table

def fkActionTrigger (f : FKey T C) (isUpdate : Bool) : Option (Prg T C) :=
  if f.aAction isUpdate = .none ∨ (f.aAction isUpdate = .restrict ∧ sch.deferFKs) then none
  else some (.action f isUpdate)

def fkActions : RowOp T C → List (Prg T C)
  | .insert _ => []
  | .delete t _ => (sch.fkReferences t).filterMap (sch.fkActionTrigger · false)
  | .update t changes => ((sch.fkReferences t).filter (·.parentIsModified changes)).filterMap
      (sch.fkActionTrigger · true)

end Schema

/-- Only the newest program is looked at. -/
def isSetNullAction (s : State T C) (f : FKey T C) : Bool :=
  match s.pTriggerPrg with
  | (.action g isUpdate, _) :: _ => g = f ∧ f.aAction isUpdate = .setNull
  | _ => false

def emit (own : Option (Prg T C)) (l : Line T C) : Proc (State T C) Error Unit :=
  modify fun s => { s with code := s.code ++ [(own, l)] }

section Rows

variable (sch : Schema T C) (getRowTrigger : Prg T C → Conflict → Proc (State T C) Error Unit)
  (own : Option (Prg T C))

def writeRow (required : Bool) (op : RowOp T C) : Proc (State T C) Error Unit := do
  let s ← get
  let fs := if required then sch.fkChecked op else []
  when (sch.isView op.table = false) <| emit own <| match op with
    | .insert _ => .row op [] (fs.filter fun f => !isSetNullAction s f)
    | .update .. => .row op fs (fs.filter fun f => !isSetNullAction s f)
    | .delete .. => .row op fs []

def codeRowTriggerDirect (orconf : Conflict) (p : Prg T C) : Proc (State T C) Error Unit := do
  getRowTrigger p orconf
  emit own (.program p orconf)

variable (op : RowOp T C)

def codeRowTrigger (before : Bool) (orconf : Conflict) : Proc (State T C) Error Unit :=
  forEach (fun t => codeRowTriggerDirect getRowTrigger own orconf (.trigger t))
    (sch.triggers.filter fun t => t.matches op ∧ t.before = before)

/-- To know the columns that the triggers read, their programs are coded. -/
def triggerColmask (orconf : Conflict) : Proc (State T C) Error Unit :=
  when (sch.isView op.table = false) <|
    forEach (fun t => getRowTrigger (.trigger t) orconf) (sch.triggers.filter (·.matches op))

def codeActions : Proc (State T C) Error Unit :=
  forEach (codeRowTriggerDirect getRowTrigger own .abort) (sch.fkActions op)

def generateRowDelete (orconf : Conflict) : Proc (State T C) Error Unit := do
  triggerColmask sch getRowTrigger op orconf
  codeRowTrigger sch getRowTrigger own op true orconf
  writeRow sch own (sch.fkRequired op ∨ sch.triggers.any (·.matches op)) op
  codeActions sch getRowTrigger own op
  codeRowTrigger sch getRowTrigger own op false orconf

def codeUnique (t : T) (orconf onError : Conflict) : Proc (State T C) Error Unit :=
  when (orconf.override onError = .replace) <|
    generateRowDelete sch getRowTrigger own (.delete t sch.recTriggers) .replace

def codeUpdate (t : T) (changes : List C) (orconf : Conflict) (checks : List Conflict) :
    Proc (State T C) Error Unit := do
  let op := .update t changes
  triggerColmask sch getRowTrigger op orconf
  codeRowTrigger sch getRowTrigger own op true orconf
  when (sch.isView t = false) <| forEach (codeUnique sch getRowTrigger own t orconf) checks
  writeRow sch own (sch.fkRequired op) op
  when (sch.fkRequired op) <| codeActions sch getRowTrigger own op
  codeRowTrigger sch getRowTrigger own op false orconf

def codeCheck (t : T) (orconf : Conflict) : Check C → Proc (State T C) Error Unit
  | .unique onError => codeUnique sch getRowTrigger own t orconf onError
  | .upsert changes => codeUpdate sch getRowTrigger own t changes .abort []

def codeInsert (t : T) (orconf : Conflict) (checks : List (Check C)) :
    Proc (State T C) Error Unit := do
  codeRowTrigger sch getRowTrigger own (.insert t) true orconf
  when (sch.isView t = false) <| forEach (codeCheck sch getRowTrigger own t orconf) checks
  writeRow sch own true (.insert t)
  codeRowTrigger sch getRowTrigger own (.insert t) false orconf

def codeStatement (orconf : Conflict) : Stmt T C → Proc (State T C) Error Unit
  | .insert t _ checks => codeInsert sch getRowTrigger own t orconf checks
  | .update t changes _ checks => codeUpdate sch getRowTrigger own t changes orconf checks
  | .delete t => generateRowDelete sch getRowTrigger own (.delete t true) .default
  | .select => pure ()

end Rows

variable (sch : Schema T C)

/-- The program of a trigger, coded if not in the list, where it is put before its statements are
coded with `depth` more levels. -/
def getRowTrigger : Nat → Prg T C → Conflict → Proc (State T C) Error Unit
  | depth, p, orconf => do
    let s ← get
    if (p, orconf) ∈ s.pTriggerPrg then pure ()
    else match depth with
      | 0 => fail .nestedTooDeep
      | depth + 1 => do
        modify fun s => { s with pTriggerPrg := (p, orconf) :: s.pTriggerPrg }
        forEach (fun st => codeStatement sch (getRowTrigger depth) (some p)
          (orconf.override st.orconf) st) p.steps

/-- The code of a statement, with at most `depth` levels of programs. -/
def compile (depth : Nat) (stmt : Stmt T C) : Option (Except Error Unit × State T C) :=
  codeStatement sch (getRowTrigger sch depth) none stmt.orconf stmt ⟨[], []⟩

end SqlCipher.Fkey
