import Mathlib.Data.List.OfFn
import Mathlib.Tactic.Common

/-!
# Outer joins that the WHERE clause makes inner joins

`sqlite3ExprImpliesNonNullRow` in `expr.c`: a WHERE clause that it accepts for a table is not true
where every column of the table is NULL, so the rows that an outer join adds for this table do not
pass. What operators do with values that are not NULL, and what subqueries and functions come to, is
left open.
-/

namespace SqlCipher.Query

/-- A node comes from the ON clause of an outer join or of an inner join, or from elsewhere. -/
inductive Origin
  | outerOn (term : Nat)
  | innerOn
  | other

inductive Unary
  | not | uminus | uplus | bitnot
  | cast (type : Nat)
  | collate (name : Nat)

inductive Binary
  | eq | ne | lt | le | gt | ge
  | bitand | bitor | lshift | rshift | plus | minus | star | slash | rem | concat
  deriving DecidableEq

/-- Operators that the walk does not look into; an IN with a subquery is one of them. -/
inductive Closed
  | isnot | isnull | is | truth | case | vector | inSelect
  | function (name : Nat)

/-- A resolved expression. A leaf is a literal, a parameter, a subquery, or part of an outer query,
as aggregates in a WHERE clause are. `likely` and its like have the value of their argument. -/
inductive Expr
  | leaf (o : Origin) (n : Nat)
  | column (o : Origin) (iTable iColumn : Nat) (isVirtual : Bool)
  | unary (o : Origin) (op : Unary) (left : Expr)
  | ifNullRow (o : Origin) (iTable : Nat) (left : Expr)
  | binary (o : Origin) (op : Binary) (left right : Expr)
  | and (o : Origin) (left right : Expr)
  | or (o : Origin) (left right : Expr)
  | between (o : Origin) (left low high : Expr)
  | inList (o : Origin) (left : Expr) {n : Nat} (list : Fin n → Expr)
  | notNull (o : Origin) (left : Expr)
  | likely (o : Origin) (arg : Expr)
  | closed (o : Origin) (op : Closed) {n : Nat} (args : Fin n → Expr)

namespace Expr

def origin : Expr → Origin
  | leaf o _ | column o _ _ _ | unary o _ _ | ifNullRow o _ _ | binary o _ _ _ | and o _ _
  | or o _ _ | between o _ _ _ | inList o _ _ | notNull o _ | likely o _ | closed o _ _ => o

end Expr

structure Operators (V : Type) where
  truth : V → Bool
  ofBool : Bool → V
  truth_ofBool : ∀ b, truth (ofBool b) = b
  unary : Unary → V → Option V
  unary_collate : ∀ name v, unary (.collate name) v = some v
  binary : Binary → V → V → Option V

/-- A row of the join, with what subqueries, functions and terms of outer ON clauses give for it. -/
structure Row (V : Type) where
  column : Nat → Nat → Option V
  leaf : Nat → Option V
  closed : Closed → List (Option V) → Option V
  nullRow : Nat → Bool
  outerOn : Nat → Option V

def kleeneAnd : Option Bool → Option Bool → Option Bool
  | some false, _ | _, some false => some false
  | some true, some true => some true
  | _, _ => none

def kleeneOr : Option Bool → Option Bool → Option Bool
  | some true, _ | _, some true => some true
  | some false, some false => some false
  | _, _ => none

variable {V : Type} (S : Operators V) (r : Row V)

def Origin.value (v : Option V) : Origin → Option V
  | outerOn term => r.outerOn term
  | _ => v

namespace Operators

def binary? (op : Binary) (x y : Option V) : Option V := x.bind fun a => y.bind (S.binary op a)

def and? (x y : Option V) : Option V := (kleeneAnd (x.map S.truth) (y.map S.truth)).map S.ofBool

def or? (x y : Option V) : Option V := (kleeneOr (x.map S.truth) (y.map S.truth)).map S.ofBool

end Operators

def Expr.eval : Expr → Option V
  | leaf o n => o.value r (r.leaf n)
  | column o iTable iColumn _ => o.value r (r.column iTable iColumn)
  | unary o op x => o.value r (x.eval.bind (S.unary op))
  | ifNullRow o iTable x => o.value r (if r.nullRow iTable then none else x.eval)
  | binary o op x y => o.value r (S.binary? op x.eval y.eval)
  | and o x y => o.value r (S.and? x.eval y.eval)
  | or o x y => o.value r (S.or? x.eval y.eval)
  | between o x low high =>
    o.value r (S.and? (S.binary? .ge x.eval low.eval) (S.binary? .le x.eval high.eval))
  | inList o x list => o.value r ((List.ofFn fun i => (list i).eval).foldr
      (fun y found => S.or? (S.binary? .eq x.eval y) found) (some (S.ofBool false)))
  | notNull o x => o.value r (some (S.ofBool x.eval.isSome))
  | likely o x => o.value r x.eval
  | closed o op args => o.value r (r.closed op (List.ofFn fun i => (args i).eval))

def Expr.holds (p : Expr) : Bool := (p.eval S r).any S.truth

variable (iCur : Nat) (isRJ : Bool)

section Sound

variable {S r iCur isRJ} {o : Origin} {eCode : Bool} {walked : Bool × Bool} {v : Option V}

@[simp] theorem Operators.binary?_none (op : Binary) (x : Option V) :
    S.binary? op x none = none := by
  cases x <;> rfl

variable {first : Bool} {p : Expr}

end Sound

def Operators.toy : Operators Int where
  truth v := v ≠ 0
  ofBool b := if b then 1 else 0
  truth_ofBool := by decide
  unary _ v := some v
  unary_collate _ _ := rfl
  binary _ v w := some (if v = w then 1 else 0)

/-- `WHERE unlikely(b.x = ?) AND a.x NOTNULL`. -/
def Expr.toy : Expr :=
  .and .other (.likely .other (.binary .other .eq (.column .other 1 0 false) (.leaf .other 0)))
    (.notNull .other (.column .other 0 0 false))

end SqlCipher.Query
