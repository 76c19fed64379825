import SqlCipher.Fkey.Codegen

/-!
# Parent lookups before the writes of child rows

A write of a child row is checked if the parent lookups of each constraint whose child key it may
change are coded before it; the UPDATE of a SET NULL action needs none. `isSetNullAction` takes any
row for such an update while the newest program is the SET NULL action. Programs are coded depth
first, each where it is met for the first time (`Walk`). So the code of a statement is checked if
and only if no row of this walk that writes a child key comes with that action as the program met
last, unless it is the action's own row (`compile_checked`).
-/

namespace SqlCipher.Fkey

open Proc List

variable {T C : Type} [DecidableEq T] [DecidableEq C]

def RowOp.Erases (op : RowOp T C) (f : FKey T C) : Prop :=
  f.pFrom = op.table ∧ match op with
    | .insert _ => False
    | .update _ changes => f.childIsModified changes
    | .delete .. => True

def RowOp.Writes (op : RowOp T C) (f : FKey T C) : Prop :=
  f.pFrom = op.table ∧ match op with
    | .insert _ => True
    | .update _ changes => f.childIsModified changes
    | .delete .. => False

/-- The UPDATE of the constraint's own SET NULL action. -/
def OwnSetNull (own : Option (Prg T C)) (op : RowOp T C) (f : FKey T C) : Prop :=
  ∃ isUpdate, f.aAction isUpdate = .setNull ∧ own = some (.action f isUpdate) ∧
    op = .update f.pFrom f.aCol

def Line.Checked (sch : Schema T C) (own : Option (Prg T C)) : Line T C → Prop
  | .row op old new => ∀ f ∈ sch.fkeys,
      (op.Erases f → f ∈ old) ∧ (op.Writes f → f ∈ new ∨ OwnSetNull own op f)
  | .program .. => True

def State.Checked (sch : Schema T C) (s : State T C) : Prop :=
  ∀ l ∈ s.code, l.2.Checked sch l.1

/-! ## The order in which programs are met -/

inductive Item (T C : Type)
  | call (p : Prg T C) (orconf : Conflict)
  | row (op : RowOp T C)

namespace Schema

variable (sch : Schema T C) (op : RowOp T C) (orconf : Conflict)

def masked : List (Item T C) :=
  if sch.isView op.table = false then
    (sch.triggers.filter (·.matches op)).map fun t => .call (.trigger t) orconf
  else []

def calls (before : Bool) : List (Item T C) :=
  (sch.triggers.filter fun t => t.matches op ∧ t.before = before).map fun t =>
    .call (.trigger t) orconf

def actions : List (Item T C) := (sch.fkActions op).map (.call · .abort)

def written : List (Item T C) := if sch.isView op.table = false then [.row op] else []

def deleted : List (Item T C) :=
  sch.masked op orconf ++ (sch.calls op orconf true ++ (sch.written op ++ (sch.actions op ++
    sch.calls op orconf false)))

def replaced (t : T) (onError : Conflict) : List (Item T C) :=
  if orconf.override onError = .replace then sch.deleted (.delete t sch.recTriggers) .replace
  else []

def updated (t : T) (changes : List C) (checks : List Conflict) : List (Item T C) :=
  let op := .update t changes
  sch.masked op orconf ++ (sch.calls op orconf true ++
    ((if sch.isView t = false then checks.flatMap (sch.replaced orconf t) else []) ++
      (sch.written op ++ ((if sch.fkRequired op then sch.actions op else []) ++
        sch.calls op orconf false))))

def inserted (t : T) (checks : List (Check C)) : List (Item T C) :=
  sch.calls (.insert t) orconf true ++
    ((if sch.isView t = false then checks.flatMap fun
        | .unique onError => sch.replaced orconf t onError
        | .upsert changes => sch.updated .abort t changes []
      else []) ++ (sch.written (.insert t) ++ sch.calls (.insert t) orconf false))

/-- The programs and rows that a statement meets itself, in the order in which it is coded. -/
def items : Stmt T C → List (Item T C)
  | .insert t _ checks => sch.inserted orconf t checks
  | .update t changes _ checks => sch.updated orconf t changes checks
  | .delete t => sch.deleted (.delete t true) .default
  | .select => []

def body (p : Prg T C) : List (Item T C) :=
  p.steps.flatMap fun st => sch.items (orconf.override st.orconf) st

end Schema

/-- A row with the program it is in and the newest one. -/
structure Visit (T C : Type) where
  own : Option (Prg T C)
  op : RowOp T C
  newest : Option (Prg T C)

/-- If the newest program is the SET NULL action of a constraint whose child key is written, this is
the row of that action. -/
def Visit.Clear (sch : Schema T C) (v : Visit T C) : Prop :=
  ∀ f ∈ sch.fkeys, v.op.Writes f →
    (∃ isUpdate, v.newest = some (.action f isUpdate) ∧ f.aAction isUpdate = .setNull) →
    OwnSetNull v.own v.op f

/-- The depth-first walk through the items of a program, with the programs met before and
afterwards, the newest first, and the rows on the way. -/
inductive Walk (sch : Schema T C) : Option (Prg T C) → List (Item T C) →
    List (Prg T C × Conflict) → List (Prg T C × Conflict) → List (Visit T C) → Prop
  | nil {own l} : Walk sch own [] l l []
  | row {own op items l l' vs} : Walk sch own items l l' vs →
      Walk sch own (.row op :: items) l l' (⟨own, op, l.head?.map Prod.fst⟩ :: vs)
  | seen {own p orconf items l l' vs} : (p, orconf) ∈ l → Walk sch own items l l' vs →
      Walk sch own (.call p orconf :: items) l l' vs
  | new {own p orconf items l l₁ l' u v} : (p, orconf) ∉ l →
      Walk sch (some p) (sch.body orconf p) ((p, orconf) :: l) l₁ u →
      Walk sch own items l₁ l' v → Walk sch own (.call p orconf :: items) l l' (u ++ v)

/-- The walk of the statement meets no row while the SET NULL action of a constraint whose child key
it writes is the newest program, except the row of that action. -/
def Schema.Clear (sch : Schema T C) (stmt : Stmt T C) : Prop :=
  ∃ l vs, Walk sch none (sch.items stmt.orconf stmt) [] l vs ∧ ∀ v ∈ vs, v.Clear sch

open Schema

variable {sch : Schema T C} {f : FKey T C} {own : Option (Prg T C)} {op : RowOp T C}
  {orconf : Conflict} {depth : Nat} {stmt st : Stmt T C} {p : Prg T C} {is js : List (Item T C)}
  {l l' l₁ : List (Prg T C × Conflict)} {vs vs' : List (Visit T C)}

theorem Walk.unique (h : Walk sch own is l l' vs) (h' : Walk sch own is l l₁ vs') :
    l' = l₁ ∧ vs = vs' := by
  induction h generalizing l₁ vs' with
  | nil => cases h'; exact ⟨rfl, rfl⟩
  | row _ ih =>
    cases h' with
    | row h => obtain ⟨rfl, rfl⟩ := ih h; exact ⟨rfl, rfl⟩
  | seen hmem _ ih =>
    cases h' with
    | seen _ h => exact ih h
    | new hnot => exact absurd hmem hnot
  | new hnot _ _ ih ih' =>
    cases h' with
    | seen hmem => exact absurd hmem hnot
    | new _ hp h =>
      obtain ⟨rfl, rfl⟩ := ih hp
      obtain ⟨rfl, rfl⟩ := ih' h
      exact ⟨rfl, rfl⟩

theorem Walk.append (h : Walk sch own is l l₁ vs) (h' : Walk sch own js l₁ l' vs') :
    Walk sch own (is ++ js) l l' (vs ++ vs') := by
  induction h with
  | nil => exact h'
  | row _ ih => exact .row (ih h')
  | seen hmem _ ih => exact .seen hmem (ih h')
  | new hnot hp _ _ ih =>
    rw [append_assoc]
    exact .new hnot hp (ih h')

/-! ## The code follows the walk -/

/-- What is coded by `x` meets the items `is`, and is checked if the rows of the walk are clear. -/
def Follows (sch : Schema T C) (own : Option (Prg T C)) (x : Proc (State T C) Error Unit)
    (is : List (Item T C)) : Prop :=
  ∀ s, gives x (fun _ s' => ∃ vs, Walk sch own is s.pTriggerPrg s'.pTriggerPrg vs ∧
    (s'.Checked sch ↔ s.Checked sch ∧ ∀ v ∈ vs, v.Clear sch)) s

namespace Follows

variable {x : Proc (State T C) Error Unit}

theorem pure : Follows sch own (Pure.pure ()) [] := fun _ => ⟨[], .nil, by simp⟩

theorem bind {f : Unit → Proc (State T C) Error Unit} (hx : Follows sch own x is)
    (hf : Follows sch own (f ()) js) : Follows sch own (x >>= f) (is ++ js) := by
  refine fun s => .next (hx s) fun _ s₁ ⟨vs, hw, hs⟩ => .imp (hf s₁) fun _ s' ⟨vs', hw', hs'⟩ => ?_
  refine ⟨vs ++ vs', hw.append hw', ?_⟩
  rw [hs', hs, forall_mem_append, and_assoc]

theorem when {c : Prop} [Decidable c] (hx : Follows sch own x is) :
    Follows sch own (Proc.when c x) (if c then is else []) := by
  unfold Proc.when
  split
  · exact hx
  · exact .pure

theorem forEach {β : Type} {f : β → Proc (State T C) Error Unit} {items : β → List (Item T C)}
    (h : ∀ b, Follows sch own (f b) (items b)) (bs : List β) :
    Follows sch own (Proc.forEach f bs) (bs.flatMap items) := by
  induction bs with
  | nil => exact .pure
  | cons b bs ih => exact .bind (h b) ih

theorem forEach_call {β : Type} {f : β → Proc (State T C) Error Unit} {item : β → Item T C}
    (h : ∀ b, Follows sch own (f b) [item b]) (bs : List β) :
    Follows sch own (Proc.forEach f bs) (bs.map item) := by
  rw [map_eq_flatMap]
  exact .forEach h bs

end Follows

omit [DecidableEq T] in
theorem checked_emit (s : State T C) (line : Line T C) :
    State.Checked sch { s with code := s.code ++ [(own, line)] } ↔
      s.Checked sch ∧ line.Checked sch own := by
  simp [State.Checked, or_imp, forall_and]

theorem mem_fkChecked (hf : f ∈ sch.fkeys) (h : op.Erases f ∨ op.Writes f) :
    f ∈ sch.fkChecked op := by
  cases op <;> simp_all [fkChecked, childKeys, RowOp.Erases, RowOp.Writes, RowOp.table]

theorem fkRequired_of_erases (hf : f ∈ sch.fkeys) (h : op.Erases f) : sch.fkRequired op := by
  have hchild : f ∈ sch.childKeys op.table := by simp [childKeys, hf, h.1]
  cases op with
  | insert t => exact h.2.elim
  | update t changes =>
    simp only [fkRequired, Bool.or_eq_true, any_eq_true]
    exact .inl ⟨f, hchild, h.2⟩
  | delete t trig => simp [fkRequired, ne_nil_of_mem hchild]

theorem isSetNullAction_iff {s : State T C} : isSetNullAction s f ↔
    ∃ isUpdate, s.pTriggerPrg.head?.map Prod.fst = some (.action f isUpdate) ∧
      f.aAction isUpdate = .setNull := by
  unfold isSetNullAction
  rcases s.pTriggerPrg with _ | ⟨⟨_ | ⟨g, isUpdate⟩, o⟩, l⟩ <;> grind

theorem follows_writeRow {required : Bool}
    (hreq : ∀ f ∈ sch.fkeys, op.Erases f ∨ op.Writes f → required) :
    Follows sch own (writeRow sch own required op) (sch.written op) := by
  intro s
  refine wpOr.read (wpOr.when ⟨fun hview => ?_, fun hview => ?_⟩)
  · refine ⟨[⟨own, op, s.pTriggerPrg.head?.map Prod.fst⟩], ?_, (checked_emit s _).trans ?_⟩
    · rw [written, if_pos hview]
      exact .row .nil
    have hmem : ∀ f ∈ sch.fkeys, op.Erases f ∨ op.Writes f →
        f ∈ if required then sch.fkChecked op else [] := fun f hf h => by
      rw [if_pos (hreq f hf h)]
      exact mem_fkChecked hf h
    -- the lookup for the new row is there if it is not left out
    have hnew : ∀ f ∈ sch.fkeys, op.Writes f → (f ∈ ((if required then sch.fkChecked op else
        []).filter fun f => !isSetNullAction s f) ↔ ¬ isSetNullAction s f) := fun f hf h => by
      simp [hmem f hf (.inr h)]
    have hline : ∀ old new, (∀ f ∈ sch.fkeys, op.Erases f → f ∈ old) →
        (∀ f ∈ sch.fkeys, op.Writes f → (f ∈ new ↔ ¬ isSetNullAction s f)) →
        ((Line.row op old new).Checked sch own ↔
          Visit.Clear sch ⟨own, op, s.pTriggerPrg.head?.map Prod.fst⟩) := by
      intro old new hold hnew
      refine forall₂_congr fun f hf => ?_
      rw [← isSetNullAction_iff]
      have := hold f hf
      have := hnew f hf
      tauto
    rw [forall_mem_singleton]
    refine and_congr_right fun _ => ?_
    cases op with
    | insert t => exact hline _ _ (fun f _ h => h.2.elim) hnew
    | update t changes => exact hline _ _ (fun f hf h => hmem f hf (.inl h)) hnew
    | delete t trig => exact hline _ _ (fun f hf h => hmem f hf (.inl h)) fun f _ h => h.2.elim
  · refine ⟨[], ?_, by simp⟩
    rw [written, if_neg hview]
    exact .nil

section Rows

variable {g : Prg T C → Conflict → Proc (State T C) Error Unit}
  (hg : ∀ own p orconf, Follows sch own (g p orconf) [.call p orconf])
include hg

theorem follows_codeRowTriggerDirect :
    Follows sch own (codeRowTriggerDirect g own orconf p) [.call p orconf] :=
  .bind (hg own p orconf) fun s => ⟨[], .nil, (checked_emit s _).trans (by simp [Line.Checked])⟩

theorem follows_codeRowTrigger (before : Bool) : Follows sch own
    (codeRowTrigger sch g own op before orconf) (sch.calls op orconf before) :=
  .forEach_call (fun _ => follows_codeRowTriggerDirect hg) _

theorem follows_triggerColmask :
    Follows sch own (triggerColmask sch g op orconf) (sch.masked op orconf) :=
  .when (.forEach_call (fun _ => hg _ _ _) _)

theorem follows_codeActions : Follows sch own (codeActions sch g own op) (sch.actions op) :=
  .forEach_call (fun _ => follows_codeRowTriggerDirect hg) _

theorem follows_generateRowDelete {t : T} : Follows sch own
    (generateRowDelete sch g own (.delete t trig) orconf)
      (sch.deleted (.delete t trig) orconf) := by
  refine .bind (follows_triggerColmask hg) <| .bind (follows_codeRowTrigger hg true) <|
    .bind (follows_writeRow fun f hf h => ?_) <| .bind (follows_codeActions hg) <|
    follows_codeRowTrigger hg false
  rcases h with h | h
  · simp [fkRequired_of_erases hf h]
  · exact h.2.elim

theorem follows_codeUnique (t : T) (onError : Conflict) :
    Follows sch own (codeUnique sch g own t orconf onError) (sch.replaced orconf t onError) :=
  .when (follows_generateRowDelete hg)

theorem follows_codeUpdate {t : T} : Follows sch own
    (codeUpdate sch g own t changes orconf checks) (sch.updated orconf t changes checks) :=
  .bind (follows_triggerColmask hg) <| .bind (follows_codeRowTrigger hg true) <|
    .bind (.when (.forEach (follows_codeUnique hg t) checks)) <|
    .bind (follows_writeRow fun _ hf h => fkRequired_of_erases hf (h.elim id id)) <|
    .bind (.when (follows_codeActions hg)) (follows_codeRowTrigger hg false)

theorem follows_codeStatement :
    Follows sch own (codeStatement sch g own orconf st) (sch.items orconf st) := by
  cases st with
  | insert t _ checks =>
    refine .bind (follows_codeRowTrigger hg true) <|
      .bind (.when (.forEach (fun c => ?_) checks)) <|
      .bind (follows_writeRow fun _ _ _ => rfl) (follows_codeRowTrigger hg false)
    cases c with
    | unique onError => exact follows_codeUnique hg t onError
    | upsert changes => exact follows_codeUpdate hg
  | update t changes _ checks => exact follows_codeUpdate hg
  | delete t => exact follows_generateRowDelete hg
  | select => exact .pure

end Rows

/-- The induction is on the levels of programs that may still be nested. -/
theorem follows_getRowTrigger (own : Option (Prg T C)) (p : Prg T C) (orconf : Conflict) :
    Follows sch own (getRowTrigger sch depth p orconf) [.call p orconf] := by
  induction depth generalizing own p orconf with
  | zero =>
    refine fun s => wpOr.read (wpOr.ite ⟨fun hmem => ?_, fun _ => trivial⟩)
    exact ⟨[], .seen hmem .nil, by simp⟩
  | succ depth ih =>
    refine fun s => wpOr.read (wpOr.ite ⟨fun hmem => ?_, fun hnot => ?_⟩)
    · exact ⟨[], .seen hmem .nil, by simp⟩
    refine wpOr.write (.imp (Follows.forEach (fun st => follows_codeStatement ih) p.steps _) ?_)
    rintro - s' ⟨vs, hw, hs⟩
    exact ⟨vs ++ [], .new hnot hw .nil, by rwa [append_nil]⟩

/-- In the code of a statement each write of a child row, in every program it reaches, comes after
the parent lookups of the constraints whose child keys it may change, if and only if the walk of the
statement is clear. -/
theorem compile_checked {s : State T C} (h : compile sch depth stmt = some (.ok (), s)) :
    s.Checked sch ↔ sch.Clear stmt := by
  obtain ⟨vs, hw, hs⟩ := of_wp_ok (follows_codeStatement follows_getRowTrigger _) h
  have hchecked : s.Checked sch ↔ ∀ v ∈ vs, v.Clear sch := hs.trans (by simp [State.Checked])
  refine hchecked.trans ⟨fun hclear => ⟨_, vs, hw, hclear⟩, ?_⟩
  rintro ⟨l, vs', hw', hclear⟩
  obtain ⟨rfl, rfl⟩ := hw.unique hw'
  exact hclear

def toyKey (child : Nat) : FKey Nat Nat := ⟨0, child, 0, [1], [0], .setNull, .none⟩

def toySchema (child : Nat) (triggers : List (Trigger Nat Nat)) : Schema Nat Nat where
  fkeys := [toyKey child]
  triggers := triggers
  isView _ := false
  recTriggers := false
  deferFKs := false

/-- `DELETE FROM p` reaches the action, which alone writes the child key. -/
theorem compile_checked_delete :
    let s : State Nat Nat := ⟨[(.action (toyKey 1) false, .abort)],
      [(none, .row (.delete 0 true) [] []),
        (some (.action (toyKey 1) false), .row (.update 1 [1]) [toyKey 1] []),
        (none, .program (.action (toyKey 1) false) .abort)]⟩
    compile (toySchema 1 []) 1000 (.delete 0) = some (.ok (), s) ∧ s.Checked (toySchema 1 []) := by
  intro s
  have hrun : compile (toySchema 1 []) 1000 (.delete 0) = some (.ok (), s) := rfl
  have hwalk : Walk (toySchema 1 []) none ((toySchema 1 []).items .default (.delete 0)) []
      s.pTriggerPrg [⟨none, .delete 0 true, none⟩,
        ⟨some (.action (toyKey 1) false), .update 1 [1], some (.action (toyKey 1) false)⟩] :=
    .row (.new (u := [_]) (v := []) not_mem_nil (.row .nil) .nil)
  refine ⟨hrun, (compile_checked hrun).mpr ⟨_, _, hwalk, ?_⟩⟩
  refine forall_mem_cons.mpr ⟨fun f _ hw => hw.2.elim, forall_mem_singleton.mpr fun f hf _ _ => ?_⟩
  obtain rfl := mem_singleton.mp hf
  exact ⟨false, rfl, rfl, rfl⟩

/-- A BEFORE INSERT trigger on the child table that deletes from the parent table. -/
def toyTrigger : Trigger Nat Nat := ⟨0, 1, .insert, true, none, [.delete 0]⟩

/-- The inserted row has no lookup: after the trigger, with `INSERT INTO c`, and after the row
deleted by `REPLACE INTO p` where `p` refers to itself. -/
theorem compile_unchecked :
    (∃ s, compile (toySchema 1 [toyTrigger]) 1000 (.insert 1 .default []) = some (.ok (), s) ∧
      (none, .row (.insert 1) [] []) ∈ s.code) ∧
    (∃ s, compile (toySchema 0 []) 1000 (.insert 0 .replace [.unique .default]) =
      some (.ok (), s) ∧ (none, .row (.insert 0) [] []) ∈ s.code) ∧
    ¬ (Line.row (.insert 1) [] []).Checked (toySchema 1 [toyTrigger]) none ∧
    ¬ (Line.row (.insert 0) [] []).Checked (toySchema 0 []) none := by
  refine ⟨⟨_, rfl, by decide⟩, ⟨_, rfl, by decide⟩, fun h => ?_, fun h => ?_⟩
  · obtain hnew | ⟨_, _, hown, _⟩ := (h (toyKey 1) (by decide)).2 ⟨rfl, trivial⟩
    · cases hnew
    · cases hown
  · obtain hnew | ⟨_, _, hown, _⟩ := (h (toyKey 0) (by decide)).2 ⟨rfl, trivial⟩
    · cases hnew
    · cases hown

end SqlCipher.Fkey
