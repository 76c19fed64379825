import SqlCipher.Changeset.Restore

/-!
# What becomes of one change

The statements of a change read and write the row with its key only. Here is what the statement of
one attempt comes to (`Wrote`), on the part of the state that a change can move (`Sheet`). That the
change fits its row (`Env.Fits`) decides whether the first attempt writes it; the attempt after a
REPLACE writes any row, or meets a constraint (`Second`).
-/

namespace SqlCipher.Changeset

open Proc Table

variable {N V : Type}

structure Sheet (N V : Type) where
  db : N → Content V
  constraints : List (Change V)
  deferConstraints : Bool
  rebase : List (RebaseEntry N V)
  events : List (Event N V)

def State.sheet (s : State N V) : Sheet N V where
  db := s.db
  constraints := s.constraints
  deferConstraints := s.deferConstraints
  rebase := s.rebase
  events := s.events

variable (e : Env N V) (c : Change V)

def Env.key : Option (Key V) :=
  (defined (keyFields e.pk c.keyRecord)).map e.table.norm

def Env.result (row : Option (Row V)) : Option (Row V) :=
  match c.op with
  | .insert => (defined c.new).map fun values => values ++ e.table.dflt.drop values.length
  | .delete => none
  | .update => row.map (assign e.pk c.new)

def Env.Fits (row : Option (Row V)) : Prop :=
  match c.op with
  | .insert => row = none
  | _ => ∃ r, row = some r ∧ (e.patchset || e.table.holds (nonKey e.pk c.old) r) = true

section Rows

variable {e : Env N V} {c : Change V}

theorem fits_iff_of_ne_insert (hop : c.op ≠ .insert) (row : Option (Row V)) : e.Fits c row ↔
    ∃ r, row = some r ∧ (e.patchset || e.table.holds (nonKey e.pk c.old) r) = true := by
  unfold Env.Fits
  cases h : c.op with
  | insert => exact absurd h hop
  | update => rfl
  | delete => rfl

theorem key_of_ne_insert (hop : c.op ≠ .insert)
    (hkey : defined (keyFields e.pk c.old) = some key) : e.key c = some (e.table.norm key) := by
  rw [Env.key, Change.keyRecord, if_neg hop, hkey]
  rfl

theorem key_of_insert (hop : c.op = .insert)
    (hkey : defined (keyFields e.pk c.new) = some key) : e.key c = some (e.table.norm key) := by
  rw [Env.key, Change.keyRecord, if_pos hop, hkey]
  rfl

end Rows

/-- A UNIQUE constraint is the only kind of constraint that a statement can meet. -/
def World.OnlyUnique (w : World N V) : Prop :=
  ∀ n f, w.fault n .write = some f → f.code ≠ .constraint

namespace Sheet

variable [DecidableEq N] [DecidableEq V]

def put (tab : N) (k : Key V) (row : Option (Row V)) (x : Sheet N V) : Sheet N V :=
  { x with db := Function.update x.db tab (Function.update (x.db tab) k row) }

end Sheet

/-! ## Statements that write -/

namespace Table

variable [DecidableEq V] {t : Table V} {key : Key V} {rows : Content V} {row : Row V}
  {others : List (Option V)} {set : Row V → Row V}

theorem delete_of_match (h : rows (t.norm key) = some row)
    (hmatch : (any || t.holds others row) = true) :
    t.delete key any others rows = (.changed, Function.update rows (t.norm key) none) := by
  simp [delete, h, hmatch]

end Table

/-! ## Statements -/

section Sheets

variable {w : World N V} {s : State N V} (hw : w.KeepsTransaction)

include hw

theorem statement_sheet (q : Sql) : ends (statement w q) (fun _ s' => s'.sheet = s.sheet) s :=
  .imp (statement_wp hw q s) fun _ _ h => h ▸ rfl

theorem savepoint_sheet (name : SavepointName) :
    ends (savepoint w name) (fun _ s' => s'.sheet = s.sheet) s :=
  .seq (statement_sheet hw _) fun _ _ h => .modify h

theorem releaseAs_sheet (q : Sql) (name : SavepointName) :
    ends (releaseAs w q name) (fun _ s' => s'.sheet = s.sheet) s := by
  refine .seq (statement_sheet hw _) fun _ s' h => .read ?_
  cases fromSavepoint name s'.savepoints with
  | nil => trivial
  | cons p rest => exact .modify h

theorem release_sheet (name : SavepointName) :
    ends (release w name) (fun _ s' => s'.sheet = s.sheet) s :=
  releaseAs_sheet hw _ name

theorem undoApply_error (code : ErrorCode) (s : State N V) :
    wp (undoApply w code) (fun r _ => r = .error code) (fun _ _ => False) s := by
  have hback : ∀ s : State N V, ends (rollbackTo w .changesetApply) (fun _ _ => True) s := by
    intro s
    refine .seq (statement_sheet hw _) fun _ s₁ _ => ?_
    refine .read ?_
    cases fromSavepoint .changesetApply s₁.savepoints <;> trivial
  refine .caught (I := fun _ _ => True) (hback s) fun _ s₁ _ => ?_
  exact .caught (I := fun _ _ => True) (.imp (release_sheet hw _) fun _ _ _ => trivial)
    fun _ _ _ => .pure rfl

/-- The end of the call leaves the sheet as it is, if the call returns OK. -/
theorem closeApply_sheet (r : Except ErrorCode Unit) (s : State N V) :
    ends (closeApply w r) (fun r' s' => r' = .ok () → r = .ok () ∧ s'.sheet = s.sheet) s := by
  have hundo : ∀ (r : Except ErrorCode Unit) (code : ErrorCode) (s₁ : State N V),
      ends (undoApply w code) (fun r' s' => r' = .ok () → r = .ok () ∧ s'.sheet = s.sheet) s₁ :=
        fun r code s₁ =>
    .sure (undoApply_error hw code s₁) fun r' _ h h' => absurd (h.symm.trans h') nofun
  cases r with
  | error code => exact hundo _ code s
  | ok =>
    refine .bind (.attempt (.mono (releaseAs_sheet hw _ _) (fun _ s₁ h => ?_) fun code s₁ _ => ?_))
    · exact fun _ => ⟨rfl, h⟩
    · exact hundo _ code s₁

theorem closeScope_sheet (flags : Flags) (r : Except ErrorCode Unit) (s : State N V) :
    ends (do
      let r' ← attempt (setDeferForeignKeys w false)
      if flags.noSavepoint = true then pure (firstError r r') else closeApply w (firstError r r'))
      (fun r' s' => r' = .ok () → r = .ok () ∧ s'.sheet = s.sheet) s := by
  refine .caught (I := fun r' s₁ => r' = .ok () → s₁.sheet = s.sheet) ?_ fun r' s₁ hs₁ => ?_
  · exact .bind (.mono (statement_sheet hw _) (fun _ _ h => .modify fun _ => h) fun _ _ _ => nofun)
  have hfirst : firstError r r' = .ok () → r = .ok () ∧ s₁.sheet = s.sheet := by
    cases r with
    | error code => exact nofun
    | ok => exact fun h => ⟨rfl, hs₁ h⟩
  refine .ite ⟨fun _ => .pure hfirst, fun _ => ?_⟩
  refine .post (closeApply_sheet hw _ s₁) fun r'' s' h hr'' => ?_
  obtain ⟨hr, hs'⟩ := h hr''
  exact ⟨(hfirst hr).1, hs'.trans (hfirst hr).2⟩

/-- What the body of the call comes to is what the call comes to, if it returns OK. -/
theorem changesetApply_sheet [DecidableEq N] [DecidableEq V] {P : Sheet N V → Prop}
    (h : ends (applyBody w flags cs rc) (fun _ s₁ => P s₁.sheet)
      { s with
        constraints := []
        rebase := []
        deferConstraints := false
        fkNoAction := s.fkNoAction || flags.fkNoAction }) :
    ends (changesetApply w flags cs rc) (fun _ s' => P s'.sheet) s := by
  refine .read (.write (.bind (.caught (I := fun r s₁ => r = .ok () → P s₁.sheet)
    (.mono h (fun _ _ hs₁ _ => hs₁) fun _ _ _ => nofun) fun r s₁ hs₁ => ?_)))
  refine .post (closeScope_sheet hw flags r s₁) fun r' s₂ hs₂ => ?_
  refine .bind (.when ⟨fun _ => .modify ?_, fun _ => ?_⟩)
  all_goals
    refine wp_ofExcept.mpr ⟨fun _ hr => ?_, fun _ _ => trivial⟩
    exact (congrArg P (hs₂ hr).2).mpr (hs₁ (hs₂ hr).1)

end Sheets

section Statements

variable {e : Env N V} {c : Change V} {s : State N V} (hw : e.world.KeepsTransaction)

theorem bindRow_wp : wp (bindRow fields : Call N V (List V)) Q E s ↔
      (∀ values, defined fields = some values → Q values s) ∧
        (defined fields = none → E .corrupt s) := by
  unfold bindRow
  cases defined fields <;> simp

include hw

theorem seekToRow_wp :
    ends (seekToRow e c)
      (fun row s' => ∃ k, e.key c = some k ∧ row = s.db e.tab k ∧ s'.sheet = s.sheet) s := by
  refine .bind (bindRow_wp.mpr ⟨fun key hkey => ?_, fun _ => trivial⟩)
  refine .seq (statement_sheet hw _) fun _ s' h => ?_
  refine .read (.pure ⟨e.table.norm key, ?_, ?_, h⟩)
  · rw [Env.key, hkey]
    rfl
  · exact congrFun (congrFun (congrArg Sheet.db h) e.tab) _

theorem afterWrite_second_wp (seek : Bool) :
    ends (afterWrite e false seek c .constraint)
      (fun _ s' => .constraint e.toHeader c true ∈ s'.events) s := by
  refine .write ?_
  refine .imp (answers_conflictHandler (K := fun _ => True) hw _ _ trivial _ fun _ _ => trivial)
    fun _ s' h => ?_
  exact h.1.1.events.subset List.mem_cons_self

variable [DecidableEq N]

theorem write_wp (hu : e.world.OnlyUnique) (f : Content V → Outcome × Content V) :
    ends (write e f) (fun o s' => o = (f (s.db e.tab)).1 ∧
      s'.sheet = { s.sheet with db := Function.update s.db e.tab (f (s.db e.tab)).2 }) s := by
  refine .bind (.attempt (.mono (statement_wp hw _ s) (fun _ s' hs' => ?_) fun code s' hs' => ?_))
  · subst hs'
    exact ⟨rfl, rfl⟩
  · obtain ⟨-, f, hf, rfl⟩ := hs'
    have hcode := hu _ f hf
    split
    · exact absurd (by assumption) (by simp_all)
    · trivial
    · simp_all

end Statements

/-! ## What the statement of a change does -/

theorem nonKey_all_isNone (pk : List Bool)
    (h : fields.all (·.isNone) = true) : (nonKey pk fields).all (·.isNone) = true := by
  induction pk generalizing fields with
  | nil => simp [nonKey]
  | cons b pk ih =>
    cases fields with
    | nil => simp [nonKey]
    | cons f fields =>
      simp only [List.all_cons, Bool.and_eq_true] at h
      rw [nonKey, List.zipWith_cons_cons, List.all_cons, Bool.and_eq_true]
      refine ⟨?_, ih h.2⟩
      cases b
      · exact h.1
      · rfl

def Env.Ready : Prop :=
  match c.op with
  | .insert => (defined c.new).isSome = true
  | .delete => (e.patchset || (defined c.old).isSome) = true
  | .update => (nonKey e.pk c.new).all (·.isNone) = false

section Writes

variable [DecidableEq V]

/-- What the statement of a change does to the row with the key `k`, which may be any the second
time. -/
inductive Wrote (e : Env N V) (c : Change V) (first : Bool) (k : Key V) (rows : Content V) :
    Outcome × Content V → Prop
  | changed (hfit : e.Fits c (rows k) ∨ first = false) :
      Wrote e c first k rows (.changed, Function.update rows k (e.result c (rows k)))
  | unique (hfit : e.Fits c (rows k) ∨ first = false) (row : Row V)
      (hunique : e.table.unique rows k row = true) : Wrote e c first k rows (.constraint, rows)
  | unchanged (hop : c.op ≠ .insert) (hfit : ¬ e.Fits c (rows k))
      (hrow : first = false → rows k = none) : Wrote e c first k rows (.unchanged, rows)
  | taken (hop : c.op = .insert) (hrow : (rows k).isSome = true) :
      Wrote e c first k rows (.constraint, rows)

variable {e : Env N V} {c : Change V} {key : Key V} (first : Bool) (rows : Content V)

theorem delete_wrote (hop : c.op = .delete) : Wrote e c first (e.table.norm key) rows
    (e.table.delete key (!first || e.patchset) (nonKey e.pk c.old) rows) := by
  have hres : e.result c (rows (e.table.norm key)) = none := by rw [Env.result, hop]
  have hfits := fits_iff_of_ne_insert (e := e) (c := c) (by rw [hop]; decide)
    (rows (e.table.norm key))
  unfold delete
  split
  · exact .unchanged (by rw [hop]; decide) (by grind) (by grind)
  · split
    · rw [← hres]
      exact .changed (by grind)
    · exact .unchanged (by rw [hop]; decide) (by grind) (by grind)

theorem update_wrote (hop : c.op = .update) : Wrote e c first (e.table.norm key) rows
    (e.table.update key (if !first || e.patchset then [] else nonKey e.pk c.old)
      (assign e.pk c.new) rows) := by
  have hne : c.op ≠ .insert := by rw [hop]; decide
  have hfits := fits_iff_of_ne_insert (e := e) hne (rows (e.table.norm key))
  have hall : ∀ r : Row V, e.table.holds [] r = true := fun r => rfl
  cases hrow : rows (e.table.norm key) with
  | none =>
    simp only [update, hrow]
    exact .unchanged hne (by grind) fun _ => hrow
  | some r =>
    by_cases hmatch : e.table.holds
      (if !first || e.patchset then [] else nonKey e.pk c.old) r = true
    · have hfit : e.Fits c (rows (e.table.norm key)) ∨ first = false := by grind
      by_cases hunique : e.table.unique rows (e.table.norm key) (assign e.pk c.new r) = true
      · simp only [update, hrow, hmatch, hunique, if_true]
        exact .unique hfit _ hunique
      · have hres : some (assign e.pk c.new r) = e.result c (rows (e.table.norm key)) := by
          rw [Env.result, hop, hrow]
          rfl
        simp only [update, hrow, hmatch, hunique, if_true, if_false]
        rw [hres]
        exact .changed hfit
    · simp only [update, hrow, hmatch, if_false]
      exact .unchanged hne (by grind) (by grind)

theorem insert_wrote (hop : c.op = .insert) (hvalues : defined c.new = some values) :
    Wrote e c first (e.table.norm key) rows (e.table.insert key values rows) := by
  have hres : e.result c (rows (e.table.norm key)) =
      some (values ++ e.table.dflt.drop values.length) := by
    rw [Env.result, hop, hvalues]
    rfl
  unfold Table.insert
  cases hrow : rows (e.table.norm key) with
  | some r => exact .taken hop (by simp [hrow])
  | none =>
    have hfit : e.Fits c (rows (e.table.norm key)) := by rwa [Env.Fits, hop]
    simp only [Option.isSome_none, Bool.false_or]
    split
    · exact .unique (.inl hfit) _ ‹_›
    · rw [← hres]
      exact .changed (.inl hfit)

end Writes

/-! ## Attempts -/

variable [DecidableEq N] [DecidableEq V]

section Attempts

variable {e : Env N V} {c : Change V}

/-- An attempt at a change runs its statement, unless it fails before. Without its key an UPDATE
finds no row. -/
theorem applyOneOp_of_write (hw : e.world.KeepsTransaction) {first : Bool} {s : State N V}
    {Q : Bool → State N V → Prop} {E : ErrorCode → State N V → Prop}
    (hfault : ∀ code s' n q f, e.world.fault n q = some f → E code s')
    (hbad : ∀ code s', (e.Ready c → e.key c = none) → E code s')
    (hwrite : ∀ n k f, e.key c = some k → e.Ready c → (∀ rows, Wrote e c first k rows (f rows)) →
      wp (write e f >>= afterWrite e first (decide (c.op = .insert) && first) c) Q E
        { s with statements := n })
    (hlost : ∀ n, e.key c = none →
      wp (write e (fun rows => (.unchanged, rows)) >>= afterWrite e first false c) Q E
        { s with statements := n }) :
    wp (applyOneOp e c first) Q E s := by
  unfold applyOneOp bindKey
  cases hop : c.op with
  | delete =>
    refine .bind (bindRow_wp.mpr ⟨fun key hkey => ?_, fun hkey => hbad _ _ fun _ => ?_⟩)
    · have hk := key_of_ne_insert (by rw [hop]; decide) hkey
      have hrest (hready : e.Ready c) := hwrite s.statements _ _ hk hready fun rows =>
        delete_wrote first rows hop
      simp only [hop, reduceCtorEq, decide_false, Bool.false_and] at hrest
      refine .bind (.when ⟨fun hpatch => ?_, fun hpatch => hrest ?_⟩)
      · refine .bind (bindRow_wp.mpr ⟨fun values hold => hrest ?_, fun hold => hbad _ _ ?_⟩)
        · simp [Env.Ready, hop, hold]
        · simp [Env.Ready, hop, hpatch, hold]
      · simp [Env.Ready, hop, hpatch]
    · simp [Env.key, Change.keyRecord, hop, hkey]
  | update =>
    have hempty (h : (nonKey e.pk c.new).all (·.isNone) = true) : ¬ e.Ready c := by
      simp [Env.Ready, hop, h]
    refine .bind (.bind (.when ⟨fun h => hbad _ _ fun hready => ?_, fun _ => ?_⟩))
    · exact absurd hready (hempty (nonKey_all_isNone e.pk h))
    refine .bind (.mono (statement_wp hw _ s) ?_ fun code s' ⟨_, f, hf, _⟩ =>
      hfault code s' _ _ f hf)
    rintro _ s₁ rfl
    refine .when ⟨fun h => hbad _ _ fun hready => absurd hready (hempty h), fun h => ?_⟩
    unfold writeUpdate
    cases hkey : defined (keyFields e.pk c.old) with
    | none => exact hlost _ (by simp [Env.key, Change.keyRecord, hop, hkey])
    | some key =>
      have hk := key_of_ne_insert (by rw [hop]; decide) hkey
      simpa [hop] using hwrite _ _ _ hk (by simpa [Env.Ready, hop] using h) fun rows =>
        update_wrote first rows hop
  | insert =>
    refine .bind (bindRow_wp.mpr ⟨fun values hvalues => ?_, fun hvalues => hbad _ _ ?_⟩)
    · refine .bind (bindRow_wp.mpr ⟨fun key hkey => ?_, fun hkey => hbad _ _ fun _ => ?_⟩)
      · simpa [hop] using hwrite s.statements _ _ (key_of_insert hop hkey)
          (by simp [Env.Ready, hop, hvalues]) fun rows => insert_wrote first rows hop hvalues
      · simp [Env.key, Change.keyRecord, hop, hkey]
    · simp [Env.Ready, hop, hvalues]

end Attempts

/-! ## After REPLACE -/

/-- What follows a REPLACE: the row is written, or a UNIQUE constraint is met. -/
def Second (k : Key V) (s s' : State N V) : Prop :=
  s'.sheet = s.sheet.put e.tab k (e.result c (s.db e.tab k)) ∨
    (∃ rows row, e.table.unique rows k row = true) ∧ .constraint e.toHeader c true ∈ s'.events

section SecondAttempt

variable {e : Env N V} {c : Change V} {k : Key V} {s : State N V}
  (hw : e.world.KeepsTransaction) (hu : e.world.OnlyUnique)

include hw hu

/-- The second attempt writes the row, or meets a constraint. -/
theorem applyOneOp_second_wp (hk : e.key c = some k)
    (hrow : (s.db e.tab k).isSome = true ↔ c.op ≠ .insert) :
    ends (applyOneOp e c false) (fun _ => Second e c k s) s := by
  refine applyOneOp_of_write hw (fun _ _ _ _ _ _ => trivial) (fun _ _ _ => trivial)
    (fun n k' f hk' _ hf => ?_) fun n hk' => ?_
  · obtain rfl := Option.mem_unique hk hk'
    refine .seq (write_wp hw hu f) fun o s₁ ⟨ho, hs₁⟩ => ?_
    have hwrote := hf (s.db e.tab)
    simp only at ho hs₁
    rw [ho]
    generalize f (s.db e.tab) = r at hwrote hs₁
    cases hwrote with
    | changed => exact .pure (.inl hs₁)
    | unique _ row hunique =>
      exact .post (afterWrite_second_wp hw _) fun _ _ h => .inr ⟨⟨_, row, hunique⟩, h⟩
    | unchanged hop _ hnone => simp [hnone rfl, hop] at hrow
    | taken hop hsome => simp [hsome, hop] at hrow
  · cases hk.symm.trans hk'

theorem replaceRow_wp (hop : c.op = .insert) (hk : e.key c = some k)
    (hrow : (s.db e.tab k).isSome = true) : ends (replaceRow e c) (fun _ => Second e c k s) s := by
  obtain ⟨r, hr⟩ := Option.isSome_iff_exists.mp hrow
  refine .seq (savepoint_sheet hw _) fun _ s₀ hs₀ => ?_
  have hdb : s₀.db = s.db := congrArg Sheet.db hs₀
  refine .bind (bindRow_wp.mpr ⟨fun key hkey => ?_, fun _ => trivial⟩)
  obtain rfl := Option.some.inj (hk.symm.trans (key_of_insert hop hkey))
  refine .seq (write_wp hw hu _) ?_
  rintro o s₂ ⟨rfl, hs₂⟩
  rw [hs₀, hdb, delete_of_match hr rfl] at hs₂
  rw [hdb, delete_of_match hr rfl]
  refine .bind (.when ⟨fun h => (nomatch h), fun _ => ?_⟩)
  -- the row is gone, so the INSERT finds its key free
  have hnone : s₂.db e.tab (e.table.norm key) = none := by
    rw [show s₂.db = _ from congrArg Sheet.db hs₂]
    simp
  have hput : s₂.sheet.put e.tab (e.table.norm key) (e.result c (s₂.db e.tab (e.table.norm key))) =
      s.sheet.put e.tab (e.table.norm key) (e.result c (s.db e.tab (e.table.norm key))) := by
    rw [Env.result, Env.result, hop, hs₂]
    simp [Sheet.put, State.sheet]
  refine .seq (applyOneOp_second_wp hw hu hk (by simp [hnone, hop])) fun _ s₃ hs₃ => ?_
  refine .post (release_sheet hw _) fun _ s' hs' => ?_
  rcases hs₃ with hs₃ | ⟨hunique, hs₃⟩
  · exact .inl (by rw [hs', hs₃, hput])
  · exact .inr ⟨hunique, by rwa [show s'.events = s₃.events from congrArg Sheet.events hs']⟩

end SecondAttempt

end SqlCipher.Changeset
