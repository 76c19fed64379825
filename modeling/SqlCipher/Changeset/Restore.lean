import SqlCipher.Changeset.Apply

/-!
# A failed apply leaves no trace

What `sqlite3changeset_apply_v2()` does to the transaction of the connection. Every part of it
leaves the stack of savepoints as it was if it succeeds, and has pushed only savepoints of its own
if it fails (`Balanced`). So `ROLLBACK TO changeset_apply` finds the savepoint of the call, with the
content on entry.

Without its own savepoint, a call that fails while `replace_op` or `update_op` is open leaves that
one behind; `Opens` says which of them a call can open. And the deferral of foreign keys is switched
off at the end whatever it was on entry.
-/

namespace SqlCipher.Changeset

open Proc List

variable {N V α β : Type}

/-- The handler may answer REPLACE to this change. -/
def World.Replaces (w : World N V) (c : Change V) : Prop :=
  ∃ n type row, w.conflict n type (some c) row = .replace

/-- The inner savepoints that a call with the changes `K` can open. -/
def Opens (w : World N V) (flags : Flags) (K : Change V → Prop) : SavepointName → Prop
  | .replaceOp => ∃ c, K c ∧ c.op = .insert ∧ w.Replaces c
  | .updateOp => flags.noUpdateLoop = false ∧ ∃ c, K c ∧ c.op = .update
  | _ => False

structure State.Same (s s' : State N V) : Prop where
  savepoints : s'.savepoints = s.savepoints
  begun : s'.begun = s.begun
  fkNoAction : s'.fkNoAction = s.fkNoAction
  events : s.events <:+ s'.events

/-- The transaction is as it was, with inner savepoints of the call on top. -/
structure State.Above (L : SavepointName → Prop) (s s' : State N V) : Prop where
  savepoints : ∃ inner, s'.savepoints = inner ++ s.savepoints ∧ ∀ p ∈ inner, L p.1
  begun : s'.begun = s.begun
  fkNoAction : s'.fkNoAction = s.fkNoAction
  events : s.events <:+ s'.events

namespace State

variable {L : SavepointName → Prop} {s s' s'' : State N V} {db : N → Content V}

theorem Same.refl (s : State N V) : Same s s := ⟨rfl, rfl, rfl, suffix_rfl⟩

theorem Same.trans (h : Same s s') (h' : Same s' s'') : Same s s'' :=
  ⟨h'.savepoints.trans h.savepoints, h'.begun.trans h.begun, h'.fkNoAction.trans h.fkNoAction,
    h.events.trans h'.events⟩

theorem Same.above (h : Same s s') : Above L s s' :=
  ⟨⟨[], by simp [h.savepoints]⟩, h.begun, h.fkNoAction, h.events⟩

theorem Same.trans_above (h : Same s s') (h' : Above L s' s'') : Above L s s'' := by
  obtain ⟨inner, hinner, hname⟩ := h'.savepoints
  exact ⟨⟨inner, by rw [hinner, h.savepoints], hname⟩, h'.begun.trans h.begun,
    h'.fkNoAction.trans h.fkNoAction, h.events.trans h'.events⟩

/-- What lies above a savepoint of the call lies above what is below it. -/
theorem Above.of_push (h : Above L { s with savepoints := (name, db) :: s.savepoints } s')
    (hname : L name) : Above L s s' := by
  obtain ⟨inner, hinner, hnames⟩ := h.savepoints
  refine ⟨⟨inner ++ [(name, db)], by simpa using hinner, ?_⟩, h.begun, h.fkNoAction, h.events⟩
  intro p hp
  rcases mem_append.mp hp with hp | hp
  · exact hnames p hp
  · rw [mem_singleton.mp hp]
    exact hname

end State

variable (w : World N V) (flags : Flags) (K : Change V → Prop)

def transaction : Frame (State N V) where
  inv s := ∀ c ∈ s.constraints, K c
  ok := State.Same
  err := State.Above (Opens w flags K)
  refl := State.Same.refl
  trans := State.Same.trans
  err_of_ok := State.Same.above
  err_trans := State.Same.trans_above

/-- The stack of savepoints is as it was after a success, and at least that after a failure. The
changes kept back are of the call. -/
abbrev Balanced (x : Call N V α) : Prop := Respects (transaction w flags K) x

def Pops (name : SavepointName) (x : Call N V α) : Prop :=
  ∀ s s₀ db, State.Same { s₀ with savepoints := (name, db) :: s₀.savepoints } s ∧
      (transaction w flags K).inv s →
    wp x (fun _ s' => State.Same s₀ s' ∧ (transaction w flags K).inv s')
      (fun _ => State.Above (Opens w flags K) s₀) s

/-- Balanced, and `true` comes from a REPLACE. -/
def Answers (c : Change V) (x : Call N V Bool) : Prop :=
  ∀ s, (transaction w flags K).inv s →
    wp x (fun again s' => (State.Same s s' ∧ (transaction w flags K).inv s') ∧
      (again = true → w.Replaces c)) (fun _ => State.Above (Opens w flags K) s) s

variable {w flags K} {c : Change V}

/-- What changes only the rest of the state. -/
theorem balanced_modify {f : State N V → State N V} (h : ∀ s, State.Same s (f s))
    (hf : ∀ s, (f s).constraints = s.constraints ∨ ∀ c ∈ (f s).constraints, K c) :
    Balanced w flags K (modify f) := by
  refine .modify fun s hs => ⟨h s, (hf s).elim (fun heq => ?_) id⟩
  exact fun c hc => hs c (heq ▸ hc)

theorem Answers.balanced (hx : Answers w flags K c x) : Balanced w flags K x := fun s hs =>
  .post (hx s hs) fun _ _ => And.left

theorem Answers.bind {x : Call N V α} {f : α → Call N V Bool} (hx : Balanced w flags K x)
    (hf : ∀ a, Answers w flags K c (f a)) : Answers w flags K c (x >>= f) := fun s hs =>
  .seq (hx s hs) fun a s' hs' => .mono (hf a s' hs'.2)
    (fun _ _ h => ⟨⟨hs'.1.trans h.1.1, h.1.2⟩, h.2⟩) fun _ _ => hs'.1.trans_above

theorem Answers.ite {b : Prop} [Decidable b] {x y : Call N V Bool} (hx : Answers w flags K c x)
    (hy : Answers w flags K c y) : Answers w flags K c (if b then x else y) := by
  split
  · exact hx
  · exact hy

section Scopes

variable {name : SavepointName} {x y : Call N V α} {f : α → Call N V β}

theorem pops_bind (hname : Opens w flags K name) (hx : Balanced w flags K x)
    (hf : ∀ a, Pops w flags K name (f a)) : Pops w flags K name (x >>= f) := by
  intro s s₀ db hs
  refine .bind (.mono (hx.after hs) (fun a s' hs' => ?_) fun _ s' hs' => ?_)
  · exact hf a s' s₀ db hs'
  · exact State.Above.of_push hs' hname

theorem Pops.bind (hx : Pops w flags K name x) (hf : ∀ a, Balanced w flags K (f a)) :
    Pops w flags K name (x >>= f) := by
  intro s s₀ db hs
  exact .seq (hx s s₀ db hs) fun a _ => (hf a).after

theorem pops_ite {b : Prop} [Decidable b] (hx : Pops w flags K name x)
    (hy : Pops w flags K name y) : Pops w flags K name (if b then x else y) := by
  split
  · exact hx
  · exact hy

end Scopes

theorem fromSavepoint_cons_self : fromSavepoint name ((name, db) :: rest) = (name, db) :: rest := by
  simp [fromSavepoint]

def World.KeepsTransaction (w : World N V) : Prop :=
  ∀ n q f, w.fault n q = some f → f.rollback = false

section Statements

variable (hw : w.KeepsTransaction)

include hw

/-- A statement changes at most the count of statements, if it does not end the transaction. -/
theorem statement_wp (q : Sql) (s : State N V) :
    wp (statement w q) (fun _ s' => s' = { s with statements := s.statements + 1 })
      (fun code s' => s' = { s with statements := s.statements + 1 } ∧
        ∃ f, w.fault s.statements q = some f ∧ f.code = code) s := by
  unfold statement
  simp only [wp_bind, wp_get, wp_modify]
  split
  · exact .pure rfl
  · rename_i f hf
    have hrollback := hw _ _ _ hf
    simp [hrollback, hf]

theorem statement_wp_of_none (h : ∀ n, w.fault n q = none) (s : State N V) :
    wp (statement w q) (fun _ s' => s' = { s with statements := s.statements + 1 })
      (fun _ _ => False) s :=
  .mono (statement_wp hw q s) (fun _ _ => id) fun _ _ ⟨_, f, hf, _⟩ => by
    rw [h] at hf
    cases hf

theorem balanced_statement (q : Sql) : Balanced w flags K (statement w q) := fun s hs =>
  .mono (statement_wp hw q s) (fun _ _ h => h ▸ ⟨⟨rfl, rfl, rfl, suffix_rfl⟩, hs⟩)
    fun _ _ h => h.1 ▸ State.Same.above ⟨rfl, rfl, rfl, suffix_rfl⟩

theorem balanced_savepoint_bind (hf : Pops w flags K name (f ())) :
    Balanced w flags K (savepoint w name >>= f) := by
  intro s hs
  refine .bind (.seq (balanced_statement hw _ s hs) fun _ s' hs' => ?_)
  refine .modify (hf _ s s'.db ⟨?_, hs'.2⟩)
  exact { hs'.1 with savepoints := by simp [hs'.1.savepoints] }

theorem pops_release (hname : Opens w flags K name) : Pops w flags K name (release w name) := by
  refine pops_bind hname (balanced_statement hw _) fun _ => ?_
  intro s s₀ db hs
  refine .read ?_
  rw [hs.1.savepoints, fromSavepoint_cons_self]
  exact .modify ⟨{ hs.1 with savepoints := rfl }, hs.2⟩

theorem pops_rollbackTo_bind (hname : Opens w flags K name) (hf : Pops w flags K name (f ())) :
    Pops w flags K name (rollbackTo w name >>= f) := by
  intro s s₀ db hs
  refine .bind (.bind (.mono ((balanced_statement hw _).after hs) (fun _ s' hs' => ?_)
    fun _ s' hs' => State.Above.of_push hs' hname))
  refine .read ?_
  rw [hs'.1.savepoints, fromSavepoint_cons_self]
  exact .modify (hf _ s₀ db ⟨{ hs'.1 with savepoints := rfl }, hs'.2⟩)

end Statements

/-! ## The parts of the call -/

theorem balanced_bindRow (fields : List (Option V)) :
    Balanced w flags K (bindRow fields : Call N V (List V)) := by
  unfold bindRow
  split
  · exact .pure _
  · exact .fail _

theorem answers_resolve {e : Env N V} (h : a = .replace → w.Replaces c) :
    Answers w flags K c (resolve e c a) := by
  have hadd (r : Bool) : Balanced w flags K (rebaseAdd e r c) :=
    .when fun _ => balanced_modify (fun _ => ⟨rfl, rfl, rfl, suffix_rfl⟩) fun _ => .inl rfl
  cases a with
  | replace => exact .bind (hadd true) fun _ s hs => ⟨⟨.refl s, hs⟩, fun _ => h rfl⟩
  | omitted => exact .bind (hadd false) fun _ s hs => ⟨⟨.refl s, hs⟩, nofun⟩
  | abort => exact fun s _ => State.Same.above (.refl s)
  | other => exact fun s _ => State.Same.above (.refl s)

theorem answers_skipNoop {e : Env N V} : Answers w flags K c (skipNoop e c) :=
  .bind (balanced_modify (fun _ => ⟨rfl, rfl, rfl, suffix_cons _ _⟩) fun _ => .inl rfl)
    fun _ => answers_resolve nofun

section Conflicts

variable {e : Env N V}

/-- What follows an answer may know where it comes from. -/
theorem answers_ask_bind (type : ConflictType) (row : Option (Row V)) {f : Answer → Call N V Bool}
    (hf : ∀ a, (a = .replace → e.world.Replaces c) → Answers e.world e.flags K c (f a)) :
    Answers e.world e.flags K c (ask e type c row >>= f) := by
  intro s hs
  refine .bind (.read (.write (.pure (.mono (hf _ (fun h => ⟨_, _, _, h⟩) _ hs)
    (fun _ _ h => ?_) fun _ _ h => ?_))))
  · exact ⟨⟨{ h.1.1 with events := (suffix_cons _ _).trans h.1.1.events }, h.1.2⟩, h.2⟩
  · exact { h with events := (suffix_cons _ _).trans h.events }

theorem answers_rowConflict (m : Misfit) (row : Row V) :
    Answers e.world e.flags K c (rowConflict e m c row) :=
  .ite answers_skipNoop (answers_ask_bind _ _ fun _ => answers_resolve)

theorem answers_missingRow (m : Misfit) (hc : K c) :
    Answers e.world e.flags K c (missingRow e m c) := by
  intro s hs
  refine .read (Answers.ite ?_ (.ite answers_skipNoop ?_) s hs)
  · refine .bind (.modify fun s hs => ⟨⟨rfl, rfl, rfl, suffix_rfl⟩, fun c' hc' => ?_⟩)
      fun _ s hs => ⟨⟨.refl s, hs⟩, nofun⟩
    exact (mem_append.mp hc').elim (hs c') fun h => mem_singleton.mp h ▸ hc
  · exact answers_ask_bind _ _ fun _ ha => .ite (fun s _ => State.Same.above (.refl s))
      (answers_resolve ha)

variable (hw : e.world.KeepsTransaction)

include hw

theorem answers_conflictHandler (m : Misfit) (seek : Bool) (hc : K c) :
    Answers e.world e.flags K c (conflictHandler e m seek c) := by
  refine .ite (.bind ?_ fun found => ?_) (answers_missingRow m hc)
  · exact .bind (balanced_bindRow _) fun _ => .bind (balanced_statement hw _) fun _ =>
      .get_bind fun _ _ => .pure _
  · cases found with
    | none => exact answers_missingRow m hc
    | some row => exact answers_rowConflict m row

theorem answers_afterWrite (first seek : Bool) (hc : K c) (r : Outcome) :
    Answers e.world e.flags K c (afterWrite e first seek c r) := by
  cases r with
  | changed => exact fun s hs => ⟨⟨.refl s, hs⟩, nofun⟩
  | unchanged => exact answers_conflictHandler hw _ _ hc
  | constraint =>
    exact .bind (balanced_modify (fun _ => ⟨rfl, rfl, rfl, suffix_cons _ _⟩) fun _ => .inl rfl)
      fun _ => answers_conflictHandler hw _ _ hc

end Conflicts

/-- The table is one of the call. -/
def Env.Of (w : World N V) (flags : Flags) (e : Env N V) : Prop := e.world = w ∧ e.flags = flags

theorem matchTable_of (h : matchTable w flags patchset g = some e) : e.Of w flags := by
  obtain ⟨t, -, ht⟩ := Option.bind_eq_some_iff.mp h
  split at ht
  · rw [← Option.some.inj ht]
    exact ⟨rfl, rfl⟩
  · cases ht

theorem openTable_wp (hw : w.KeepsTransaction) (patchset : Bool) (g : Group N V) (s : State N V) :
    wp (openTable w flags patchset g)
      (fun e s' => (State.Same s s' ∧ (transaction w flags K).inv s') ∧
        ∀ e', e = some e' → e'.Of w flags)
      (fun _ => State.Above (Opens w flags K) s) s := by
  refine .seq (Q := fun _ s' => State.Same s s' ∧ (transaction w flags K).inv s')
    (.modify ⟨⟨rfl, rfl, rfl, suffix_rfl⟩, nofun⟩) fun _ s₀ h₀ => ?_
  refine .ite ⟨fun _ => ⟨h₀, nofun⟩, fun _ => ?_⟩
  refine .seq ((balanced_statement hw _).after h₀) fun _ s₁ h₁ => ?_
  have hrest : Balanced w flags K (when ((matchTable w flags patchset g).isSome = true)
      (forEach (fun _ => statement w .prepare) [(), (), ()])) :=
    .when fun _ => .forEach fun _ _ => balanced_statement hw _
  exact .seq (hrest.after h₁) fun _ s₂ h₂ => ⟨h₂, fun e' => matchTable_of⟩

/-! ## The end of the call -/

/-- The statements that end the call do not fail. -/
structure World.CleansUp (w : World N V) (flags : Flags) : Prop where
  deferForeignKeys : ∀ n, w.fault n (.deferForeignKeys false) = none
  rollbackTo : flags.noSavepoint = false → ∀ n, w.fault n (.rollbackTo .changesetApply) = none
  release : flags.noSavepoint = false → ∀ n, w.fault n (.release .changesetApply) = none

def State.pushed (s : State N V) : State N V :=
  { s with savepoints := (.changesetApply, s.db) :: s.savepoints }

section Close

variable (hw : w.KeepsTransaction) (hclean : w.CleansUp flags)

include hw hclean

/-- Switching the deferral off does not fail, so the result is that of the body. -/
theorem setDeferForeignKeys_wp
    {f : Except ErrorCode Unit → Call N V (Except ErrorCode Unit)} (r : Except ErrorCode Unit)
    (h : wp (f r) P (fun _ _ => False)
      { s with statements := s.statements + 1, deferFks := false }) :
    wp (do
      let r' ← attempt (setDeferForeignKeys w false)
      f (firstError r r')) P (fun _ _ => False) s := by
  refine .bind (.attempt (.bind (.sure (statement_wp_of_none hw hclean.deferForeignKeys s) ?_)))
  rintro _ _ rfl
  cases r with
  | ok => exact h
  | error code => exact h

end Close

/-! ## Writing statements -/

variable [DecidableEq N]

section Parts

variable {e : Env N V} (hw : e.world.KeepsTransaction)

include hw

theorem balanced_write (f : Content V → Outcome × Content V) :
    Balanced e.world e.flags K (write e f) := by
  intro s hs
  refine .bind (.attempt (.mono (statement_wp hw _ s) (fun _ s' hs' => ?_) fun code s' hs' => ?_))
  · subst hs'
    exact ⟨⟨rfl, rfl, rfl, suffix_rfl⟩, hs⟩
  · rw [hs'.1]
    cases code
    case constraint => exact ⟨⟨rfl, rfl, rfl, suffix_rfl⟩, hs⟩
    all_goals exact State.Same.above ⟨rfl, rfl, rfl, suffix_rfl⟩

variable [DecidableEq V]

theorem balanced_writeUpdate (c : Change V) (any : Bool) :
    Balanced e.world e.flags K (writeUpdate e c any) := by
  unfold writeUpdate
  split <;> exact balanced_write hw _

theorem answers_applyOneOp (hc : K c) (first : Bool) :
    Answers e.world e.flags K c (applyOneOp e c first) := by
  unfold applyOneOp
  cases c.op with
  | delete =>
    refine .bind (balanced_bindRow _) fun key => .bind (.when fun _ => ?_) fun _ => ?_
    · exact .bind (balanced_bindRow _) fun _ => .pure _
    · exact .bind (balanced_write hw _) fun r => answers_afterWrite hw _ _ hc r
  | update =>
    refine .bind ?_ fun _ => .bind (balanced_writeUpdate hw c _) fun r =>
      answers_afterWrite hw _ _ hc r
    exact .bind (.when fun _ => .fail _) fun _ => .bind (balanced_statement hw _) fun _ =>
      .when fun _ => .fail _
  | insert =>
    exact .bind (balanced_bindRow _) fun _ => .bind (balanced_bindRow _) fun _ =>
      .bind (balanced_write hw _) fun r => answers_afterWrite hw _ _ hc r

theorem balanced_replaceRow (hc : K c) (hname : Opens e.world e.flags K .replaceOp) :
    Balanced e.world e.flags K (replaceRow e c) := by
  refine balanced_savepoint_bind hw ?_
  refine pops_bind hname (balanced_bindRow _) fun key => ?_
  refine pops_bind hname (balanced_write hw _) fun r => ?_
  refine pops_bind hname (.when fun _ => .fail _) fun _ => ?_
  exact pops_bind hname (answers_applyOneOp hw hc false).balanced fun _ => pops_release hw hname

theorem balanced_secondAttempt (hc : K c) (hreplaces : e.world.Replaces c) :
    Balanced e.world e.flags K (if c.op = .insert then replaceRow e c else do
      let _ ← applyOneOp e c false) :=
  .ite (fun hop => balanced_replaceRow hw hc ⟨c, hc, hop, hreplaces⟩)
    (.bind (answers_applyOneOp hw hc false).balanced fun _ => .pure _)

theorem balanced_applyOneWithRetry (hc : K c) :
    Balanced e.world e.flags K (applyOneWithRetry e c) := fun s hs =>
  .seq (answers_applyOneOp hw hc true s hs) fun _ _ h =>
    .when ⟨fun hagain => (balanced_secondAttempt hw hc (h.2 hagain)).after h.1, fun _ => h.1⟩

theorem balanced_applyRetryBuffer {cs : List (Change V)} (hcs : ∀ c ∈ cs, K c)
    (skip : Option Nat) : Balanced e.world e.flags K (applyRetryBuffer e cs skip) := by
  refine .forEach fun c hc => balanced_applyOneWithRetry hw (hcs c ?_)
  cases skip with
  | none => exact hc
  | some i => exact mem_of_mem_eraseIdx hc

theorem balanced_retryRounds (n : Nat) (skip : Option Nat) :
    Balanced e.world e.flags K (retryRounds e n skip) := by
  induction n generalizing skip with
  | zero => exact .pure _
  | succ n ih =>
    refine .get_bind fun s hs => .ite (fun _ => .pure _) ?_
    refine .bind (balanced_modify (fun _ => ⟨rfl, rfl, rfl, suffix_rfl⟩) fun _ => .inr nofun)
      fun _ => .bind (balanced_applyRetryBuffer hw hs _) fun _ => ?_
    exact .get_bind fun _ _ => .ite (fun _ => .pure _) (ih none)

theorem balanced_updateToUpdate (c : Change V) :
    Balanced e.world e.flags K (updateToUpdate e c) := by
  refine .bind (balanced_statement hw _) fun _ => .get_bind fun s _ => .ite (fun _ => .pure _) ?_
  refine .bind (balanced_statement hw _) fun _ => .bind (balanced_bindRow _) fun key => ?_
  exact .bind (balanced_write hw _) fun r => .pure _

theorem pops_closeUpdate (hname : Opens e.world e.flags K .updateOp) (c : Change V)
    {cons : List (Change V)} (hcons : ∀ c ∈ cons, K c) (key : Option (Key V)) :
    Pops e.world e.flags K .updateOp (closeUpdate e c cons key) := by
  have hrelease := pops_release hw hname
  refine pops_bind hname ?_ fun r => pops_ite ?_ (hrelease.bind fun _ => .pure true)
  · cases key with
    | none => exact .pure _
    | some key => exact balanced_write hw _
  · refine pops_rollbackTo_bind hw hname ?_
    exact pops_bind hname
      (balanced_modify (fun _ => ⟨rfl, rfl, rfl, suffix_rfl⟩) fun _ => .inr hcons)
      fun _ => hrelease.bind fun _ => .pure false

theorem balanced_tryUpdate (hname : Opens e.world e.flags K .updateOp) (c : Change V) (skip : Nat) :
    Balanced e.world e.flags K (tryUpdate e c skip) := by
  refine balanced_savepoint_bind hw ?_
  refine pops_bind hname (balanced_updateToUpdate hw c) fun key s s₀ db hs => .read ?_
  exact pops_bind hname (.when fun _ => balanced_retryRounds hw _ _)
    (fun _ => pops_closeUpdate hw hname c hs.2 key) s s₀ db hs

omit hw [DecidableEq N] [DecidableEq V] in
theorem updateIndex_mem {cs : List (Change V)} (h : updateIndex cs i = some (c, skip)) :
    c ∈ cs ∧ c.op = .update := by
  obtain ⟨hmem, hop⟩ := mem_filter.mp (mem_of_getElem? h)
  exact ⟨(mem_zipIdx' hmem).2 ▸ getElem_mem _, by simpa using hop⟩

theorem balanced_retryUpdates (hflag : e.flags.noUpdateLoop = false) (n iUpdate : Nat) :
    Balanced e.world e.flags K (retryUpdates e n iUpdate) := by
  induction n generalizing iUpdate with
  | zero => exact .pure _
  | succ n ih =>
    refine .get_bind fun s hs => ?_
    split
    · exact .pure _
    · obtain ⟨hmem, hop⟩ := updateIndex_mem ‹_›
      exact .bind (balanced_tryUpdate hw ⟨hflag, _, hs _ hmem, hop⟩ _ _) fun _ => ih _

theorem balanced_retryConstraints : Balanced e.world e.flags K (retryConstraints e) := by
  refine .get_bind fun s _ => .bind (balanced_retryRounds hw _ _) fun _ => ?_
  refine .get_bind fun s _ => .bind (.when fun h => balanced_retryUpdates hw h _ _) fun _ => ?_
  refine .get_bind fun s hs => .when fun _ => ?_
  exact .bind (balanced_modify (fun _ => ⟨rfl, rfl, rfl, suffix_rfl⟩) fun _ => .inr nofun)
    fun _ => balanced_applyRetryBuffer hw hs _

end Parts

/-! ## The whole call -/

section Whole

variable [DecidableEq V] (hw : w.KeepsTransaction)

include hw

theorem balanced_retryTable (he : ∀ e', e = some e' → e'.Of w flags) :
    Balanced w flags K (retryTable e) := by
  cases e with
  | none => exact .pure _
  | some e =>
    obtain ⟨rfl, rfl⟩ := he e rfl
    exact balanced_retryConstraints hw

theorem balanced_applyTable (he : ∀ e', e = some e' → e'.Of w flags) {cs : List (Change V)}
    (hcs : ∀ c ∈ cs, K c) : Balanced w flags K (applyTable e cs) := by
  cases e with
  | none => exact .pure _
  | some e =>
    obtain ⟨rfl, rfl⟩ := he e rfl
    exact .forEach fun c hc => .get_bind fun s _ => .when fun _ =>
      balanced_applyOneWithRetry hw (hcs c hc)

theorem applyGroups_wp (he : ∀ e', e = some e' → e'.Of w flags) {gs : List (Group N V)}
    (hgs : ∀ g ∈ gs, ∀ c ∈ g.changes, K c) (s : State N V) (hs : (transaction w flags K).inv s) :
    wp (applyGroups w flags patchset e gs)
      (fun e s' => (State.Same s s' ∧ (transaction w flags K).inv s') ∧
        ∀ e', e = some e' → e'.Of w flags)
      (fun _ => State.Above (Opens w flags K) s) s := by
  induction gs generalizing e s with
  | nil => exact ⟨⟨.refl s, hs⟩, he⟩
  | cons g gs ih =>
    have hrest := fun g' hg' => hgs g' (mem_cons_of_mem g hg')
    refine .ite ⟨fun _ => ih he hrest s hs, fun _ => ?_⟩
    refine .seq (balanced_retryTable hw he s hs) fun _ s₁ hs₁ => ?_
    refine .bind (.mono (openTable_wp hw patchset g s₁) ?_ fun _ _ => hs₁.1.trans_above)
    rintro e' s₂ ⟨hs₂, he'⟩
    refine .seq ((balanced_applyTable hw he' (hgs g mem_cons_self)).after
      ⟨hs₁.1.trans hs₂.1, hs₂.2⟩) fun _ s₃ hs₃ => ?_
    exact .mono (ih he' hrest s₃ hs₃.2) (fun _ _ h => ⟨⟨hs₃.1.trans h.1.1, h.1.2⟩, h.2⟩)
      fun _ _ => hs₃.1.trans_above

theorem balanced_applyGroups_bind
    (hf : ∀ e, (∀ e', e = some e' → e'.Of w flags) → Balanced w flags K (f e))
    {gs : List (Group N V)} (hgs : ∀ g ∈ gs, ∀ c ∈ g.changes, K c) :
    Balanced w flags K (applyGroups w flags patchset none gs >>= f) := fun s hs =>
  .seq (applyGroups_wp (e := none) hw nofun hgs s hs) fun e _ h => (hf e h.2).after h.1

omit hw [DecidableEq N] [DecidableEq V] in
theorem balanced_endOfInput (rc : Option ErrorCode) :
    Balanced w flags K (endOfInput rc : Call N V Unit) := by
  cases rc with
  | none => exact .pure _
  | some code => exact .fail _

omit hw [DecidableEq N] [DecidableEq V] in
theorem balanced_checkForeignKeys : Balanced w flags K (checkForeignKeys w) :=
  .get_bind fun _ _ => .when fun _ =>
    .bind (balanced_modify (fun _ => ⟨rfl, rfl, rfl, suffix_rfl⟩) fun _ => .inl rfl)
      fun _ => .when fun _ => .fail _

theorem balanced_applyRest (cs : Stream N V) (hcs : ∀ g ∈ cs.groups, ∀ c ∈ g.changes, K c)
    (rc : Option ErrorCode) : Balanced w flags K (do
    setDeferForeignKeys w true
    let e ← applyGroups w flags cs.patchset none cs.groups
    endOfInput rc
    retryTable e
    checkForeignKeys w) := by
  have hdefer : Balanced w flags K (setDeferForeignKeys w true) :=
    .bind (balanced_statement hw _) fun _ =>
      balanced_modify (fun _ => ⟨rfl, rfl, rfl, suffix_rfl⟩) fun _ => .inl rfl
  exact .bind hdefer fun _ => balanced_applyGroups_bind hw (fun e he =>
    .bind (balanced_endOfInput rc) fun _ => .bind (balanced_retryTable hw he) fun _ =>
      balanced_checkForeignKeys) hcs

/-- With a savepoint of its own the body runs on top of it, or could not open it. -/
theorem applyBody_wp (hflag : flags.noSavepoint = false) (cs : Stream N V)
    (hcs : ∀ g ∈ cs.groups, ∀ c ∈ g.changes, K c) (rc : Option ErrorCode) (s : State N V)
    (hs : (transaction w flags K).inv s) :
    wp (applyBody w flags cs rc) (fun _ s' => State.Same s.pushed s')
      (fun _ s' => State.Above (Opens w flags K) s.pushed s' ∨ State.Same s s' ∧ s'.db = s.db ∧
        ∃ n f, w.fault n (.savepoint .changesetApply) = some f) s := by
  refine .bind (.when ⟨fun _ => .bind ?_, fun h => absurd hflag h⟩)
  refine .mono (statement_wp hw _ s) (fun _ s' hs' => ?_) fun _ s' hs' => .inr ?_
  · subst hs'
    have hpushed : State.Same s.pushed { s.pushed with statements := s.statements + 1 } :=
      ⟨rfl, rfl, rfl, suffix_rfl⟩
    exact .modify (.mono ((balanced_applyRest hw cs hcs rc).after ⟨hpushed, hs⟩) (fun _ _ h => h.1)
      fun _ _ => .inl)
  · rw [hs'.1]
    obtain ⟨-, f, hf, -⟩ := hs'
    exact ⟨⟨rfl, rfl, rfl, suffix_rfl⟩, rfl, _, f, hf⟩

def Stream.Has (cs : Stream N V) (c : Change V) : Prop := ∃ g ∈ cs.groups, c ∈ g.changes

/-- What the environment must not do to the transaction. -/
structure Tame (w : World N V) (flags : Flags) (s : State N V) : Prop where
  keeps : w.KeepsTransaction
  clean : w.CleansUp flags
  opens : flags.noSavepoint = false → (∀ n, w.fault n (.savepoint .changesetApply) = none) ∨
    ∀ p ∈ s.savepoints, p.1 ≠ .changesetApply

/-- Without a savepoint of its own, the call does not open an inner one either. -/
structure Quiet (w : World N V) (flags : Flags) (cs : Stream N V) (s : State N V) : Prop
    extends Tame w flags s where
  quiet : flags.noSavepoint = true → ∀ name, ¬ Opens w flags cs.Has name

/-- The call returns, takes everything back if it fails (and has a savepoint of its own), and leaves
savepoints and settings as they were. -/
def Restores (w : World N V) (flags : Flags) (cs : Stream N V) (rc : Option ErrorCode)
    (s : State N V) : Prop :=
  ∃ r s', changesetApply w flags cs rc s = some (r, s') ∧
    (flags.noSavepoint = false → r ≠ .ok () → s'.db = s.db) ∧ s'.savepoints = s.savepoints ∧
    s'.fkNoAction = s.fkNoAction ∧ s'.deferFks = s.deferFks

end Whole

end SqlCipher.Changeset
