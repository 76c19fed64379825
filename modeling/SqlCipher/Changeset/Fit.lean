import SqlCipher.Changeset.Outcome
import SqlCipher.Library.PointUpdate

/-!
# Changesets that fit

A changeset fits a content if each of its changes finds its row as it expects it. What applying
it comes to is then a function of the content alone (`Stream.run`). Where that function is
defined, `sqlite3changeset_apply_v2()` computes it and asks nothing; where it is not, the call
fails or something is left in the events. This is for tables without constraints other than the
primary key and for statements that do not fail (`World.Plain`).
-/

namespace SqlCipher.Changeset

open Proc PointUpdate

variable {N V α β : Type}

/-- No statement fails, nothing is filtered out, and the primary keys are the only constraints. -/
structure World.Plain (w : World N V) : Prop where
  fault : ∀ n q, w.fault n q = none
  filter : ∀ n, w.filter n = true
  filterIter : ∀ n c, w.filterIter n c = true
  deferredFks : ∀ db, w.deferredFks db = 0
  unique : ∀ n t, w.schema n = some t → ∀ rows k row, t.unique rows k row = false

theorem World.Plain.keepsTransaction {w : World N V} (hw : w.Plain) : w.KeepsTransaction := by
  intro n q f hf
  rw [hw.fault] at hf
  cases hf

theorem World.Plain.onlyUnique {w : World N V} (hw : w.Plain) : w.OnlyUnique := by
  intro n f hf
  rw [hw.fault] at hf
  cases hf

def Env.rowStep (e : Env N V) (c : Change V) (row : Option (Row V)) : Option (Option (Row V)) :=
  match c.op, row with
  | .insert, none =>
    (defined c.new).map fun values => some (values ++ e.table.dflt.drop values.length)
  | .delete, some r =>
    if e.patchset || ((defined c.old).isSome && e.table.holds (nonKey e.pk c.old) r) then some none
    else none
  | .update, some r =>
    if !(nonKey e.pk c.new).all (·.isNone) && (e.patchset || e.table.holds (nonKey e.pk c.old) r)
    then some (some (Table.assign e.pk c.new r)) else none
  | _, _ => none

section Rows

variable {e : Env N V} {c : Change V}

theorem rowStep_none (hop : c.op ≠ .insert) : e.rowStep c none = none := by
  cases h : c.op with
  | insert => exact absurd h hop
  | update => simp [Env.rowStep, h]
  | delete => simp [Env.rowStep, h]

theorem rowStep_insert_none (hop : c.op = .insert) : e.rowStep c none =
    (defined c.new).map fun values => some (values ++ e.table.dflt.drop values.length) := by
  simp [Env.rowStep, hop]

theorem rowStep_insert_some (hop : c.op = .insert) (r : Row V) : e.rowStep c (some r) = none := by
  simp [Env.rowStep, hop]

theorem rowStep_delete (hop : c.op = .delete) (r : Row V) : e.rowStep c (some r) =
    if e.patchset || ((defined c.old).isSome && e.table.holds (nonKey e.pk c.old) r) then some none
    else none := by
  simp [Env.rowStep, hop]

theorem rowStep_update (hop : c.op = .update) (r : Row V) : e.rowStep c (some r) =
    if !(nonKey e.pk c.new).all (·.isNone) && (e.patchset || e.table.holds (nonKey e.pk c.old) r)
    then some (some (Table.assign e.pk c.new r)) else none := by
  simp [Env.rowStep, hop]

theorem rowStep_of_fits (hready : e.Ready c) (hfit : e.Fits c row) :
    e.rowStep c row = some (e.result c row) := by
  unfold Env.rowStep
  cases hnew : defined c.new <;> split <;> grind [Env.Ready, Env.Fits, Env.result]

theorem rowStep_of_not_fits (hfit : ¬ e.Fits c row) : e.rowStep c row = none := by
  unfold Env.rowStep
  split <;> grind [Env.Fits]

theorem rowStep_of_not_ready (hready : ¬ e.Ready c) (row : Option (Row V)) :
    e.rowStep c row = none := by
  unfold Env.rowStep
  cases hnew : defined c.new <;> split <;> grind [Env.Ready]

end Rows

section Steps

variable [DecidableEq V]

def Env.step (e : Env N V) (c : Change V) (rows : Content V) : Option (Content V) :=
  (e.key c).bind fun k => onPoint k (e.rowStep c) rows

theorem step_of_key {e : Env N V} (hk : e.key c = some k) (rows : Content V) :
    e.step c rows = (e.rowStep c (rows k)).map (Function.update rows k) := by
  rw [Env.step, hk]
  rfl

def Env.run (e : Env N V) (cs : List (Change V)) (rows : Content V) : Option (Content V) :=
  cs.foldlM (fun rows c => e.step c rows) rows

variable [DecidableEq N]

/-- The content after the changes of a group; a group without a table is passed over. -/
def Group.run (w : World N V) (flags : Flags) (patchset : Bool) (g : Group N V)
    (db : N → Content V) : Option (N → Content V) :=
  match matchTable w flags patchset g with
  | none => some db
  | some e => onPoint g.tab (e.run g.changes) db

def Stream.run (w : World N V) (flags : Flags) (cs : Stream N V) (db : N → Content V) :
    Option (N → Content V) :=
  cs.groups.foldlM (fun db g => g.run w flags cs.patchset db) db

end Steps

/-! ## Following a function on contents -/

structure State.Calm (s : State N V) (db : N → Content V) (s' : State N V) : Prop where
  db : s'.db = db
  events : s'.events = s.events
  asked : s'.asked = s.asked
  rebase : s'.rebase = s.rebase
  constraints : s'.constraints = []

/-- The content becomes what is given; if nothing is given, something happened on the way. -/
def Follows (s : State N V) (s' : State N V) : Option (N → Content V) → Prop
  | some db => s.Calm db s'
  | none => s.events.length < s'.events.length

/-- The procedure does to the content what `f` says; where `f` is undefined it fails, or something
happens. -/
def Tracks (x : Call N V α) (f : (N → Content V) → Option (N → Content V)) : Prop :=
  ∀ s, s.constraints = [] →
    wp x (fun _ s' => Follows s s' (f s.db)) (fun _ _ => f s.db = none) s

section Tracking

variable {s s' s'' : State N V} {x : Call N V α} {y : α → Call N V β}
  {f g : (N → Content V) → Option (N → Content V)}

theorem State.Calm.trans {db db' : N → Content V} (h : s.Calm db s') (h' : s'.Calm db' s'') :
    s.Calm db' s'' :=
  ⟨h'.db, h'.events.trans h.events, h'.asked.trans h.asked, h'.rebase.trans h.rebase,
    h'.constraints⟩

theorem Follows.of_calm (h : s.Calm db s') (h' : Follows s' s'' o) : Follows s s'' o := by
  cases o with
  | some db' => exact h.trans h'
  | none =>
    change s.events.length < s''.events.length
    rw [← h.events]
    exact h'

/-- The rest of the state does not matter. -/
theorem Follows.of_sheet (h : Follows s s' o) (hsheet : s''.sheet = s'.sheet)
    (hasked : s''.asked = s'.asked) : Follows s s'' o := by
  have hevents : s''.events = s'.events := congrArg Sheet.events hsheet
  cases o with
  | some db =>
    exact ⟨(congrArg Sheet.db hsheet).trans h.db, hevents.trans h.events, hasked.trans h.asked,
      (congrArg Sheet.rebase hsheet).trans h.rebase,
      (congrArg Sheet.constraints hsheet).trans h.constraints⟩
  | none =>
    change s.events.length < s''.events.length
    rw [hevents]
    exact h

/-- All changes count here. -/
abbrev Settled (w : World N V) (flags : Flags) (x : Call N V α) : Prop :=
  Balanced w flags (fun _ => True) x

theorem Settled.grows (hx : Settled w flags x) (h : s.events.length < s'.events.length) :
    ends x (fun _ s'' => s.events.length < s''.events.length) s' :=
  .imp (hx s' fun _ _ => trivial) fun _ _ hs => Nat.lt_of_lt_of_le h hs.1.events.length_le

theorem Tracks.after (hx : Tracks x f) (h : s.Calm db s') :
    wp x (fun _ s'' => Follows s s'' (f db)) (fun _ _ => f db = none) s' := by
  have hrun := hx s' h.constraints
  rw [h.db] at hrun
  exact .post hrun fun _ _ => .of_calm h

theorem Tracks.congr (hx : Tracks x f) (h : ∀ db, f db = g db) : Tracks x g := funext h ▸ hx

theorem Tracks.bind_of {P : α → Prop} (hx : Tracks x f)
    (hP : ∀ s, s.constraints = [] → ends x (fun a _ => P a) s) (hy : ∀ a, P a → Tracks (y a) g)
    (hbal : ∀ a, P a → Settled w flags (y a)) : Tracks (x >>= y) fun db => (f db).bind g := by
  intro s hs
  change wp (x >>= y) (fun _ s' => Follows s s' ((f s.db).bind g))
    (fun _ _ => (f s.db).bind g = none) s
  refine .bind (.mono (wp_and (hx s hs) (hP s hs)) (fun a s' hs' => ?_)
    fun _ _ h => by rw [h.1]; rfl)
  obtain ⟨hs', ha⟩ := hs'
  cases hf : f s.db with
  | none =>
    rw [hf] at hs'
    exact .mono ((hbal a ha).grows hs') (fun _ _ => id) fun _ _ _ => rfl
  | some db =>
    rw [hf] at hs'
    exact (hy a ha).after hs'

theorem Tracks.bind (hx : Tracks x f) (hy : ∀ a, Tracks (y a) g)
    (hbal : ∀ a, Settled w flags (y a)) :
    Tracks (x >>= y) fun db => (f db).bind g :=
  hx.bind_of (P := fun _ => True) (fun s hs => .imp (hx s hs) fun _ _ _ => trivial)
    (fun a _ => hy a) fun a _ => hbal a

theorem tracks_pure (a : α) : Tracks (pure a : Call N V α) some :=
  fun _ hs => ⟨rfl, rfl, rfl, rfl, hs⟩

theorem tracks_forEach {γ : Type} {f : γ → (N → Content V) → Option (N → Content V)}
    {x : γ → Call N V Unit} (h : ∀ c, Tracks (x c) (f c)) (hbal : ∀ c, Settled w flags (x c))
    (cs : List γ) : Tracks (forEach x cs) fun db => cs.foldlM (fun db c => f c db) db := by
  induction cs with
  | nil => exact tracks_pure ()
  | cons c cs ih =>
    exact (h c).bind (fun _ => ih) fun _ => .forEach fun c _ => hbal c

end Tracking

/-! ## One change -/

section Conflicts

variable {e : Env N V} {c : Change V} {s : State N V} (hw : e.world.KeepsTransaction)

theorem resolve_grows (a : Answer) (h : s.events.length < s'.events.length) :
    ends (resolve e c a) (fun _ s'' => s.events.length < s''.events.length) s' := by
  have hadd (r : Bool) : ends (rebaseAdd e r c)
      (fun _ s'' => s.events.length < s''.events.length) s' :=
    .when ⟨fun _ => .modify h, fun _ => h⟩
  cases a with
  | replace => exact .seq (hadd true) fun _ _ h => .pure h
  | omitted => exact .seq (hadd false) fun _ _ h => .pure h
  | abort => trivial
  | other => trivial

/-- A change that does not find its row as expected leaves a trace. -/
theorem rowConflict_grows (m : Misfit) (row : Row V) :
    ends (rowConflict e m c row) (fun _ s' => s.events.length < s'.events.length) s := by
  refine .ite ⟨fun _ => .write ?_, fun _ => ?_⟩
  · exact resolve_grows _ (by simp)
  · refine .bind (.read (.write (.pure ?_)))
    exact resolve_grows _ (by simp)

theorem missingRow_grows :
    ends (missingRow e .data c) (fun _ s' => s.events.length < s'.events.length) s := by
  refine .read (.ite ⟨fun h => absurd h.2 (by decide), fun _ => ?_⟩)
  refine .ite ⟨fun _ => .write ?_, fun _ => ?_⟩
  · exact resolve_grows _ (by simp)
  · refine .bind (.read (.write (.pure ?_)))
    exact .ite ⟨fun _ => trivial, fun _ => resolve_grows _ (by simp)⟩

include hw

theorem afterWrite_grows (ho : o ≠ .changed) (seek : Bool) :
    ends (afterWrite e true seek c o) (fun _ s' => s.events.length < s'.events.length) s := by
  cases o with
  | changed => exact absurd rfl ho
  | constraint =>
    exact .write (Settled.grows (answers_conflictHandler hw _ _ trivial).balanced (by simp))
  | unchanged =>
    change wp (conflictHandler e .data true c) _ _ s
    unfold conflictHandler
    rw [if_pos rfl]
    refine .seq (seekToRow_wp hw) fun row s₁ ⟨_, _, _, hs₁⟩ => ?_
    have hevents : s₁.events = s.events := congrArg Sheet.events hs₁
    rw [← hevents]
    cases row with
    | none => exact missingRow_grows
    | some r => exact rowConflict_grows _ r

end Conflicts

section Changes

variable {e : Env N V} {c : Change V}

variable [DecidableEq N]

theorem write_plain (hw : e.world.Plain) (f : Content V → Outcome × Content V) (s : State N V) :
    wp (write e f) (fun o s' => o = (f (s.db e.tab)).1 ∧ s' =
      { s with
        statements := s.statements + 1
        db := Function.update s.db e.tab (f (s.db e.tab)).2 }) (fun _ _ => False) s := by
  refine .bind (.attempt (.sure (statement_wp_of_none hw.keepsTransaction
    (fun n => hw.fault n _) s) fun _ s' hs' => ?_))
  subst hs'
  exact ⟨rfl, rfl⟩

variable [DecidableEq V]

def Attempted (e : Env N V) (c : Change V) (s : State N V) : Prop :=
  wp (applyOneOp e c true)
    (fun b s' => Follows s s' (onPoint e.tab (e.step c) s.db) ∧
      (e.step c (s.db e.tab) ≠ none → b = false))
    (fun _ _ => e.step c (s.db e.tab) = none) s

theorem applyOneOp_plain (hw : e.world.Plain) (hu : ∀ rows k row, e.table.unique rows k row = false)
    (s : State N V) (hs : s.constraints = []) : Attempted e c s := by
  have hlost (hk : e.key c = none) : e.step c (s.db e.tab) = none := by simp [Env.step, hk]
  have hgrows {s₁ : State N V} {o : Outcome} (ho : o ≠ .changed) (seek : Bool)
      (hevents : s₁.events = s.events) (hstep : e.step c (s.db e.tab) = none) :
      wp (afterWrite e true seek c o)
        (fun b s' => Follows s s' (onPoint e.tab (e.step c) s.db) ∧
          (e.step c (s.db e.tab) ≠ none → b = false))
        (fun _ _ => e.step c (s.db e.tab) = none) s₁ := by
    rw [onPoint, hstep]
    refine .mono (afterWrite_grows hw.keepsTransaction ho seek) (fun _ _ h => ?_) fun _ _ _ => rfl
    exact ⟨(hevents ▸ h : s.events.length < _), fun h => absurd rfl h⟩
  refine applyOneOp_of_write hw.keepsTransaction (fun _ _ n q f hf => ?_) (fun _ _ hbad => ?_)
    (fun n k f hk hready hf => ?_) fun n hk => ?_
  · rw [hw.fault] at hf
    cases hf
  · by_cases hready : e.Ready c
    · exact hlost (hbad hready)
    · cases hk : e.key c with
      | none => exact hlost hk
      | some k => rw [step_of_key hk, rowStep_of_not_ready hready, Option.map_none]
  · refine .bind (.sure (write_plain hw f _) ?_)
    rintro _ s₁ ⟨rfl, rfl⟩
    have hwrote := hf (s.db e.tab)
    have hstep := step_of_key hk (s.db e.tab)
    generalize f (s.db e.tab) = r at hwrote
    cases hwrote with
    | changed hfit =>
      rw [rowStep_of_fits hready (hfit.resolve_right (by simp))] at hstep
      refine .pure ⟨?_, fun _ => rfl⟩
      rw [onPoint, hstep]
      exact ⟨rfl, rfl, rfl, rfl, hs⟩
    | unique hfit row hunique =>
      rw [hu] at hunique
      cases hunique
    | unchanged hop hfit =>
      rw [rowStep_of_not_fits hfit] at hstep
      exact hgrows (o := .unchanged) (by simp) _ rfl hstep
    | taken hop hrow =>
      obtain ⟨r, hr⟩ := Option.isSome_iff_exists.mp hrow
      rw [hr, rowStep_insert_some hop] at hstep
      exact hgrows (o := .constraint) (by simp) _ rfl hstep
  · refine .bind (.sure (write_plain hw _ _) ?_)
    rintro _ s₁ ⟨rfl, rfl⟩
    exact hgrows (o := .unchanged) (by simp) _ rfl (hlost hk)

theorem tracks_applyOneWithRetry (hw : e.world.Plain)
    (hu : ∀ rows k row, e.table.unique rows k row = false) :
    Tracks (applyOneWithRetry e c) (onPoint e.tab (e.step c)) := by
  intro s hs
  have hwk := hw.keepsTransaction
  refine .bind (.mono (wp_and (applyOneOp_plain hw hu s hs)
    (answers_applyOneOp (K := fun _ => True) hwk trivial true s fun _ _ => trivial)) ?_
    fun _ _ h => by simp [onPoint, h.1])
  rintro b s' ⟨⟨hfollows, hb⟩, -, hreplaces⟩
  cases hstep : e.step c (s.db e.tab) with
  | none =>
    rw [onPoint, hstep] at hfollows ⊢
    refine .when ⟨fun hagain => ?_, fun _ => hfollows⟩
    exact .mono (Settled.grows (balanced_secondAttempt hwk trivial (hreplaces hagain)) hfollows)
      (fun _ _ => id) fun _ _ _ => rfl
  | some rows =>
    rw [hb (by simp [hstep])]
    exact .when ⟨fun h => absurd h (by decide), fun _ => hfollows⟩

theorem tracks_applyChanges (hw : e.world.Plain)
    (hu : ∀ rows k row, e.table.unique rows k row = false) (cs : List (Change V)) :
    Tracks (forEach (applyChange e) cs) (onPoint e.tab (e.run cs)) := by
  have hchange : ∀ c, Tracks (applyChange e c) (onPoint e.tab (e.step c)) := by
    intro c s hs
    refine .read (.when ⟨fun _ => ?_, fun h => absurd (hw.filterIter _ _) h⟩)
    exact tracks_applyOneWithRetry hw hu s hs
  have hbal : ∀ c, Settled e.world e.flags (applyChange e c) := fun c =>
    .get_bind fun _ _ => .when fun _ => balanced_applyOneWithRetry hw.keepsTransaction trivial
  have hrun : onPoint e.tab (e.run cs) =
      fun db => cs.foldlM (fun db c => onPoint e.tab (e.step c) db) db :=
    funext fun db => (foldlM_onPoint e.tab e.step cs db).symm
  rw [hrun]
  exact tracks_forEach hchange hbal cs

end Changes

/-! ## The whole call -/

def Group.env (w : World N V) (flags : Flags) (patchset : Bool) (g : Group N V) (t : Table V) :
    Env N V :=
  { g.toHeader with world := w, flags, patchset, table := t }

section Calls

variable {w : World N V} {flags : Flags} (hw : w.Plain)

theorem matchTable_eq_some : matchTable w flags patchset g = some e ↔ ∃ t, w.schema g.tab = some t ∧
      g.pk.length ≤ t.pk.length ∧ minColumns t.pk ≤ g.pk.length ∧
      t.pk.take g.pk.length = g.pk ∧ g.env w flags patchset t = e := by
  simp only [matchTable, Option.bind_eq_some_iff, Option.ite_none_right_eq_some,
    Option.some.injEq, and_assoc, Group.env]

variable [DecidableEq N] [DecidableEq V]

theorem tracks_retryTable (e : Option (Env N V)) : Tracks (retryTable e) some := by
  cases e with
  | none => exact tracks_pure ()
  | some e =>
    intro s hs
    have hcalm : s.Calm s.db s := ⟨rfl, rfl, rfl, rfl, hs⟩
    have hrounds : wp (retryRounds e s.constraints.length none) (fun _ s' => s' = s)
        (fun _ _ => False) s := by
      rw [hs]
      exact rfl
    refine .read (.bind (.sure hrounds ?_))
    rintro _ s₁ hs₁
    rw [hs₁]
    have hupdates : wp (when (e.flags.noUpdateLoop = false) (retryUpdates e
        ((s.constraints.length + 1) * (s.constraints.length + 1)) 0)) (fun _ s' => s' = s)
        (fun _ _ => False) s := by
      refine .when ⟨fun _ => ?_, fun _ => rfl⟩
      rw [hs]
      refine .read ?_
      rw [hs]
      exact rfl
    refine .read (.bind (.sure hupdates ?_))
    rintro _ s₂ hs₂
    rw [hs₂]
    exact .read (.when ⟨fun h => absurd hs h, fun _ => hcalm⟩)

include hw

omit [DecidableEq N] [DecidableEq V] in
theorem openTable_plain (patchset : Bool) (g : Group N V) (s : State N V) :
    wp (openTable w flags patchset g)
      (fun e s' => e = matchTable w flags patchset g ∧ s.Calm s.db s') (fun _ _ => False) s := by
  have hstatement : ∀ s : State N V, wp (statement w .prepare)
      (fun _ s' => s' = { s with statements := s.statements + 1 }) (fun _ _ => False) s :=
    fun s => statement_wp_of_none hw.keepsTransaction (fun n => hw.fault n _) s
  refine .write (.ite ⟨fun h => ?_, fun _ => ?_⟩)
  · rw [hw.filter] at h
    cases h
  refine .seq (hstatement _) fun _ s₁ hs₁ => ?_
  have hcalm : s.Calm s.db s₁ := by rw [hs₁]; exact ⟨rfl, rfl, rfl, rfl, rfl⟩
  have hprepare : wp (when ((matchTable w flags patchset g).isSome = true)
      (forEach (fun _ => statement w .prepare) [(), (), ()]))
      (fun _ s' => s.Calm s.db s') (fun _ _ => False) s₁ := by
    refine .when ⟨fun _ => ?_, fun _ => hcalm⟩
    refine .forEach (I := fun _ s' => s.Calm s.db s') (fun _ _ s₂ _ hs₂ => ?_) hcalm
    refine .post (hstatement s₂) fun _ s₃ hs₃ => ?_
    rw [hs₃]
    exact { hs₂ with }
  exact .seq hprepare fun _ s₂ hs₂ => ⟨rfl, hs₂⟩

theorem tracks_applyTable (patchset : Bool) (g : Group N V) :
    Tracks (applyTable (matchTable w flags patchset g) g.changes) (g.run w flags patchset) := by
  cases hm : matchTable w flags patchset g with
  | none =>
    have hrun : g.run w flags patchset = some := by
      funext db
      rw [Group.run, hm]
    rw [hrun]
    exact tracks_pure ()
  | some e =>
    obtain ⟨t, hschema, -, -, -, rfl⟩ := matchTable_eq_some.mp hm
    have hrun : g.run w flags patchset =
        onPoint g.tab ((g.env w flags patchset t).run g.changes) := by
      funext db
      rw [Group.run, hm]
    rw [hrun]
    exact tracks_applyChanges (e := g.env w flags patchset t) hw (hw.unique _ t hschema) g.changes

theorem tracks_applyGroups (patchset : Bool) (gs : List (Group N V)) (e : Option (Env N V))
    (he : ∀ e', e = some e' → e'.Of w flags) :
    Tracks (applyGroups w flags patchset e gs)
      fun db => gs.foldlM (fun db g => g.run w flags patchset db) db := by
  induction gs generalizing e with
  | nil => exact tracks_pure e
  | cons g gs ih =>
    intro s hs
    refine .ite ⟨fun hempty => ?_, fun _ => ?_⟩
    · have hskip : g.run w flags patchset s.db = some s.db := by
        unfold Group.run
        cases matchTable w flags patchset g with
        | none => rfl
        | some e => simp [onPoint, Env.run, hempty]
      simp only [List.foldlM_cons, hskip]
      exact ih e he s hs
    · refine .bind (.mono (tracks_retryTable e s hs) (fun _ s₁ hs₁ => ?_) fun _ _ h => by cases h)
      refine .bind (.sure (openTable_plain hw patchset g s₁) ?_)
      rintro _ s₂ ⟨rfl, hs₂⟩
      rw [hs₁.db] at hs₂
      have hcalm := hs₁.trans hs₂
      have he' : ∀ e', matchTable w flags patchset g = some e' → e'.Of w flags :=
        fun e' => matchTable_of
      have hbal : Settled w flags
          (applyGroups w flags patchset (matchTable w flags patchset g) gs) := fun s hs =>
        .post (applyGroups_wp hw.keepsTransaction he' (fun _ _ _ _ => trivial) s hs)
          fun _ _ => And.left
      have htable : Tracks (applyTable (matchTable w flags patchset g) g.changes)
          (g.run w flags patchset) := tracks_applyTable hw patchset g
      exact (htable.bind (fun _ => ih _ he') fun _ => hbal).after hcalm

omit [DecidableEq N] [DecidableEq V] in
theorem tracks_statement (q : Sql) : Tracks (statement w q) some := by
  intro s hs
  refine .sure (statement_wp_of_none hw.keepsTransaction (fun n => hw.fault n _) s) ?_
  rintro _ s' rfl
  exact ⟨rfl, rfl, rfl, rfl, hs⟩

omit hw in
/-- The content after a changeset that fits and could be read to its end. -/
def Stream.runTo (w : World N V) (flags : Flags) (cs : Stream N V) (rc : Option ErrorCode)
    (db : N → Content V) : Option (N → Content V) :=
  (cs.run w flags db).bind fun db => if rc.isSome then none else some db

omit [DecidableEq N] [DecidableEq V] in
theorem tracks_openSavepoint (flags : Flags) :
    Tracks (when (flags.noSavepoint = false) (savepoint w .changesetApply)) some := by
  refine fun s hs => .when ⟨fun _ => ?_, fun _ => ⟨rfl, rfl, rfl, rfl, hs⟩⟩
  exact .seq (tracks_statement hw _ s hs) fun _ _ hs₁ => .modify { hs₁ with }

omit [DecidableEq N] [DecidableEq V] in
theorem tracks_setDeferForeignKeys (on : Bool) : Tracks (setDeferForeignKeys w on) some :=
  fun s hs => .seq (tracks_statement hw _ s hs) fun _ _ hs₁ => .modify { hs₁ with }

omit [DecidableEq N] [DecidableEq V] in
theorem tracks_checkForeignKeys : Tracks (checkForeignKeys w) some := fun _ hs =>
  .read (.when ⟨fun h => absurd (hw.deferredFks _) h, fun _ => ⟨rfl, rfl, rfl, rfl, hs⟩⟩)

theorem tracks_applyBody (cs : Stream N V) (rc : Option ErrorCode) :
    Tracks (applyBody w flags cs rc) (cs.runTo w flags rc) := by
  have hwk := hw.keepsTransaction
  have hend : Tracks (endOfInput rc) fun db : N → Content V =>
      if rc.isSome then none else some db := by
    cases rc with
    | none => exact tracks_pure ()
    | some code => exact fun _ _ => rfl
  have hgroups : Tracks (applyGroups w flags cs.patchset none cs.groups) (cs.run w flags) :=
    tracks_applyGroups hw cs.patchset cs.groups none nofun
  have hcheck : Settled w flags (checkForeignKeys w) := balanced_checkForeignKeys
  have hbal (e : Option (Env N V)) (he : ∀ e', e = some e' → e'.Of w flags) :
      Settled w flags (do retryTable e; checkForeignKeys w) :=
    (balanced_retryTable hwk he).bind fun _ => hcheck
  have hrest (e : Option (Env N V)) (he : ∀ e', e = some e' → e'.Of w flags) :=
    hend.bind (fun _ => (tracks_retryTable e).bind (fun _ => tracks_checkForeignKeys hw)
      fun _ => hcheck) fun _ => hbal e he
  have hbalEnd (e : Option (Env N V)) (he : ∀ e', e = some e' → e'.Of w flags) :=
    (balanced_endOfInput rc).bind fun _ => hbal e he
  have hbody := hgroups.bind_of (P := fun e => ∀ e', e = some e' → e'.Of w flags)
    (fun s _ => .imp (applyGroups_wp (e := none) (K := fun _ => True) hwk nofun
      (fun _ _ _ _ => trivial) s fun _ _ => trivial) fun _ _ h => h.2)
    hrest hbalEnd
  have hscope := (tracks_openSavepoint hw flags).bind
    (fun _ => (tracks_setDeferForeignKeys hw true).bind (fun _ => hbody) fun _ =>
      balanced_applyGroups_bind hwk hbalEnd fun _ _ _ _ => trivial)
    fun _ => balanced_applyRest hwk cs (fun _ _ _ _ => trivial) rc
  exact hscope.congr fun db => by simp [Stream.runTo]

omit [DecidableEq N] [DecidableEq V] in
theorem close_plain {s₀ s : State N V} (hs : flags.noSavepoint = false → State.Same s₀.pushed s) :
    wp (if flags.noSavepoint = true then pure (.ok ()) else closeApply w (.ok ()))
      (fun r s' => r = .ok () ∧ s'.sheet = s.sheet ∧ s'.asked = s.asked) (fun _ _ => False) s := by
  refine .ite ⟨fun _ => ⟨rfl, rfl, rfl⟩, fun hflag => ?_⟩
  refine .bind (.attempt (.bind (.sure (statement_wp_of_none
    hw.keepsTransaction (fun n => hw.fault n _) s) ?_)))
  rintro _ s' rfl
  refine .read ?_
  simp only [(hs (Bool.eq_false_iff.mpr hflag)).savepoints, State.pushed, fromSavepoint_cons_self,
    wp_modify]
  exact ⟨rfl, rfl, rfl⟩

/-- What the call comes to is decided by its body. -/
theorem applyScope_plain (cs : Stream N V) (rc : Option ErrorCode) (s : State N V)
    (hs : s.constraints = []) :
    wp (applyScope w flags cs rc)
      (fun r s' => (r = .ok () → Follows s s' (cs.runTo w flags rc s.db)) ∧
        (r ≠ .ok () → cs.runTo w flags rc s.db = none)) (fun _ _ => False) s := by
  have hstack : ends (applyBody w flags cs rc)
      (fun _ s' => flags.noSavepoint = false → State.Same s.pushed s') s := by
    cases hflag : flags.noSavepoint with
    | true =>
      exact .imp (tracks_applyBody hw cs rc s hs) fun _ _ _ h => nomatch h
    | false =>
      exact .imp (applyBody_wp (K := fun _ => True) hw.keepsTransaction hflag cs
        (fun _ _ _ _ => trivial) rc s fun _ _ => trivial) fun _ _ h _ => h
  have hclean : w.CleansUp flags :=
    ⟨fun n => hw.fault n _, fun _ n => hw.fault n _, fun _ n => hw.fault n _⟩
  refine .bind (.attempt (.mono (wp_and (tracks_applyBody hw cs rc s hs) hstack)
    (fun _ s₁ h => ?_) fun code s₁ h => ?_))
  · refine setDeferForeignKeys_wp
      (f := fun r => if flags.noSavepoint = true then pure r else closeApply w r)
      hw.keepsTransaction hclean (.ok ()) ?_
    have hpushed : flags.noSavepoint = false →
        State.Same s.pushed { s₁ with statements := s₁.statements + 1, deferFks := false } := by
      intro hflag
      have hsame := h.2 hflag
      exact { hsame with }
    refine .post (close_plain hw hpushed) ?_
    rintro r s' ⟨rfl, hsheet, hasked⟩
    exact ⟨fun _ => h.1.of_sheet hsheet hasked, fun h => absurd rfl h⟩
  · refine setDeferForeignKeys_wp
      (f := fun r => if flags.noSavepoint = true then pure r else closeApply w r)
      hw.keepsTransaction hclean (.error code) ?_
    refine .ite ⟨fun _ => ⟨nofun, fun _ => h.1⟩, fun _ => ?_⟩
    refine .post (undoApply_error hw.keepsTransaction code _) fun r _ hr => ?_
    exact ⟨fun hok => absurd (hr.symm.trans hok) nofun, fun _ => h.1⟩

/-- Applying a changeset does to the content what `Stream.runTo` says. Where that says nothing, the
call fails or leaves an event. -/
theorem changesetApply_plain (cs : Stream N V) (rc : Option ErrorCode) (s : State N V) :
    wp (changesetApply w flags cs rc)
      (fun _ s' => Follows { s with rebase := [] } s' (cs.runTo w flags rc s.db))
      (fun _ _ => cs.runTo w flags rc s.db = none) s := by
  refine .read (.write (.bind ?_))
  refine .sure (applyScope_plain hw cs rc _ rfl) fun r s₁ h => ?_
  have hcalm : State.Calm { s with rebase := [] } s.db
      { s with
        constraints := []
        rebase := []
        deferConstraints := false
        fkNoAction := s.fkNoAction || flags.fkNoAction } := ⟨rfl, rfl, rfl, rfl, rfl⟩
  refine .bind (.when ⟨fun _ => .modify ?_, fun _ => ?_⟩)
  all_goals
    refine wp_ofExcept.mpr ⟨fun _ hr => ?_, fun code hr => h.2 (by rw [hr]; nofun)⟩
    exact .of_calm hcalm ((h.1 hr).of_sheet rfl rfl)

omit hw in
/-- The call returns OK, the conflict handler was not asked and nothing was passed over. -/
def Applies (w : World N V) (flags : Flags) (cs : Stream N V) (rc : Option ErrorCode)
    (s s' : State N V) : Prop :=
  changesetApply w flags cs rc s = some (.ok (), s') ∧ s'.events = s.events ∧ s'.asked = s.asked

theorem Applies.runTo_eq (h : Applies w flags cs rc s s') :
    cs.runTo w flags rc s.db = some s'.db := by
  have hfollows := of_wp_ok (changesetApply_plain hw cs rc s) h.1
  cases hrun : cs.runTo w flags rc s.db with
  | none =>
    rw [hrun] at hfollows
    exact absurd (congrArg List.length h.2.1) (Nat.ne_of_gt hfollows)
  | some db =>
    rw [hrun] at hfollows
    rw [hfollows.db]

theorem exists_applies (h : cs.runTo w flags rc s.db = some db) :
    ∃ s', Applies w flags cs rc s s' ∧ s'.db = db := by
  rcases exists_of_wp (changesetApply_plain hw cs rc s) with ⟨_, s', hrun, hs'⟩ | ⟨_, _, _, hnone⟩
  · rw [h] at hs'
    exact ⟨s', ⟨hrun, hs'.events, hs'.asked⟩, hs'.db⟩
  · rw [h] at hnone
    cases hnone

end Calls

end SqlCipher.Changeset
