import SqlCipher.Changeset.Fit

/-!
# Changesets that do not fit

What applying a changeset comes to without faults and constraints other than the primary key, if the
call returns OK. Each change is applied, or meets a conflict that is answered OMIT or REPLACE
(`Env.Lands`). The rebase buffer has a record for each conflict, in order, even if the handler is
not asked because the change would do nothing.
-/

namespace SqlCipher.Changeset

open Proc Function

variable {N V α β : Type}

structure Ledger (N V : Type) where
  db : N → Content V
  rebase : List (RebaseEntry N V)
  constraints : List (Change V)

def State.ledger (s : State N V) : Ledger N V where
  db := s.db
  rebase := s.rebase
  constraints := s.constraints

def Ledger.book (e : Env N V) (c : Change V) (replace : Bool) (x : Ledger N V) : Ledger N V :=
  { x with rebase := x.rebase ++ [.of e.toHeader replace c] }

def Ledger.put [DecidableEq N] [DecidableEq V] (n : N) (κ : Key V) (y : Option (Row V))
    (x : Ledger N V) : Ledger N V :=
  { x with db := update x.db n (update (x.db n) κ y) }

/-- How a change lands on its row: without a conflict, or with one that is answered OMIT or
REPLACE. -/
def Env.Lands (e : Env N V) (c : Change V) (x y : Option (Row V)) : Option Bool → Prop
  | none => e.rowStep c x = some y
  | some false => e.rowStep c x = none ∧ y = x
  | some true => e.rowStep c x = none ∧ x.isSome = true ∧ y = e.result c x

theorem Env.Lands.miss {e : Env N V} (h : e.Lands c x y (some b)) : e.rowStep c x = none := by
  cases b <;> exact h.1

def Env.booked (e : Env N V) (c : Change V) (o : Option Bool) : List (RebaseEntry N V) :=
  (o.map (RebaseEntry.of e.toHeader · c)).toList

section Conflicts

variable {e : Env N V} {c : Change V} {s : State N V} (hflag : e.flags.rebase = true)

include hflag

theorem resolve_ledger (a : Answer) :
    ends (resolve e c a) (fun b s' => s'.ledger = s.ledger.book e c b) s := by
  have hadd : ∀ r : Bool, ends (rebaseAdd e r c)
      (fun _ s' => s'.ledger = s.ledger.book e c r) s := fun r =>
    .when ⟨fun _ => .modify rfl, fun h => absurd hflag h⟩
  cases a with
  | omitted => exact .seq (hadd false) fun _ _ h => h
  | replace => exact .seq (hadd true) fun _ _ h => h
  | abort => trivial
  | other => trivial

/-- The handler is asked, or the change would do nothing. -/
theorem rowConflict_ledger (m : Misfit) (row : Row V) :
    ends (rowConflict e m c row) (fun b s' => s'.ledger = s.ledger.book e c b) s := by
  refine .ite ⟨fun _ => .write (resolve_ledger hflag _), fun _ => ?_⟩
  refine .bind (.read (.write (.pure ?_)))
  exact resolve_ledger hflag _

/-- A change to a row that is not there cannot be answered REPLACE. -/
theorem missingRow_ledger :
    ends (missingRow e .data c)
      (fun b s' => b = false ∧ s'.ledger = s.ledger.book e c false) s := by
  have homit : ∀ {a : Answer} {s' : State N V}, a ≠ .replace → s'.ledger = s.ledger →
      ends (resolve e c a) (fun b s' => b = false ∧ s'.ledger = s.ledger.book e c false) s' := by
    intro a s' ha hs'
    cases a with
    | replace => exact absurd rfl ha
    | omitted =>
      refine .bind (.when ⟨fun _ => .modify ⟨rfl, ?_⟩, fun h => absurd hflag h⟩)
      exact congrArg (Ledger.book e c false) hs'
    | abort => trivial
    | other => trivial
  refine .read (.ite ⟨fun h => absurd h.2 (by decide), fun _ => ?_⟩)
  refine .ite ⟨fun _ => .write (homit (by decide) rfl), fun _ => ?_⟩
  refine .bind (.read (.write (.pure ?_)))
  exact .ite ⟨fun _ => trivial, fun ha => homit ha rfl⟩

variable (hw : e.world.Plain)

include hw

omit hflag in
theorem seekToRow_ledger :
    ends (seekToRow e c)
      (fun row s' => ∃ κ, e.key c = some κ ∧ row = s.db e.tab κ ∧ s'.ledger = s.ledger) s := by
  refine .post (seekToRow_wp hw.keepsTransaction) ?_
  rintro row s' ⟨κ, hκ, hrow, hs'⟩
  refine ⟨κ, hκ, hrow, ?_⟩
  exact congrArg (fun x : Sheet N V => (⟨x.db, x.rebase, x.constraints⟩ : Ledger N V)) hs'

theorem conflictHandler_ledger (m : Misfit)
    (hrow : m = .conflict → ∀ κ, e.key c = some κ → (s.db e.tab κ).isSome = true) :
    ends (conflictHandler e m true c)
      (fun b s' => ∃ κ, e.key c = some κ ∧ (b = true → (s.db e.tab κ).isSome = true) ∧
        s'.ledger = s.ledger.book e c b) s := by
  unfold conflictHandler
  rw [if_pos rfl]
  refine .seq (seekToRow_ledger hw) ?_
  rintro row s₁ ⟨κ, hκ, rfl, hs₁⟩
  cases hr : s.db e.tab κ with
  | some r =>
    refine .post (rowConflict_ledger hflag m r) fun b s' hs' => ?_
    rw [hs₁] at hs'
    exact ⟨κ, hκ, fun _ => by simp [hr], hs'⟩
  | none =>
    cases m with
    | conflict =>
      have hsome := hrow rfl κ hκ
      rw [hr] at hsome
      cases hsome
    | data =>
      refine .post (missingRow_ledger hflag) ?_
      rintro b s' ⟨rfl, hs'⟩
      rw [hs₁] at hs'
      exact ⟨κ, hκ, nofun, hs'⟩

end Conflicts

section Attempts

variable [DecidableEq N] [DecidableEq V]

def FirstLands (e : Env N V) (c : Change V) (x : Ledger N V) (b : Bool) (x' : Ledger N V) : Prop :=
  ∃ κ, e.key c = some κ ∧ match e.rowStep c (x.db e.tab κ) with
    | some y => b = false ∧ x' = x.put e.tab κ y
    | none => (b = true → (x.db e.tab κ).isSome = true) ∧ x' = x.book e c b

variable {e : Env N V} {c : Change V} {s : State N V} (hw : e.world.Plain)

include hw

theorem applyOneOp_first_ledger (hflag : e.flags.rebase = true)
    (hu : ∀ rows k row, e.table.unique rows k row = false) :
    ends (applyOneOp e c true) (fun b s' => FirstLands e c s.ledger b s'.ledger) s := by
  refine applyOneOp_of_write hw.keepsTransaction (fun _ _ _ _ _ _ => trivial) (fun _ _ _ => trivial)
    (fun n κ f hκ hready hf => ?_) fun n hκ => ?_
  · refine .bind (.sure (write_plain hw f _) ?_)
    rintro _ s₁ ⟨rfl, rfl⟩
    have hwrote := hf (s.db e.tab)
    generalize f (s.db e.tab) = r at hwrote
    -- a conflict is recorded
    have hfirst {m : Misfit} {s₁ : State N V} (hs₁ : s₁.ledger = s.ledger)
        (hstep : e.rowStep c (s.ledger.db e.tab κ) = none)
        (hm : m = .conflict → (s.db e.tab κ).isSome = true) : ends (conflictHandler e m true c)
          (fun b s' => FirstLands e c s.ledger b s'.ledger) s₁ := by
      have hdb : s₁.db = s.db := congrArg Ledger.db hs₁
      refine .post (conflictHandler_ledger hflag hw m fun hm' κ' hκ' => ?_) ?_
      · rw [hdb, ← Option.mem_unique hκ hκ']
        exact hm hm'
      · rintro b s' ⟨κ', hκ', hb, hs'⟩
        obtain rfl := Option.mem_unique hκ hκ'
        refine ⟨κ, hκ, ?_⟩
        rw [hstep]
        rw [hdb] at hb
        rw [hs₁] at hs'
        exact ⟨hb, hs'⟩
    cases hwrote with
    | changed hfit =>
      refine .pure ⟨κ, hκ, ?_⟩
      have hstep : e.rowStep c (s.ledger.db e.tab κ) = _ :=
        rowStep_of_fits hready (hfit.resolve_right nofun)
      rw [hstep]
      exact ⟨rfl, rfl⟩
    | unique hfit row hunique =>
      rw [hu] at hunique
      cases hunique
    | unchanged hop hfit =>
      exact hfirst (by simp [State.ledger]) (rowStep_of_not_fits hfit) nofun
    | taken hop hrow =>
      rw [decide_eq_true hop]
      obtain ⟨r, hr⟩ := Option.isSome_iff_exists.mp hrow
      have hstep : e.rowStep c (s.db e.tab κ) = none := by rw [hr, rowStep_insert_some hop]
      exact .write (hfirst (by simp [State.ledger]) hstep fun _ => hrow)
  · -- without a key there is no row to be found
    refine .bind (.sure (write_plain hw _ _) ?_)
    rintro _ s₂ ⟨rfl, rfl⟩
    refine .post (conflictHandler_ledger hflag hw .data nofun) ?_
    rintro b s' ⟨κ, hκ', -⟩
    cases hκ.symm.trans hκ'

omit hw in
def Landed (e : Env N V) (c : Change V) (s s' : State N V) : Prop :=
  ∃ κ y o, e.key c = some κ ∧ e.Lands c (s.db e.tab κ) y o ∧ s'.constraints = s.constraints ∧
    s'.rebase = s.rebase ++ e.booked c o ∧ s'.db = update s.db e.tab (update (s.db e.tab) κ y)

theorem applyOneWithRetry_lands (hflag : e.flags.rebase = true)
    (hu : ∀ rows k row, e.table.unique rows k row = false) :
    ends (applyOneWithRetry e c) (fun _ => Landed e c s) s := by
  refine .seq (applyOneOp_first_ledger hw hflag hu) fun b s₁ ⟨κ, hκ, h⟩ => ?_
  cases hstep : e.rowStep c (s.ledger.db e.tab κ) with
  | some y =>
    rw [hstep] at h
    obtain ⟨rfl, hs₁⟩ := h
    refine .when ⟨fun h => (nomatch h), fun _ => ⟨κ, y, none, hκ, hstep, ?_, ?_, ?_⟩⟩
    · exact congrArg Ledger.constraints hs₁
    · exact (congrArg Ledger.rebase hs₁).trans (List.append_nil _).symm
    · exact congrArg Ledger.db hs₁
  | none =>
    rw [hstep] at h
    obtain ⟨hsome, hs₁⟩ := h
    have hdb : s₁.db = s.db := congrArg Ledger.db hs₁
    have hrebase : s₁.rebase = s.rebase ++ [.of e.toHeader b c] := congrArg Ledger.rebase hs₁
    have hcons : s₁.constraints = s.constraints := congrArg Ledger.constraints hs₁
    cases b with
    | false =>
      refine .when ⟨fun h => (nomatch h), fun _ =>
        ⟨κ, _, some false, hκ, ⟨hstep, rfl⟩, hcons, hrebase, ?_⟩⟩
      simp [hdb]
    | true =>
      have hput (s' : State N V) : Second e c κ s₁ s' → Landed e c s s' := by
        rintro (hs' | ⟨⟨rows, row, hunique⟩, -⟩)
        · refine ⟨κ, e.result c (s.db e.tab κ), some true, hκ, ⟨hstep, hsome rfl, rfl⟩,
            (congrArg Sheet.constraints hs').trans hcons,
            (congrArg Sheet.rebase hs').trans hrebase, ?_⟩
          rw [← hdb]
          exact congrArg Sheet.db hs'
        · rw [hu] at hunique
          cases hunique
      have hrow : (s₁.db e.tab κ).isSome = true := by
        rw [hdb]
        exact hsome rfl
      refine .when ⟨fun _ => .ite ⟨fun hop => ?_, fun hop => ?_⟩, fun h => absurd rfl h⟩
      · exact .post (replaceRow_wp hw.keepsTransaction hw.onlyUnique hop hκ hrow)
          fun _ s' => hput s'
      · exact .seq (applyOneOp_second_wp hw.keepsTransaction hw.onlyUnique hκ
          (by simp [hrow, hop])) fun _ s' => hput s'

end Attempts

section Calls

variable [DecidableEq N] [DecidableEq V]

/-- Changes land on a content, one after the other; those to missing tables are passed over. -/
inductive Settles (w : World N V) (flags : Flags) (patchset : Bool) :
    List (Header N × Change V) → (N → Content V) → List (RebaseEntry N V) → (N → Content V) → Prop
  | nil (db : N → Content V) : Settles w flags patchset [] db [] db
  | skip {db db' : N → Content V} {rb : List (RebaseEntry N V)} {h : Header N} {c : Change V}
      {l : List (Header N × Change V)}
      (hm : matchTable w flags patchset { h with changes := [] } = none)
      (hl : Settles w flags patchset l db rb db') : Settles w flags patchset ((h, c) :: l) db rb db'
  | cons {db db' : N → Content V} {rb : List (RebaseEntry N V)} {h : Header N} {c : Change V}
      {l : List (Header N × Change V)} (e : Env N V) (κ : Key V) (y : Option (Row V))
      (o : Option Bool) (hm : matchTable w flags patchset { h with changes := [] } = some e)
      (hκ : e.key c = some κ) (hc : e.Lands c (db h.tab κ) y o)
      (hl : Settles w flags patchset l
        (update db h.tab (update (db h.tab) κ y)) rb db') :
      Settles w flags patchset ((h, c) :: l) db (e.booked c o ++ rb) db'

variable {w : World N V} {flags : Flags} {patchset : Bool}
  {l l' : List (Header N × Change V)}

theorem Settles.append (h : Settles w flags patchset l db rb db')
    (h' : Settles w flags patchset l' db' rb' db'') :
    Settles w flags patchset (l ++ l') db (rb ++ rb') db'' := by
  induction h with
  | nil => exact h'
  | skip hm _ ih => exact .skip hm (ih h')
  | cons e κ y o hm hκ hc _ ih =>
    rw [List.append_assoc]
    exact .cons e κ y o hm hκ hc (ih h')

def Meets (w : World N V) (flags : Flags) (patchset : Bool) (x : Call N V α)
    (l : List (Header N × Change V)) : Prop :=
  ∀ s, s.constraints = [] → wp x (fun _ s' => s'.constraints = [] ∧
    ∃ rb, s'.rebase = s.rebase ++ rb ∧ Settles w flags patchset l s.db rb s'.db)
    (fun _ _ => True) s

theorem Meets.bind_of {P : α → Prop}
    (hx : Meets w flags patchset x l) (hP : ∀ s, s.constraints = [] → ends x (fun a _ => P a) s)
    (hy : ∀ a, P a → Meets w flags patchset (y a) l') :
    Meets w flags patchset (x >>= y) (l ++ l') := by
  intro s hs
  refine .bind (.imp (wp_and (hx s hs) (hP s hs)) ?_)
  rintro a s₁ ⟨⟨hcons, rb, hrb, hl⟩, ha⟩
  refine .post (hy a ha s₁ hcons) ?_
  rintro _ s₂ ⟨hcons', rb', hrb', hl'⟩
  exact ⟨hcons', rb ++ rb', by rw [hrb', hrb, List.append_assoc], hl.append hl'⟩

theorem Meets.bind {x : Call N V α} (hx : Meets w flags patchset x l)
    (hy : ∀ a, Meets w flags patchset (y a) l') : Meets w flags patchset (x >>= y) (l ++ l') :=
  hx.bind_of (P := fun _ => True) (fun s hs => .post (hx s hs) fun _ _ _ => trivial) fun a _ => hy a

/-- What does not touch the content settles nothing. -/
theorem Tracks.meets (hx : Tracks x some) : Meets w flags patchset x [] := by
  intro s hs
  refine .imp (hx s hs) fun _ s' hs' => ?_
  refine ⟨hs'.constraints, [], hs'.rebase.trans (List.append_nil _).symm, ?_⟩
  rw [hs'.db]
  exact .nil _

theorem meets_forEach {γ : Type} {x : γ → Call N V Unit} {f : γ → Header N × Change V}
    (h : ∀ c, Meets w flags patchset (x c) [f c]) (cs : List γ) :
    Meets w flags patchset (forEach x cs) (cs.map f) := by
  induction cs with
  | nil => exact (tracks_pure ()).meets
  | cons c cs ih => exact (h c).bind fun _ => ih

def Group.pairs (g : Group N V) : List (Header N × Change V) := g.changes.map (g.toHeader, ·)

variable (hw : w.Plain) (hflag : flags.rebase = true)

include hw hflag

theorem meets_applyTable (patchset : Bool) (g : Group N V) :
    Meets w flags patchset (applyTable (matchTable w flags patchset g) g.changes) g.pairs := by
  cases hm : matchTable w flags patchset g with
  | none =>
    intro s hs
    refine ⟨hs, [], (List.append_nil _).symm, ?_⟩
    unfold Group.pairs
    induction g.changes with
    | nil => exact .nil _
    | cons c cs ih => exact .skip hm ih
  | some e =>
    obtain ⟨t, hschema, -, -, -, rfl⟩ := matchTable_eq_some.mp hm
    refine meets_forEach (fun c s hs => ?_) g.changes
    refine .read (.when ⟨fun _ => ?_, fun h => ?_⟩)
    on_goal 2 => exact absurd (hw.filterIter _ _) h
    refine .post (applyOneWithRetry_lands (e := g.env w flags patchset t) hw hflag
      (hw.unique _ t hschema)) ?_
    rintro _ s' ⟨κ, y, o, hκ, hc, hcons, hrb, hdb⟩
    refine ⟨hcons.trans hs, _, hrb, ?_⟩
    rw [← List.append_nil (Env.booked _ c o), hdb]
    exact .cons _ κ y o hm hκ hc (.nil _)

theorem meets_applyGroups (patchset : Bool) (gs : List (Group N V)) (e : Option (Env N V)) :
    Meets w flags patchset (applyGroups w flags patchset e gs) (gs.flatMap Group.pairs) := by
  induction gs generalizing e with
  | nil => exact (tracks_pure e).meets
  | cons g gs ih =>
    intro s hs
    refine .ite ⟨fun hempty => ?_, fun _ => ?_⟩
    · have hpairs : g.pairs = [] := by simp [Group.pairs, hempty]
      rw [List.flatMap_cons, hpairs]
      exact ih e s hs
    · have hopen : Meets w flags patchset (openTable w flags patchset g) [] := fun s₁ _ =>
        .sure (openTable_plain hw patchset g s₁) fun _ s₂ hs₂ => ⟨hs₂.2.constraints, [],
          hs₂.2.rebase.trans (List.append_nil _).symm, hs₂.2.db ▸ .nil _⟩
      have htable := hopen.bind_of (P := fun e => e = matchTable w flags patchset g)
        (y := fun e => applyTable e g.changes >>= fun _ => applyGroups w flags patchset e gs)
        (fun s₁ _ => .sure (openTable_plain hw patchset g s₁) fun _ _ h => h.1) fun e he => by
            rw [he]
            exact (meets_applyTable hw hflag patchset g).bind fun _ => ih _
      exact (tracks_retryTable e).meets.bind (fun _ => htable) s hs

theorem meets_applyBody (cs : Stream N V) (rc : Option ErrorCode) :
    Meets w flags cs.patchset (applyBody w flags cs rc) (cs.groups.flatMap Group.pairs) := by
  have hend : Meets w flags cs.patchset (endOfInput rc : Call N V Unit) [] := by
    cases rc with
    | none => exact (tracks_pure ()).meets
    | some code => exact fun _ _ => trivial
  have hbody := (tracks_openSavepoint hw flags).meets.bind fun _ =>
    (tracks_setDeferForeignKeys hw true).meets.bind fun _ =>
    (meets_applyGroups hw hflag cs.patchset cs.groups none).bind fun e => hend.bind fun _ =>
      (tracks_retryTable e).meets.bind fun _ => (tracks_checkForeignKeys hw).meets
  simpa [applyBody] using hbody

/-- If the call returns OK, its changes have landed, and the rebase buffer is that of their
conflicts. -/
theorem changesetApply_settles (cs : Stream N V) (rc : Option ErrorCode) (s : State N V) :
    ends (changesetApply w flags cs rc) (fun _ s' =>
      Settles w flags cs.patchset (cs.groups.flatMap Group.pairs) s.db s'.rebase s'.db) s := by
  refine changesetApply_sheet hw.keepsTransaction (P := fun x =>
    Settles w flags cs.patchset (cs.groups.flatMap Group.pairs) s.db x.rebase x.db) ?_
  refine .post (meets_applyBody hw hflag cs rc _ rfl) fun _ s₁ ⟨_, rb, hrb, hl⟩ => ?_
  rw [show s₁.sheet.rebase = rb from hrb]
  exact hl

end Calls

end SqlCipher.Changeset
