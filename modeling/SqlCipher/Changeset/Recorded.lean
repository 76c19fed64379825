import SqlCipher.Changeset.Compose
import SqlCipher.Changeset.SessionSpec

/-!
# Recorded changesets

A changeset or patchset of a session, applied to a copy of the content at the beginning with the
same columns added, gives the content at the end without conflicts, and has no change for a row that
ends as it began.

Values are compared exactly, and the default expression of a column has the value that the rows get.
If two keys are equal to the database but not to the session, it has two entries for one row. If the
expression has another value, as `1e3` in a column of type TEXT, records are extended with a value
that no row has.
-/

namespace SqlCipher.Changeset

open Function List Session

variable {N V : Type}

/-! ## What becomes of an entry -/

section Entries

variable [DecidableEq V] {pk : List Bool} {r r' : Row V}

def diffPatch (pk : List Bool) (r r' : Row V) : List (Option V) :=
  (pk.zip (r.zip r')).map fun c => if c.1 || c.2.1 != c.2.2 then some c.2.2 else none

@[simp] theorem diffPatch_cons (b : Bool) (x y : V) : diffPatch (b :: pk) (x :: r) (y :: r') =
    (if b || x != y then some y else none) :: diffPatch pk r r' := rfl

theorem patch_diffPatch (h : Kin pk r r') : Patch pk r r' (diffPatch pk r r') ∧
    (r ≠ r' → (nonKey pk (diffPatch pk r r')).all (·.isNone) = false) := by
  induction h with
  | nil => exact ⟨.nil, fun hne => absurd rfl hne⟩
  | key x _ ih =>
    obtain ⟨hpatch, hset⟩ := ih
    exact ⟨.key x hpatch, by simpa using hset⟩
  | other x y _ ih =>
    obtain ⟨hpatch, hset⟩ := ih
    by_cases hxy : x = y
    · subst hxy
      exact ⟨by simpa using .keep x hpatch, by simpa using hset⟩
    · simpa [hxy] using .set x y hpatch

theorem appendUpdate_columns (h : Kin pk r r') :
    ((pk.zip ((r.map some).zip r')).any fun c => c.2.1 != some c.2.2) = decide (r ≠ r') ∧
    ((pk.zip ((r.map some).zip r')).map fun c =>
      if c.2.1 != some c.2.2 || c.1 then c.2.1 else none) = diffOld pk r r' ∧
    ((pk.zip ((r.map some).zip r')).map fun c =>
      if c.2.1 != some c.2.2 || (false && c.1) then some c.2.2 else none) = diffNew pk r r' ∧
    ((pk.zip ((r.map some).zip r')).map fun c =>
      if c.2.1 != some c.2.2 || (true && c.1) then some c.2.2 else none) = diffPatch pk r r' := by
  induction h with
  | nil => simp [diffPatch]
  | key x _ ih => simpa using ih
  | other x y _ ih =>
    obtain ⟨hany, hold, hnew, hpatch⟩ := ih
    by_cases hxy : x = y <;> simp_all

theorem appendUpdate_eq (patchset : Bool) (h : Kin pk r r') (op : Op) (i : Bool) :
    appendUpdate patchset pk r' ⟨op, i, r.map some⟩ = if r = r' then none else
      some ⟨.update, i, if patchset then diffPatch pk r r'
        else diffOld pk r r' ++ diffNew pk r r'⟩ := by
  obtain ⟨hany, hold, hnew, hpatch⟩ := appendUpdate_columns h
  cases patchset
  · simp only [appendUpdate, hany, hold, hnew]
    by_cases heq : r = r' <;> simp [heq]
  · simp only [appendUpdate, hany, hpatch]
    by_cases heq : r = r' <;> simp [heq]

/-- What is generated for a row describes what happened to it. -/
def Generated (pk : List Bool) (patchset : Bool) (x y : Option (Row V)) : Option (Entry V) → Prop
  | none => x = y
  | some E => x ≠ y ∧ Describes pk patchset x y E

theorem generated_appendUpdate (patchset : Bool) (h : Kin pk r r') (op : Op) (i : Bool) :
    Generated pk patchset (some r) (some r') (appendUpdate patchset pk r' ⟨op, i, r.map some⟩) := by
  rw [appendUpdate_eq patchset h]
  by_cases heq : r = r'
  · rw [if_pos heq]
    exact congrArg some heq
  · rw [if_neg heq]
    refine ⟨fun hsome => heq (Option.some.inj hsome), ?_⟩
    cases patchset with
    | false => exact .update r r' i rfl heq
    | true =>
      obtain ⟨hpatch, hset⟩ := patch_diffPatch h
      exact .patch r r' i _ rfl hpatch (hset heq)

variable {hash : List (Option V) → Nat} {A : V → Prop} {rows₀ : Content V} {t : SourceTable V}
  {u : SessionTable N V} {patchset : Bool}

theorem Watches.generateOne (h : Watches hash A rows₀ t u) (patchset : Bool) (ht : t.Good A)
    (hpk : u.pk = some t.table.pk) (he : e ∈ u.changes.entries) :
    ∃ k : Key V, (∀ v ∈ k, A v) ∧ entryKey false t.table.pk e = k.map some ∧
      Generated t.table.pk patchset (rows₀ (t.table.norm k)) (t.rows (t.table.norm k))
        (generateOne patchset t e) := by
  obtain ⟨hwf, hrecords, hnoted⟩ := h.notes hpk
  obtain ⟨hlen, k, hk, hkey⟩ := hrecords e he
  refine ⟨k, hk, hkey, ?_⟩
  have hnoted' := hnoted k hk
  rw [hwf.find_eq_some_iff.mpr ⟨he, hkey⟩] at hnoted'
  have hselect : (keyFields t.table.pk e.record).map (·.getD t.table.null) = k := by
    rw [← entryKey_false, hkey, map_map]
    exact map_id k
  have hfill : (e.fill t.exprs).record = e.record := by
    have hdrop : t.exprs.drop e.record.length = [] := by
      refine drop_eq_nil_of_le ?_
      rw [hlen, ht.exprs]
    simp [Entry.fill, hdrop]
  rw [Noted, hfill] at hnoted'
  unfold Changeset.generateOne
  simp only [hselect]
  have hnow := ht.sound.onKey ht.exact hk
  have hthen := h.start.onKey ht.exact hk
  obtain ⟨op, i, record⟩ := e
  simp only at hnoted' ⊢
  cases hy : t.rows (t.table.norm k) with
  | none =>
    by_cases hop : op = .insert
    · subst hop
      simp only [if_true] at hnoted'
      exact hnoted'
    · rw [if_neg hop] at hnoted'
      obtain ⟨r, hr, rfl⟩ := hnoted'
      have hdelete : Describes t.table.pk patchset (some r) none
          (appendDelete patchset t.table.pk ⟨op, i, r.map some⟩) := .delete r i
      rw [hr]
      cases op with
      | insert => exact absurd rfl hop
      | update | delete => exact ⟨by simp, hdelete⟩
  | some r' =>
    by_cases hop : op = .insert
    · subst hop
      simp only [if_true] at hnoted'
      rw [hnoted']
      exact ⟨by simp, .insert r' i⟩
    · rw [if_neg hop] at hnoted'
      obtain ⟨r, hr, rfl⟩ := hnoted'
      rw [hr] at hthen ⊢
      rw [hy] at hnow
      have hupdate := generated_appendUpdate patchset (hthen.kin hnow) op i
      cases op with
      | insert => exact absurd rfl hop
      | update | delete => exact hupdate

/-! ## A table -/

/-- The changes of a table have each key once and describe what happened to each row that changed,
and to no others. -/
structure Covers (patchset : Bool) (A : V → Prop) (rows₀ : Content V) (t : SourceTable V)
    (es : List (Entry V)) : Prop where
  nodup : (es.map (entryKey patchset t.table.pk)).Nodup
  describes : ∀ E ∈ es, ∃ k : Key V, (∀ v ∈ k, A v) ∧ entryKey patchset t.table.pk E = k.map some ∧
    rows₀ (t.table.norm k) ≠ t.rows (t.table.norm k) ∧
    Describes t.table.pk patchset (rows₀ (t.table.norm k)) (t.rows (t.table.norm k)) E
  complete : ∀ k : Key V, (∀ v ∈ k, A v) → rows₀ (t.table.norm k) ≠ t.rows (t.table.norm k) →
    ∃ E ∈ es, entryKey patchset t.table.pk E = k.map some

/-- The entries of a table that has seen all columns. -/
theorem Watches.covers (h : Watches hash A rows₀ t u) (ht : t.Good A) (hpk : u.pk = some t.table.pk)
    (patchset : Bool) :
    Covers patchset A rows₀ t (u.changes.entries.filterMap (Changeset.generateOne patchset t)) := by
  obtain ⟨hwf, -, hnoted⟩ := h.notes hpk
  have hchange (k : Key V) (hk : ∀ v ∈ k, A v) {E : Entry V} (hdesc : Describes t.table.pk patchset
      (rows₀ (t.table.norm k)) (t.rows (t.table.norm k)) E) :=
    hdesc.entryKey_eq (h.start.onKey ht.exact hk) (ht.sound.onKey ht.exact hk)
  refine ⟨?_, fun E hE => ?_, fun k hk hne => ?_⟩
  · -- the key of a change is that of its entry
    have hkeys : ∀ e ∈ u.changes.entries, ∀ E, Changeset.generateOne patchset t e = some E →
        entryKey patchset t.table.pk E = entryKey false t.table.pk e := by
      intro e he E hE
      obtain ⟨k, hk, hkey, hgen⟩ := h.generateOne patchset ht hpk he
      rw [hE] at hgen
      exact (hchange k hk hgen.2).trans hkey.symm
    refine pairwise_map.mpr (pairwise_filterMap.mpr ?_)
    refine (pairwise_map.mp hwf.nodup).imp_of_mem fun he he' hne E hE E' hE' heq => hne ?_
    rwa [← hkeys _ he E hE, ← hkeys _ he' E' hE']
  · obtain ⟨e, he, hE⟩ := mem_filterMap.mp hE
    obtain ⟨k, hk, -, hgen⟩ := h.generateOne patchset ht hpk he
    rw [hE] at hgen
    exact ⟨k, hk, hchange k hk hgen.2, hgen⟩
  · cases hf : u.changes.find (entryKey false t.table.pk) hash (k.map some) with
    | none =>
      have hsame := hnoted k hk
      rw [hf] at hsame
      exact absurd hsame hne
    | some e =>
      obtain ⟨he, hkey⟩ := hwf.find_eq_some_iff.mp hf
      obtain ⟨k', hk', hkey', hgen⟩ := h.generateOne patchset ht hpk he
      obtain rfl := eq_of_map_some (hkey'.symm.trans hkey)
      cases hE : Changeset.generateOne patchset t e <;> rw [hE] at hgen
      · exact absurd hgen hne
      · exact ⟨_, mem_filterMap.mpr ⟨e, he, hE⟩, hchange k' hk hgen.2⟩

theorem Watches.covers_nil (h : Watches hash A rows₀ t u) (hentries : u.changes.nEntry = 0)
    (patchset : Bool) : Covers patchset A rows₀ t [] := by
  have hnil : u.changes.entries = [] := eq_nil_of_length_eq_zero (h.wf.count ▸ hentries)
  refine ⟨nodup_nil, nofun, fun k hk hne => ?_⟩
  have hsame := h.noted k hk
  cases hf : u.changes.find (entryKey false (u.pk.getD [])) hash (k.map some) with
  | none =>
    rw [hf] at hsame
    exact absurd hsame hne
  | some e =>
    have he := (h.wf.find_eq_some_iff.mp hf).1
    rw [hnil] at he
    cases he

theorem Watches.generate (h : Watches hash A rows₀ t u) (ht : t.Good A)
    (hsource : source u.tab = some t) (hentries : u.changes.nEntry ≠ 0) (patchset : Bool) :
    ∃ es, u.generate patchset source = .ok { tab := u.tab, pk := t.table.pk, entries := es } ∧
      Covers patchset A rows₀ t es := by
  cases hpk : u.pk with
  | none =>
    rw [h.fresh hpk] at hentries
    exact absurd rfl hentries
  | some pk =>
    obtain ⟨u', hcatch, -, hpk', hwatch⟩ := h.catchUp ht.exprs hpk
    refine ⟨_, ?_, hwatch.covers ht hpk' patchset⟩
    have hcol := h.columns pk hpk
    have hreinit : u.reinit t = .ok { u with pk := some t.table.pk } := by
      simp [SessionTable.reinit, hpk, ← hcol]
    have hupdated : (if u.pk = some t.table.pk then { u with pk := some t.table.pk }
        else SessionTable.updateChanges t { u with pk := some t.table.pk }) = u' := by
      unfold SessionTable.catchUp at hcatch
      rw [hpk, hreinit] at hcatch
      simp only [Option.getD_some] at hcatch
      by_cases hlt : pk.length < t.table.pk.length
      · rw [if_pos hlt] at hcatch
        rw [hpk, if_neg]
        · exact Except.ok.inj hcatch
        · intro heq
          rw [Option.some.inj heq] at hlt
          exact Nat.lt_irrefl _ hlt
      · have heq := (h.seen hpk).eq_of_length_le (Nat.le_of_not_lt hlt)
        rw [if_neg hlt, if_pos (congrArg length heq)] at hcatch
        rw [hpk, heq, if_pos rfl, ← heq, ← hpk]
        exact Except.ok.inj hcatch
    rw [SessionTable.generate, hsource]
    simp only [hreinit, Except.map, hupdated]

end Entries

/-! ## A session -/

namespace Session

variable [DecidableEq N]

def covers (s : Session N V) (n : N) : Bool :=
  s.tables.any (·.tab = n) || (s.autoAttach && s.filter n)

def table (s : Session N V) (n : N) : SessionTable N V :=
  (s.tables.find? (·.tab = n)).getD { tab := n, pk := none, changes := .empty }

variable {s : Session N V} {n : N}

theorem table_tab (s : Session N V) (n : N) : (s.table n).tab = n := by
  unfold table
  cases h : s.tables.find? (·.tab = n) with
  | none => rfl
  | some u => simpa using find?_some h

structure Same (s s' : Session N V) : Prop where
  rc : s'.rc = s.rc
  table : ∀ m, s'.table m = s.table m
  names : (s.tables.map (·.tab)).Nodup → (s'.tables.map (·.tab)).Nodup

theorem attach_same (s : Session N V) (n : N) : Same s (s.attach n) := by
  unfold attach
  split
  · exact ⟨rfl, fun _ => rfl, id⟩
  · next hnone =>
    have hfresh : ∀ u ∈ s.tables, u.tab ≠ n := by simpa using hnone
    refine ⟨rfl, fun m => ?_, fun hnames => ?_⟩
    · simp only [table, find?_append]
      cases hm : s.tables.find? (·.tab = m) with
      | some u => rfl
      | none =>
        by_cases heq : n = m <;> simp [heq]
    · rw [map_append, nodup_append]
      exact ⟨hnames, by simp, by simpa using hfresh⟩

theorem attach_all_same (names : List N) (s : Session N V) :
    Same s (names.foldl (fun s n => s.attach n) s) := by
  induction names generalizing s with
  | nil => exact ⟨rfl, fun _ => rfl, id⟩
  | cons n names ih =>
    have h := attach_same s n
    have h' := ih (s.attach n)
    exact ⟨h'.rc.trans h.rc, fun m => (h'.table m).trans (h.table m), h'.names ∘ h.names⟩

theorem covers_attach (s : Session N V) (n m : N) :
    (s.attach n).covers m = (s.covers m || decide (n = m)) := by
  unfold attach
  split
  · next hany =>
    by_cases heq : n = m
    · simp only [covers, ← heq, hany]
      simp
    · simp [heq]
  · simp only [covers, any_append, any_cons, any_nil, Bool.or_false]
    rw [Bool.or_right_comm]

theorem find?_attach (s : Session N V) (n : N) :
    (s.attach n).tables.find? (·.tab = n) = some (s.table n) := by
  unfold attach table
  cases hn : s.tables.find? (·.tab = n) with
  | some u =>
    have htab : decide (u.tab = n) = true := by simpa using find?_some hn
    have hany : s.tables.any (·.tab = n) = true :=
      any_eq_true.mpr ⟨u, mem_of_find?_eq_some hn, htab⟩
    rw [if_pos hany, hn]
    rfl
  | none =>
    have hany : ¬ s.tables.any (·.tab = n) = true := by
      simpa using hn
    rw [if_neg hany, find?_append, hn]
    simp

theorem findTable_of_covers (hcov : s.covers n = true) :
    Same s (s.findTable n) ∧ (∀ m, (s.findTable n).covers m = s.covers m) ∧
      (s.findTable n).tables.find? (·.tab = n) = some (s.table n) := by
  unfold findTable
  split
  · next hauto =>
    refine ⟨attach_same s n, fun m => ?_, find?_attach s n⟩
    rw [covers_attach]
    by_cases heq : n = m
    · rw [← heq, hcov]
      rfl
    · simp [heq]
  · next hauto =>
    refine ⟨⟨rfl, fun _ => rfl, id⟩, fun _ => rfl, ?_⟩
    have hany : s.tables.any (·.tab = n) = true := by
      simpa [covers, hauto] using hcov
    have hattach : s.attach n = s := if_pos hany
    rw [← find?_attach s n, hattach]

theorem findTable_of_not_covers (hcov : s.covers n = false) :
    s.findTable n = s ∧ s.tables.find? (·.tab = n) = none := by
  simp only [covers, Bool.or_eq_false_iff] at hcov
  refine ⟨?_, ?_⟩
  · rw [findTable, hcov.2]
    rfl
  · simpa using hcov.1

variable [DecidableEq V] {hash : List (Option V) → Nat} {t : SourceTable V} {direct : Bool}
  {touches : List (Op × Row V)}

theorem preUpdate_of_not_covers (hcov : s.covers n = false) :
    s.preUpdate hash n t direct touches = s := by
  obtain ⟨hfind, hnone⟩ := findTable_of_not_covers hcov
  unfold preUpdate
  rw [hfind]
  split
  · rfl
  · simp only [hnone]

theorem preUpdate_of_covers (hrc : s.rc = none) (hnames : (s.tables.map (·.tab)).Nodup)
    (hcov : s.covers n = true) (htab : u.tab = n)
    (hrun : touches.foldlM (SessionTable.preupdateOneChange hash t direct) (s.table n) = .ok u) :
    (s.preUpdate hash n t direct touches).rc = none ∧
      ((s.preUpdate hash n t direct touches).tables.map (·.tab)).Nodup ∧
      (∀ m, (s.preUpdate hash n t direct touches).covers m = s.covers m) ∧
      ∀ m, (s.preUpdate hash n t direct touches).table m = if m = n then u else s.table m := by
  unfold preUpdate
  by_cases hnil : touches = []
  · subst hnil
    obtain rfl : s.table n = u := Except.ok.inj hrun
    rw [if_pos (.inr rfl)]
    refine ⟨hrc, hnames, fun _ => rfl, fun m => ?_⟩
    split
    · next heq => rw [heq]
    · rfl
  · obtain ⟨hsame, hcovers, hfind⟩ := findTable_of_covers hcov
    rw [if_neg (by simp [hrc, hnil])]
    simp only [hfind, hrun]
    have hmap : ∀ v : SessionTable N V, (if v.tab = n then u else v).tab = v.tab := by
      intro v
      split
      · next heq => rw [htab, heq]
      · rfl
    refine ⟨hsame.rc.trans hrc, ?_, fun m => ?_, fun m => ?_⟩
    · rw [map_map]
      simpa only [comp_def, hmap] using hsame.names hnames
    · rw [← hcovers]
      simp only [covers, any_map, comp_def, hmap]
    · rw [← hsame.table m]
      simp only [table, find?_map, comp_def, hmap]
      by_cases heq : m = n
      · subst heq
        rw [hfind, if_pos rfl]
        simp [table_tab]
      · rw [if_neg heq]
        cases hm : (s.findTable n).tables.find? (·.tab = m) with
        | none => rfl
        | some v =>
          have hv : v.tab = m := by simpa using find?_some hm
          simp [hv, heq]

end Session

/-! ## Runs -/

def Grown (t₀ t : SourceTable V) : Prop :=
  t.table.null = t₀.table.null ∧ ∃ m, t.table.pk = t₀.table.pk ++ replicate m false

theorem Grown.step [DecidableEq V] {t₀ t t' : SourceTable V} (h : Grown t₀ t)
    (hstep : t.step a = some t') : Grown t₀ t' := by
  cases a with
  | insert row | update key row =>
    obtain ⟨-, hsome⟩ := Option.ite_none_right_eq_some.mp hstep
    obtain rfl := Option.some.inj hsome
    exact h
  | delete key =>
    obtain ⟨-, -, rfl⟩ := Option.map_eq_some_iff.mp hstep
    exact h
  | addColumn x expr =>
    obtain rfl := Option.some.inj hstep
    obtain ⟨hnull, m, hpk⟩ := h
    refine ⟨hnull, m + 1, ?_⟩
    change t.table.pk ++ [false] = _
    rw [hpk, append_assoc, ← replicate_succ']

theorem Grown.keyFields (h : Grown t₀ t) (hlen : row.length = t.table.pk.length) :
    keyFields t.table.pk row = keyFields t₀.table.pk row := by
  obtain ⟨-, m, hpk⟩ := h
  have htake : (row.take t₀.table.pk.length).length = t₀.table.pk.length := by
    rw [length_take, hlen, hpk, length_append]
    omega
  rw [hpk, ← take_append_drop t₀.table.pk.length row, keyFields_append_false htake,
    keyFields_append htake]

/-- An action that fits the table at the beginning still fits. -/
theorem Action.Fits.grown [DecidableEq V] {A : V → Prop} (h : a.Fits A t₀)
    (hgrown : Grown t₀ t) (hstep : t.step a = some t') : a.Fits A t := by
  cases a with
  | delete key => trivial
  | insert row | update key row =>
    obtain ⟨⟨hlen, -⟩, -⟩ := Option.ite_none_right_eq_some.mp hstep
    refine ⟨h.1, ?_⟩
    rw [hgrown.keyFields hlen, hgrown.1]
    exact h.2
  | addColumn x expr => exact h

theorem exists_mapM_ok {α β ε : Type} {f : α → Except ε β} {P : α → β → Prop} {l : List α}
    (h : ∀ a ∈ l, ∃ b, f a = .ok b ∧ P a b) : ∃ bs, l.mapM f = .ok bs ∧ List.Forall₂ P l bs ∧
      (∀ a ∈ l, ∃ b ∈ bs, P a b) ∧ ∀ b ∈ bs, ∃ a ∈ l, P a b := by
  induction l with
  | nil => exact ⟨[], rfl, .nil, nofun, nofun⟩
  | cons a l ih =>
    obtain ⟨b, hb, hab⟩ := h a mem_cons_self
    obtain ⟨bs, hbs, hall, hto, hof⟩ := ih fun a ha => h a (mem_cons_of_mem _ ha)
    refine ⟨b :: bs, by rw [mapM_cons, hb, hbs]; rfl, .cons hab hall, ?_, ?_⟩
    · exact forall_mem_cons.mpr ⟨⟨b, mem_cons_self, hab⟩, fun a ha =>
        (hto a ha).imp fun _ => And.imp_left (mem_cons_of_mem _)⟩
    · exact forall_mem_cons.mpr ⟨⟨a, mem_cons_self, hab⟩, fun b hb =>
        (hof b hb).imp fun _ => And.imp_left (mem_cons_of_mem _)⟩

section Runs

variable [DecidableEq N] [DecidableEq V]

def withColumns (es : List (Edit N V)) (rows : N → Content V) : N → Content V :=
  es.foldl (fun rows e => update rows e.tab (e.action.widen (rows e.tab))) rows

variable (hash : List (Option V) → Nat) (A : N → V → Prop)
  (source₀ : N → Option (SourceTable V)) (cov : N → Bool)

/-- The session knows the rows at the beginning of each table that it covers. -/
structure Recording.Inv (rows₀ : N → Content V) (r : Recording N V) : Prop where
  rc : r.session.rc = none
  names : (r.session.tables.map (·.tab)).Nodup
  covers : ∀ n, r.session.covers n = cov n
  source : ∀ n t, cov n = true → r.source n = some t → t.Good (A n) ∧
    Watches hash (A n) (rows₀ n) t (r.session.table n) ∧
    ∃ t₀, source₀ n = some t₀ ∧ Grown t₀ t
  absent : ∀ n, cov n = true → r.source n = none → (r.session.table n).changes = .empty

variable {hash A source₀ cov} {rows₀ : N → Content V} {r r' : Recording N V} {e : Edit N V}
  {es : List (Edit N V)}

theorem Recording.Inv.step (h : r.Inv hash A source₀ cov rows₀)
    (hfits : cov e.tab = true → ∀ t, source₀ e.tab = some t → e.action.Fits (A e.tab) t)
    (hstep : r.step hash e = some r') :
    r'.Inv hash A source₀ cov
      (update rows₀ e.tab (e.action.widen (rows₀ e.tab))) := by
  obtain ⟨t, ht, hstep⟩ := Option.bind_eq_some_iff.mp hstep
  obtain ⟨t', ht', rfl⟩ := Option.map_eq_some_iff.mp hstep
  cases hcov : cov e.tab with
  | false =>
    have hsame : r.session.preUpdate hash e.tab t e.direct (t.touches e.action) = r.session :=
      preUpdate_of_not_covers ((h.covers e.tab).trans hcov)
    rw [hsame]
    refine ⟨h.rc, h.names, h.covers, fun n u hn hu => ?_, fun n hn hnone => ?_⟩
    all_goals
      have hne : n ≠ e.tab := by
        rintro rfl
        rw [hcov] at hn
        cases hn
    · simp only [update_of_ne hne] at hu ⊢
      exact h.source n u hn hu
    · simp only [update_of_ne hne] at hnone ⊢
      exact h.absent n hn hnone
  | true =>
    obtain ⟨hgood, hwatch, t₀, ht₀, hgrown⟩ := h.source e.tab t hcov ht
    have hfits' := (hfits hcov t₀ ht₀).grown hgrown ht'
    obtain ⟨hgood', u, hrun, htab, hwatch'⟩ := hwatch.edit hgood e.direct hfits' ht'
    obtain ⟨hrc, hnames, hcovers, htable⟩ := preUpdate_of_covers h.rc h.names
      ((h.covers e.tab).trans hcov) (htab.trans (table_tab _ _)) hrun
    refine ⟨hrc, hnames, fun n => (hcovers n).trans (h.covers n), fun n v hn hv => ?_,
      fun n hn hnone => ?_⟩
    · simp only [htable]
      by_cases hne : n = e.tab
      · subst hne
        simp only [update_self] at hv
        obtain rfl := Option.some.inj hv
        rw [if_pos rfl, update_self]
        exact ⟨hgood', hwatch', t₀, ht₀, hgrown.step ht'⟩
      · simp only [update_of_ne hne, if_neg hne] at hv ⊢
        exact h.source n v hn hv
    · have hne : n ≠ e.tab := by
        rintro rfl
        simp at hnone
      simp only [htable, update_of_ne hne, if_neg hne] at hnone ⊢
      exact h.absent n hn hnone

theorem Recording.Inv.run (h : r.Inv hash A source₀ cov rows₀)
    (hfits : ∀ e ∈ es, cov e.tab = true → ∀ t, source₀ e.tab = some t → e.action.Fits (A e.tab) t)
    (hrun : r.run hash es = some r') : r'.Inv hash A source₀ cov (withColumns es rows₀) := by
  induction es generalizing r rows₀ with
  | nil =>
    obtain rfl := Option.some.inj hrun
    exact h
  | cons e es ih =>
    obtain ⟨r₁, hstep, hrest⟩ := Option.bind_eq_some_iff.mp hrun
    exact ih (h.step (hfits e mem_cons_self) hstep)
      (fun e he => hfits e (mem_cons_of_mem _ he)) hrest

def contents (source : N → Option (SourceTable V)) : N → Content V :=
  fun n => ((source n).map (·.rows)).getD fun _ => none

/-- A new session knows all, as nothing has happened. -/
theorem Recording.Inv.create {source : N → Option (SourceTable V)} (names : List N)
    (autoAttach : Bool) (filter : N → Bool)
    (hgood : ∀ n t, (Session.create names autoAttach filter : Session N V).covers n = true →
      source n = some t → t.Good (A n)) :
    Recording.Inv hash A source (Session.create names autoAttach filter : Session N V).covers
      (contents source) { source, session := .create names autoAttach filter } := by
  have hsame := attach_all_same (V := V) names { tables := [], autoAttach, filter, rc := none }
  refine ⟨hsame.rc, hsame.names nodup_nil, fun _ => rfl, fun n t hcov ht => ?_,
    fun n _ _ => congrArg SessionTable.changes (hsame.table n)⟩
  have hgood' := hgood n t hcov ht
  have htable' : (Session.create names autoAttach filter : Session N V).table n =
      { tab := n, pk := none, changes := .empty } := hsame.table n
  have hsource : source n = some t := ht
  have hrows : contents source n = t.rows := by simp [contents, hsource]
  rw [hrows]
  simp only [htable']
  refine ⟨hgood', ⟨hgood'.sound, (by simp), fun _ => rfl, HashTable.wf_empty,
    (fun _ h => by cases h), fun k _ => rfl⟩,
    t, ht, rfl, 0, by simp⟩

/-! ## The changeset of a session -/

def IsBlock (patchset : Bool) (A : N → V → Prop) (rows₀ : N → Content V)
    (source : N → Option (SourceTable V)) (u : SessionTable N V) (k : Block N V) : Prop :=
  k.tab = u.tab ∧ ∃ t, source u.tab = some t ∧ k.pk = t.table.pk ∧
    Covers patchset (A u.tab) (rows₀ u.tab) t k.entries

theorem Recording.Inv.table_eq (h : r.Inv hash A source₀ cov rows₀)
    (hu : u ∈ r.session.tables) : cov u.tab = true ∧ r.session.table u.tab = u := by
  constructor
  · rw [← h.covers]
    simp only [Session.covers, Bool.or_eq_true, any_eq_true]
    exact .inl ⟨u, hu, by simp⟩
  · unfold Session.table
    cases hfind : r.session.tables.find? (·.tab = u.tab) with
    | none => simpa using find?_eq_none.mp hfind u hu
    | some v =>
      have htab : v.tab = u.tab := by simpa using find?_some hfind
      exact inj_on_of_nodup_map h.names (mem_of_find?_eq_some hfind) hu htab

/-- The changeset has one change for each row that changed, in the tables that are covered. -/
structure Recording.Explained (A : N → V → Prop) (cov : N → Bool) (rows₀ : N → Content V)
    (r : Recording N V) (b : Blob N V) : Prop where
  nodup : (b.changes.map fun c => (c.1.tab, entryKey b.patchset c.1.pk c.2)).Nodup
  sound : ∀ c ∈ b.changes, cov c.1.tab = true ∧ ∃ t, r.source c.1.tab = some t ∧
    c.1.pk = t.table.pk ∧ ∃ es, Covers b.patchset (A c.1.tab) (rows₀ c.1.tab) t es ∧ c.2 ∈ es
  complete : ∀ n t, cov n = true → r.source n = some t →
    ∃ es, Covers b.patchset (A n) (rows₀ n) t es ∧ ∀ E ∈ es, (⟨n, t.table.pk⟩, E) ∈ b.changes

theorem Recording.Inv.generate (h : r.Inv hash A source₀ cov rows₀) (patchset : Bool) :
    ∃ b, generateChangeset patchset r = .ok b ∧ b.patchset = patchset ∧
      r.Explained A cov rows₀ b := by
  have hgen : ∀ u ∈ r.session.tables.filter (fun u => u.changes.nEntry ≠ 0), ∃ k,
      u.generate patchset r.source = .ok k ∧ IsBlock patchset A rows₀ r.source u k := by
    intro u hu
    obtain ⟨hmem, hentries⟩ := mem_filter.mp hu
    have hentries : u.changes.nEntry ≠ 0 := by simpa using hentries
    obtain ⟨hcov, htable⟩ := h.table_eq hmem
    cases hsource : r.source u.tab with
    | none =>
      have hempty := h.absent u.tab hcov hsource
      rw [htable] at hempty
      rw [hempty] at hentries
      exact absurd rfl hentries
    | some t =>
      obtain ⟨hgood, hwatch, -⟩ := h.source u.tab t hcov hsource
      rw [htable] at hwatch
      obtain ⟨es, hes, hcovers⟩ := hwatch.generate hgood hsource hentries patchset
      exact ⟨_, hes, rfl, t, hsource, rfl, hcovers⟩
  obtain ⟨ks, hks, hall, hto, hof⟩ := exists_mapM_ok hgen
  have hnames : ks.map (·.tab) =
      (r.session.tables.filter fun u => u.changes.nEntry ≠ 0).map (·.tab) := by
    refine forall₂_eq_eq_eq ▸ forall₂_map_left_iff.mpr
      (forall₂_map_right_iff.mpr (hall.flip.imp fun _ _ hk => hk.1))
  have hsub : (ks.map (·.tab)).Nodup := by
    rw [hnames]
    exact (filter_sublist.map _).nodup h.names
  have hrun : generateChangeset patchset r =
      .ok { patchset, blocks := ks.filter fun k => k.entries ≠ [] } := by
    rw [generateChangeset, h.rc]
    simp only [hks, Except.map]
  have hblock : ∀ k ∈ ks, ∃ u ∈ r.session.tables, IsBlock patchset A rows₀ r.source u k := by
    intro k hk
    obtain ⟨u, hu, hblock⟩ := hof k hk
    exact ⟨u, (mem_filter.mp hu).1, hblock⟩
  refine ⟨_, hrun, rfl, ?_, fun c hc => ?_, fun n t hcov hsource => ?_⟩
  · refine nodup_changes ((filter_sublist.map _).nodup hsub) fun k hk => ?_
    obtain ⟨u, -, -, t, -, hpk, hcovers⟩ := hblock k (mem_filter.mp hk).1
    rw [hpk]
    exact hcovers.nodup
  · obtain ⟨k, hk, hheader, hE⟩ := mem_changes.mp hc
    obtain ⟨u, hu, htab, t, ht, hpk, hcovers⟩ := hblock k (mem_filter.mp hk).1
    rw [hheader, htab]
    exact ⟨(h.table_eq hu).1, t, ht, hpk, _, hcovers, hE⟩
  · obtain ⟨hgood, hwatch, -⟩ := h.source n t hcov hsource
    by_cases hentries : (r.session.table n).changes.nEntry = 0
    · exact ⟨[], hwatch.covers_nil hentries patchset, nofun⟩
    · have hmem : r.session.table n ∈ r.session.tables := by
        unfold table at hentries ⊢
        cases hfind : r.session.tables.find? (·.tab = n) with
        | some u => exact mem_of_find?_eq_some hfind
        | none =>
          rw [hfind] at hentries
          exact absurd rfl hentries
      obtain ⟨k, hk, htab, t', ht', hpk, hcovers⟩ :=
        hto _ (mem_filter.mpr ⟨hmem, by simpa using hentries⟩)
      rw [table_tab] at htab ht' hcovers
      obtain rfl := Option.mem_unique hsource ht'
      refine ⟨_, hcovers, fun E hE => mem_changes.mpr ⟨k, ?_, ?_, hE⟩⟩
      · exact mem_filter.mpr ⟨hk, by simpa using ne_nil_of_mem hE⟩
      · rw [← htab, ← hpk]

/-! ## Applying it -/

def Recording.tables {w : World N V} (patchset : Bool) (r : Recording N V) (A : N → V → Prop)
    (cov : N → Bool)
    (hschema : ∀ n t, cov n = true → r.source n = some t → w.schema n = some t.table)
    (hgood : ∀ n t, cov n = true → r.source n = some t → t.Good (A n)) :
    ExactTables w patchset where
  table n := if cov n = true then (r.source n).map (·.table) else none
  values := A
  schema n t ht := by
    obtain ⟨hcov, ht⟩ := Option.ite_none_right_eq_some.mp ht
    obtain ⟨T, hT, rfl⟩ := Option.map_eq_some_iff.mp ht
    exact hschema n T hcov hT
  exact n t ht := by
    obtain ⟨hcov, ht⟩ := Option.ite_none_right_eq_some.mp ht
    obtain ⟨T, hT, rfl⟩ := Option.map_eq_some_iff.mp ht
    exact (hgood n T hcov hT).exact

def Recording.final (r : Recording N V) (cov : N → Bool) (db : N → Content V) : N → Content V :=
  fun n => if cov n = true then ((r.source n).map (·.rows)).getD (db n) else db n

section Applied

variable {w : World N V} {b : Blob N V} {db : N → Content V}
  {hschema : ∀ n t, cov n = true → r.source n = some t → w.schema n = some t.table}
  {hgood : ∀ n t, cov n = true → r.source n = some t → t.Good (A n)}

omit [DecidableEq N] [DecidableEq V] in
theorem Recording.table_tables {patchset : Bool} {n : N} :
    (r.tables patchset A cov hschema hgood).table n = some T ↔
      cov n = true ∧ ∃ t, r.source n = some t ∧ t.table = T := by
  rw [Recording.tables, Option.ite_none_right_eq_some, Option.map_eq_some_iff]

omit [DecidableEq N] in
/-- The changes lead from the rows at the beginning to the rows at the end. -/
theorem Recording.Explained.recorded (h : r.Explained A cov rows₀ b)
    (hstart : ∀ n t, cov n = true → r.source n = some t →
      db n = rows₀ n ∧ t.table.Sound (A n) (rows₀ n)) :
    (r.tables b.patchset A cov hschema hgood).Recorded b.changes db (r.final cov db) := by
  have htable : ∀ n t, cov n = true → r.source n = some t →
      (r.tables b.patchset A cov hschema hgood).table n = some t.table :=
    fun n t hcov ht => Recording.table_tables.mpr ⟨hcov, t, ht, rfl⟩
  have hfinal : ∀ n t, cov n = true → r.source n = some t → r.final cov db n = t.rows := by
    intro n t hcov ht
    simp [Recording.final, hcov, ht]
  refine ⟨h.nodup, fun c hc => ?_, fun n κ hrest => ?_⟩
  · obtain ⟨hcov, t, ht, hpk, es, hcovers, hE⟩ := h.sound c hc
    obtain ⟨k, hk, hkey, -, hdesc⟩ := hcovers.describes c.2 hE
    obtain ⟨hdb, hsound⟩ := hstart _ t hcov ht
    have hgood' := hgood _ t hcov ht
    refine ⟨t.table, k, htable _ t hcov ht, hpk, ?_⟩
    rw [hfinal _ t hcov ht, hdb]
    exact ⟨hkey, hk, hsound.onKey hgood'.exact hk, hgood'.sound.onKey hgood'.exact hk,
      fun row hrow => (hgood'.sound _ row hrow).2.2, hdesc⟩
  · unfold Recording.final
    split
    · next hcov =>
      cases ht : r.source n with
      | none => rfl
      | some t =>
        obtain ⟨hdb, hsound⟩ := hstart n t hcov ht
        have hgood' := hgood n t hcov ht
        by_contra hne
        rw [hdb] at hne
        change t.rows κ ≠ rows₀ n κ at hne
        -- there is a row here, before or after, and its key has a change
        obtain ⟨k, hk, rfl⟩ : ∃ k : Key V, (∀ v ∈ k, A n v) ∧ t.table.norm k = κ := by
          cases hrow : t.rows κ with
          | some row =>
            obtain ⟨-, hnorm, hA⟩ := hgood'.sound κ row hrow
            exact ⟨_, fun v hv => hA v (mem_of_mem_keyFields hv), hnorm⟩
          | none =>
            cases hrow₀ : rows₀ n κ with
            | none => exact absurd (hrow.trans hrow₀.symm) hne
            | some row =>
              obtain ⟨-, hnorm, hA⟩ := hsound κ row hrow₀
              exact ⟨_, fun v hv => hA v (mem_of_mem_keyFields hv), hnorm⟩
        obtain ⟨es, hcovers, hmem⟩ := h.complete n t hcov ht
        obtain ⟨E, hE, hkey⟩ := hcovers.complete k hk hne.symm
        exact hrest _ (hmem E hE) t.table k (htable n t hcov ht) hkey rfl rfl
    · rfl

end Applied

end Runs

section Main

variable [DecidableEq N] [DecidableEq V]

/-- A changeset or patchset of a session leads from the rows that the tables had when the session
was made, with the columns added since, to those they have, without a conflict; each change is for a
row that is not as it was. Rows are compared exactly, no key has a NULL, and an added column has the
value of its default expression. -/
theorem session_records {w : World N V} (hw : w.Plain) (flags : Flags) (patchset : Bool)
    (hash : List (Option V) → Nat) {A : N → V → Prop} {source : N → Option (SourceTable V)}
    {session : Session N V} (names : List N) (autoAttach : Bool) (filter : N → Bool)
    (hsession : session = .create names autoAttach filter)
    (hgood : ∀ n t, session.covers n = true → source n = some t → t.Good (A n))
    {es : List (Edit N V)}
    (hfits : ∀ e ∈ es, session.covers e.tab = true → ∀ t, source e.tab = some t →
      e.action.Fits (A e.tab) t)
    {r : Recording N V} (hrun : Recording.run hash es { source, session } = some r)
    (hschema : ∀ n t, session.covers n = true → r.source n = some t → w.schema n = some t.table)
    {s : State N V}
    (hstart : ∀ n t, session.covers n = true → r.source n = some t →
      s.db n = withColumns es (contents source) n) :
    ∃ b s', generateChangeset patchset r = .ok b ∧
      Applies w flags b.decode.1 b.decode.2 s s' ∧ s'.db = r.final session.covers s.db ∧
      ∀ c ∈ b.changes, ∃ t k, r.source c.1.tab = some t ∧
        entryKey patchset t.table.pk c.2 = k.map some ∧
        withColumns es (contents source) c.1.tab (t.table.norm k) ≠ t.rows (t.table.norm k) := by
  subst hsession
  have hinv : r.Inv hash A source _ (withColumns es (contents source)) :=
    (Recording.Inv.create names autoAttach filter hgood).run hfits hrun
  obtain ⟨b, hb, rfl, hexplained⟩ := hinv.generate patchset
  have hend := fun n t hcov ht => (hinv.source n t hcov ht).1
  have hstart' := fun n t hcov ht => And.intro (hstart n t hcov ht)
    (hinv.source n t hcov ht).2.1.start
  have hrecorded : (r.tables b.patchset A _ hschema hend).Recorded b.changes s.db
      (r.final _ s.db) := hexplained.recorded hstart'
  have hsound : (r.tables b.patchset A _ hschema hend).Sound s.db := by
    intro n T hT
    obtain ⟨hcov, t, ht, rfl⟩ := Recording.table_tables.mp hT
    rw [(hstart' n t hcov ht).1]
    exact (hstart' n t hcov ht).2
  obtain ⟨hread, hruns⟩ := hrecorded.runEntries hsound flags
  obtain ⟨s', happlies, hs'⟩ := exists_applies hw ((runTo_decode hread s.db).trans hruns)
  refine ⟨b, s', hb, happlies, hs', fun c hc => ?_⟩
  obtain ⟨-, t, ht, -, es', hcovers, hE⟩ := hexplained.sound c hc
  obtain ⟨k, -, hkey, hne, -⟩ := hcovers.describes c.2 hE
  exact ⟨t, k, ht, hkey, hne⟩

end Main

/-! ## Small recordings -/

def SourceTable.plain : SourceTable Nat where
  table := .plain
  exprs := [0, 0]
  rows := State.toy.db ()

/-- A row gets another key, one is deleted and comes back, and a column is added. -/
def Edit.story : List (Edit Unit Nat) :=
  [⟨(), true, .update [1] [3, 11]⟩, ⟨(), true, .delete [2]⟩, ⟨(), true, .insert [2, 21]⟩,
    ⟨(), true, .addColumn 5 5⟩, ⟨(), false, .update [2] [2, 22, 6]⟩]

def Table.wider : Table Nat := { Table.plain with pk := [true, false, false], dflt := [0, 0, 5] }

theorem SourceTable.plain_good : SourceTable.plain.Good fun _ => True := by
  refine ⟨Table.plain_exact, rfl, Table.plain_sound, fun κ r hr => ?_⟩
  simp only [SourceTable.plain, State.toy] at hr
  split at hr
  · obtain rfl := Option.some.inj hr
    decide
  · split at hr
    · obtain rfl := Option.some.inj hr
      decide
    · cases hr

theorem session_records_story : ∃ r b s',
    Recording.run (fun _ => 0) Edit.story
      { source := fun _ => some .plain, session := .create [()] false fun _ => true } = some r ∧
    generateChangeset true r = .ok b ∧
    Applies (World.plain .wider) Flags.none b.decode.1 b.decode.2
      { State.toy with db := withColumns Edit.story (contents fun _ => some .plain) } s' ∧
    [s'.db () [1], s'.db () [2], s'.db () [3]] = [none, some [2, 22, 6], some [3, 11, 5]] := by
  have hruns : (Recording.run (fun _ => 0) Edit.story
      { source := fun _ => some .plain, session := .create [()] false fun _ => true }).bind
        (fun r => (r.source ()).map fun t => (t.table, t.rows [1], t.rows [2], t.rows [3])) =
      some (Table.wider, none, some [2, 22, 6], some [3, 11, 5]) := rfl
  obtain ⟨r, hr, hruns⟩ := Option.bind_eq_some_iff.mp hruns
  obtain ⟨t', ht', hrows⟩ := Option.map_eq_some_iff.mp hruns
  simp only [Prod.mk.injEq] at hrows
  have hfits : ∀ e ∈ Edit.story, ∀ t, some SourceTable.plain = some t →
      e.action.Fits (fun _ => True) t := by
    intro e he t ht
    obtain rfl := Option.some.inj ht
    simp only [Edit.story, mem_cons, not_mem_nil, or_false] at he
    rcases he with rfl | rfl | rfl | rfl | rfl
    · exact ⟨fun _ _ => trivial, by decide⟩
    · trivial
    · exact ⟨fun _ _ => trivial, by decide⟩
    · exact ⟨trivial, rfl⟩
    · exact ⟨fun _ _ => trivial, by decide⟩
  have hschema : ∀ n t, r.source n = some t → (World.plain .wider).schema n = some t.table := by
    intro n t ht
    obtain rfl := Option.mem_unique ht' ht
    rw [hrows.1]
    rfl
  obtain ⟨b, s', hb, happlies, hdb, -⟩ := session_records
    (World.plain_plain (t := .wider) fun _ _ _ => rfl) Flags.none true (fun _ => 0)
    (A := fun _ _ => True) [()] false (fun _ => true) rfl
    (fun n t _ ht => Option.some.inj ht ▸ SourceTable.plain_good) (fun e he _ => hfits e he) hr
    (fun n t _ => hschema n t)
    (s := { State.toy with db := withColumns Edit.story (contents fun _ => some .plain) })
    fun _ _ _ _ => rfl
  refine ⟨r, b, s', hr, hb, happlies, ?_⟩
  have hfinal : s'.db () = t'.rows := by
    rw [hdb]
    simp [Recording.final, ht', Session.covers, Session.create, Session.attach]
  rw [hfinal, hrows.2.1, hrows.2.2.1, hrows.2.2.2]

/-- What a session on a small table comes to: the changes, whether they can be applied, how often
the handler is asked, and the row this gives and should give. -/
structure Replay where
  changes : List (Entry Nat)
  ok : Bool
  asked : Nat
  row : Option (Row Nat)
  should : Option (Row Nat)
  deriving DecidableEq

def replayed (t : Table Nat) (rows : List (Row Nat)) (actions : List (Action Nat)) (key : Key Nat) :
    Option Replay :=
  let es := actions.map fun a => ({ tab := (), direct := true, action := a } : Edit Unit Nat)
  let start : SourceTable Nat :=
    { table := t
      exprs := t.dflt
      rows := fun κ => rows.find? fun r => decide (t.norm (keyFields t.pk r) = κ) }
  (Recording.run (fun _ => 0) es
      { source := fun _ => some start, session := .create [()] false fun _ => true }).bind fun r =>
    (r.source ()).bind fun t' => (generateChangeset false r).toOption.bind fun b =>
      (changesetApply (World.plain t'.table) Flags.none b.decode.1 b.decode.2
          { State.toy with db := withColumns es (contents fun _ => some start) }).map
        fun (res, s) =>
        ⟨b.changes.map (·.2), res.isOk, s.asked, s.db () key, t'.rows key⟩

/-- A table of which the key is compared up to the last bit, as a collation does with the case. -/
def Table.coarse : Table Nat :=
  { Table.plain with
    norm := map (· / 2)
    same := fun i v x => if i = 0 then v / 2 == x / 2 else v == x }

/-- A table of which a third column is compared up to the last bit, as TEXT is with numbers. -/
def Table.lenient : Table Nat :=
  { Table.plain with same := fun i v x => if i = 2 then v / 2 == x / 2 else v == x }

/-- With another spelling of a key, the session has an INSERT of a row that is there, and an UPDATE
that sets the key only. With a default that is not what its expression gives, the UPDATE of a row
asks for the wrong value. With a comparison that takes two values for one, an unchanged row has a
change. -/
theorem not_session_records :
    replayed .coarse [[2, 10]] [.update [2] [3, 10]] [1] = some
      { changes :=
          [⟨.insert, false, [some 3, some 10]⟩, ⟨.update, false, [some 2, none, some 3, none]⟩]
        ok := false
        asked := 1
        row := some [2, 10]
        should := some [3, 10] } ∧
    replayed .plain [[1, 10]] [.update [1] [1, 11], .addColumn 5 6] [1] = some
      { changes := [⟨.update, false, [some 1, some 10, some 6, none, some 11, some 5]⟩]
        ok := true
        asked := 1
        row := some [1, 10, 5]
        should := some [1, 11, 5] } ∧
    replayed .lenient [[1, 10]]
      [.update [1] [1, 11], .update [1] [1, 10], .addColumn 4 5] [1] = some
      { changes := [⟨.update, false, [some 1, none, some 5, none, none, some 4]⟩]
        ok := true
        asked := 0
        row := some [1, 10, 4]
        should := some [1, 10, 4] } := by
  refine ⟨?_, ?_, ?_⟩ <;> decide +kernel

end SqlCipher.Changeset
