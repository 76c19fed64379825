import SqlCipher.Changeset.Compose
import SqlCipher.Changeset.RebaseRun

/-!
# Rebasing removes conflicts

A local changeset is rebased with the rebase buffers of remote changesets that were applied to the
local database. Where the conflicts were `Tidy`, the rebased changeset can be applied to the remote
database without a conflict, and the columns that the local changeset changes and that were not
overridden have the values of the local database.
-/

namespace SqlCipher.Changeset

open PointUpdate Function List

variable {N V : Type} [DecidableEq N] [DecidableEq V]

section Applying

variable {w : World N V} {flags : Flags} {T : ExactTables w false}

theorem Rebaser.rebase_changes (hash : List (Option V) → Nat) (r : Rebaser N V)
    (hkind : L.patchset = false) : ∃ b, r.rebase hash L = .ok b ∧ b.patchset = false ∧
      b.changes = L.changes.filterMap fun c =>
        (rebaseEntry c.1.pk c.2 (r.find hash c.1.tab c.2)).map (c.1, ·) := by
  refine ⟨_, by rw [Rebaser.rebase, hkind]; rfl, rfl, ?_⟩
  simp only [Blob.changes]
  induction L.blocks with
  | nil => rfl
  | cons k ks ih =>
    have hentries : (k.entries.filterMap fun E => rebaseEntry k.pk E (r.find hash k.tab E)).map
        (k.toHeader, ·) = (k.entries.map (k.toHeader, ·)).filterMap fun c =>
          (rebaseEntry c.1.pk c.2 (r.find hash c.1.tab c.2)).map (c.1, ·) := by
      rw [map_filterMap, filterMap_map]
      rfl
    rw [flatMap_cons, filterMap_append, ← ih, ← hentries, filter_cons]
    split
    · rfl
    · next hempty =>
      have hnil : k.entries = [] := by simpa using hempty
      simp [hnil]

theorem Env.Does.runEntry {c : Header N × Entry V} (ht : T.table c.1.tab = some t)
    (hpk : c.1.pk = t.pk) (h : (t.env w flags c.1).Does k E (x c.1.tab (t.norm k)) z) :
    runEntry w flags false (c.1, E) x =
      some (update x c.1.tab (update (x c.1.tab) (t.norm k) z)) := by
  have hm := ExactTables.match_of_pk (c := (c.1, E)) ht hpk flags
  rw [runEntry_of_match hm]
  exact onPoint_eq_some ((step_of_key h.key _).trans (congrArg _ h.step))

structure ExactTables.Targets (T : ExactTables w false) (c : Header N × Entry V) (t : Table V)
    (k : Key V) : Prop where
  table : T.table c.1.tab = some t
  pk : c.1.pk = t.pk
  within : ∀ v ∈ k, T.values c.1.tab v
  row : rowOf c = (c.1.tab, k.map some)

/-- Changes to different rows, each of which can be made on the content at the start. -/
theorem runEntries_rebased {l : List (Header N × Entry V)}
    (g : Header N × Entry V → Option (Entry V)) (hnodup : (l.map rowOf).Nodup)
    (hmem : ∀ c ∈ l, ∃ t k z, T.Targets c t k ∧
      (t.env w flags c.1).Rebased k (x c.1.tab (t.norm k)) z (g c)) :
    ∃ x', (∀ c ∈ l.filterMap fun c => (g c).map (c.1, ·), c.2.Readable false c.1.pk) ∧
      runEntries w flags false (l.filterMap fun c => (g c).map (c.1, ·)) x = some x' ∧
      (∀ n t k, T.table n = some t → (∀ v ∈ k, T.values n v) → (n, k.map some) ∉ l.map rowOf →
        x' n (t.norm k) = x n (t.norm k)) ∧
      ∀ c ∈ l, ∀ t k, T.Targets c t k →
        (t.env w flags c.1).Rebased k (x c.1.tab (t.norm k)) (x' c.1.tab (t.norm k)) (g c) := by
  induction l generalizing x with
  | nil => exact ⟨x, nofun, rfl, fun _ _ _ _ _ _ => rfl, nofun⟩
  | cons c l ih =>
    obtain ⟨hnot, hnodup⟩ := nodup_cons.mp hnodup
    obtain ⟨t, k, z, hc, hz⟩ := hmem c mem_cons_self
    have hmem' := fun c hc => hmem c (mem_cons_of_mem _ hc)
    generalize hy : update x c.1.tab (update (x c.1.tab) (t.norm k) z) = y
    have hother : ∀ {n t' k'}, T.table n = some t' → (∀ v ∈ k', T.values n v) →
        (n, k'.map some) ∈ l.map rowOf ∨ (n, k'.map some) ≠ rowOf c →
        y n (t'.norm k') = x n (t'.norm k') := by
      intro n t' k' ht' hk' hrow
      refine hy ▸ T.update_other hc.table hc.within ht' hk' (fun heq => ?_) x
      rw [← heq, ← hc.row] at hrow
      exact hrow.elim hnot fun hne => hne rfl
    -- the change is made, if there is one
    have hhead : (∀ d ∈ ((g c).map (c.1, ·)).toList, d.2.Readable false d.1.pk) ∧
        runEntries w flags false ((g c).map (c.1, ·)).toList x = some y := by
      cases hg : g c with
      | none =>
        rw [hg] at hz
        obtain rfl : z = x c.1.tab (t.norm k) := hz
        rw [update_eq_self, update_eq_self] at hy
        exact ⟨nofun, congrArg some hy⟩
      | some E =>
        rw [hg] at hz
        refine ⟨forall_mem_singleton.mpr hz.readable, ?_⟩
        simp [runEntries, hz.runEntry hc.table hc.pk, hy]
    obtain ⟨x', hread, hrun, hkeep, hall⟩ := ih (x := y) hnodup fun c' hc' => by
      obtain ⟨t', k', z', ht', hz'⟩ := hmem' c' hc'
      refine ⟨t', k', z', ht', ?_⟩
      rwa [hother ht'.table ht'.within (.inl (mem_map.mpr ⟨c', hc', ht'.row⟩))]
    have hcons : (c :: l).filterMap (fun c => (g c).map (c.1, ·)) =
        ((g c).map (c.1, ·)).toList ++ l.filterMap fun c => (g c).map (c.1, ·) := by
      cases hg : g c <;> simp [hg]
    rw [hcons]
    refine ⟨x', forall_mem_append.mpr ⟨hhead.1, hread⟩, ?_, fun n t' k' ht' hk' hnot' => ?_,
      forall_mem_cons.mpr ⟨fun t' k' ht' => ?_, fun c' hc' t' k' ht' => ?_⟩⟩
    · rw [runEntries, foldlM_append]
      exact Option.bind_eq_some_iff.mpr ⟨y, hhead.2, hrun⟩
    · rw [map_cons, mem_cons, not_or] at hnot'
      rw [hkeep n t' k' ht' hk' hnot'.2, hother ht' hk' (.inr hnot'.1)]
    · obtain ⟨-, rfl, rfl⟩ := T.row_inj ht'.table ht'.row hc.table hc.row
      rw [hkeep _ t' k' ht'.table ht'.within (ht'.row ▸ hnot), ← hy]
      simpa using hz
    · have hc' := hother ht'.table ht'.within (.inl (mem_map.mpr ⟨c', hc', ht'.row⟩)) ▸
        hall c' hc' t' k' ht'
      exact hc'

omit [DecidableEq N] [DecidableEq V] in
/-- There is one row that the local change can leave. -/
theorem Env.Rebased.unique {e : Env N V} (h : e.Rebased k x z E) (h' : e.Rebased k x z' E) :
    z = z' := by
  cases E with
  | none => exact Eq.trans h (Eq.symm h')
  | some E => exact Option.mem_unique h.step h'.step

def Rebaser.configureAll (hash : List (Option V) → Nat)
    (l : List (Blob N V × List (RebaseEntry N V))) (r : Rebaser N V) :
    Except ErrorCode (Rebaser N V) :=
  l.foldlM (fun r p => r.configure hash p.2) r

theorem exists_configuredAll {hash : List (Option V) → Nat} {r : Rebaser N V}
    (hl : ∀ e ∈ records l, ∃ t k, T.Books e t k) (h : Configured T hash es r.tables) :
    ∃ r', r.configureAll hash l = .ok r' ∧ Configured T hash (es ++ records l) r'.tables := by
  induction l generalizing r es with
  | nil => exact ⟨r, rfl, by simpa [records] using h⟩
  | cons p l ih =>
    have hrecords : records (p :: l) = p.2 ++ records l := rfl
    have hp : ∀ e ∈ p.2, ∃ t k, T.Books e t k := fun e he => hl e (by simp [hrecords, he])
    obtain ⟨r₁, hr₁, hconf⟩ := exists_configured hp h
    obtain ⟨r', hr', hconf'⟩ := ih (fun e he => hl e (by simp [hrecords, he])) hconf
    refine ⟨r', ?_, by simpa [hrecords] using hconf'⟩
    rw [Rebaser.configureAll, foldlM_cons, hr₁]
    exact hr'

end Applying

/-- The local changeset is rebased with the buffers of the calls that applied remote changesets to
the local database. If the conflicts were tidy, it can be applied to the remote database without a
conflict, and a column that it changes and that was not overridden has its local value. -/
theorem rebase_applies {w : World N V} (hw : w.Plain) (T : ExactTables w false)
    (hash : List (Option V) → Nat) (flags flags' : Flags) (hflag : flags.rebase = true)
    {L : Blob N V} (hkind : L.patchset = false) {x₀ x : N → Content V} {s s' : State N V}
    (hx₀ : T.Sound x₀) (hL : T.Recorded L.changes x₀ s.db)
    {l : List (Blob N V × List (RebaseEntry N V))} (hpull : Pulled T flags x₀ s l x s')
    (htidy : Tidy L.changes l) :
    ∃ r b, Rebaser.create.configureAll hash l = .ok r ∧ r.rebase hash L = .ok b ∧
      ∀ s₁ : State N V, s₁.db = x → ∃ s₂, Applies w flags' b.decode.1 b.decode.2 s₁ s₂ ∧
        ∀ n t k i, T.table n = some t → (∀ v ∈ k, T.values n v) →
          cell (x₀ n (t.norm k)) i ≠ cell (s.db n (t.norm k)) i →
          ¬Overridden l (n, k.map some) i →
          cell (s₂.db n (t.norm k)) i = cell (s'.db n (t.norm k)) i := by
  have hstanding := hpull.standing hw hflag hx₀ hL htidy
  have hnew : Configured T hash [] (Rebaser.create : Rebaser N V).tables := configured_nil
  obtain ⟨r, hr, hconf⟩ := exists_configuredAll hstanding.books hnew
  rw [nil_append] at hconf
  obtain ⟨b, hb, hbkind, hchanges⟩ := Rebaser.rebase_changes hash r hkind
  have hrebase : ∀ c ∈ L.changes, ∃ t k z, T.Targets c t k ∧
      (t.env w flags' c.1).Rebased k (x c.1.tab (t.norm k)) z
        (rebaseEntry c.1.pk c.2 (r.find hash c.1.tab c.2)) ∧
      ∀ i, cell (x₀ c.1.tab (t.norm k)) i ≠ cell (s.db c.1.tab (t.norm k)) i →
        ¬Overridden l (rowOf c) i → cell z i = cell (s'.db c.1.tab (t.norm k)) i := by
    intro c hc
    obtain ⟨t, k, ht, hpk, hexplains⟩ := hL.explains c hc
    have hrow : rowOf c = (c.1.tab, k.map some) := by rw [rowOf, hpk, hexplains.key]
    obtain ⟨z, hz, hcell⟩ := hstanding.rebase htidy hc ht hpk hrow hexplains flags'
    have hfind : r.find hash c.1.tab c.2 =
        mergeRecords t.pk ((records l).filter fun e => e.row = rowOf c) := by
      rw [hconf.find ht, rowOf, hpk]
      rfl
    exact ⟨t, k, z, ⟨ht, hpk, hexplains.within, hrow⟩, hfind ▸ hz, hcell⟩
  obtain ⟨x', hread, hrun, -, hall⟩ := runEntries_rebased
    (fun c => rebaseEntry c.1.pk c.2 (r.find hash c.1.tab c.2)) hL.nodup fun c hc => by
      obtain ⟨t, k, z, ht, hz, -⟩ := hrebase c hc
      exact ⟨t, k, z, ht, hz⟩
  rw [← hchanges] at hread hrun
  refine ⟨r, b, hr, hb, fun s₁ hs₁ => ?_⟩
  have hto : b.decode.1.runTo w flags' b.decode.2 s₁.db = some x' := by
    rw [runTo_decode (by rwa [hbkind]), hbkind, hs₁]
    exact hrun
  obtain ⟨s₂, happlies, rfl⟩ := exists_applies hw hto
  refine ⟨s₂, happlies, fun n t k i ht hk hne hO => ?_⟩
  rcases hL.row ht hk with ⟨c, hc, hrow, -, -⟩ | ⟨-, hsame⟩
  · obtain ⟨t', k', z, ht', hz, hcell⟩ := hrebase c hc
    obtain ⟨rfl, rfl, rfl⟩ := T.row_inj ht'.table ht'.row ht hrow
    rw [(hall c hc t' k' ht').unique hz]
    exact hcell i hne (hrow ▸ hO)
  · exact absurd (by rw [hsame]) hne

def Blob.set (k v v' : Nat) : Blob Unit Nat :=
  .toy false [true, false] [⟨.update, false, [some k, some v, none, some v']⟩]

def withRow (db : Unit → Content Nat) (k v : Nat) : Unit → Content Nat :=
  fun _ => update (db ()) [k] (some [k, v])

theorem ExactTables.toy_recorded (hne : v ≠ v') (h : db () [k] = some [k, v]) :
    ExactTables.toy.Recorded (Blob.set k v v').changes db (withRow db k v') := by
  have hkey : ∀ v, OnKey [true, false] [k] (some [k, v]) := fun v => onKey_some rfl rfl
  refine ⟨by simp [Blob.set, Blob.toy, Blob.changes], ?_, fun n κ hrest => ?_⟩
  · intro c hc
    obtain rfl : c = (⟨(), [true, false]⟩, ⟨.update, false, [some k, some v, none, some v']⟩) := by
      simpa [Blob.set, Blob.toy, Blob.changes] using hc
    refine ⟨.plain, [k], rfl, rfl, ?_⟩
    have hbefore : db () (Table.plain.norm [k]) = some [k, v] := h
    have hafter : withRow db k v' () (Table.plain.norm [k]) = some [k, v'] := update_self ..
    rw [hbefore, hafter]
    have hrows : [k, v] ≠ [k, v'] := by simpa using hne
    have hdescribes : Describes [true, false] false (some [k, v]) (some [k, v'])
        ⟨.update, false, [some k, some v, none, some v']⟩ := by
      have hupdate : Describes [true, false] false (some [k, v]) (some [k, v']) _ :=
        .update _ _ false rfl hrows
      simpa [hne] using hupdate
    exact ⟨rfl, fun _ _ => trivial, hkey v, hkey v', fun _ _ _ _ => trivial, hdescribes⟩
  · refine update_of_ne (hrest _ (mem_singleton_self _) .plain [k] rfl rfl rfl) _ _

/-- Both change the row (1, 10), and the conflict is answered OMIT. -/
theorem rebase_applies_story : ∃ s' r b,
    changesetApply (World.plain .plain) Flags.none (Blob.set 1 10 12).decode.1
      (Blob.set 1 10 12).decode.2 { State.toy with db := withRow State.toy.db 1 11 } =
        some (.ok (), s') ∧
    Rebaser.create.configureAll (fun _ => 0) [(Blob.set 1 10 12, s'.rebase)] = .ok r ∧
    r.rebase (fun _ => 0) (Blob.set 1 10 11) = .ok b ∧
    ∃ s₂, Applies (World.plain .plain) Flags.none b.decode.1 b.decode.2
      { State.toy with db := withRow State.toy.db 1 12 } s₂ ∧
      cell (s₂.db () [1]) 1 = cell (s'.db () [1]) 1 := by
  have hruns : (changesetApply (World.plain .plain) Flags.none (Blob.set 1 10 12).decode.1
      (Blob.set 1 10 12).decode.2 { State.toy with db := withRow State.toy.db 1 11 }).map
        (fun r => (r.1.isOk, r.2.rebase)) =
      some (true, [⟨⟨(), [true, false]⟩, false, false, [some 1, some 12]⟩]) := by
    decide +kernel
  obtain ⟨⟨res, s'⟩, hrun, hview⟩ := Option.map_eq_some_iff.mp hruns
  obtain ⟨hok, hrebase⟩ := Prod.mk.inj hview
  cases res with
  | error code => cases hok
  | ok _ =>
    have hsound : ExactTables.toy.Sound State.toy.db := by
      intro n t ht
      obtain rfl := Option.some.inj ht
      exact Table.plain_sound
    have hpull : Pulled ExactTables.toy Flags.none State.toy.db
        { State.toy with db := withRow State.toy.db 1 11 } [(Blob.set 1 10 12, s'.rebase)]
        (withRow State.toy.db 1 12) s' :=
      .snoc .nil rfl (ExactTables.toy_recorded (by decide) rfl) hrun
    have htidy : Tidy (Blob.set 1 10 11).changes [(Blob.set 1 10 12, s'.rebase)] := by
      refine ⟨fun e he _ _ => ?_, pairwise_singleton _ _, pairwise_singleton _ _⟩
      rw [records, flatMap_singleton, hrebase, mem_singleton] at he
      rw [he]
      decide
    obtain ⟨r, b, hr, hb, happly⟩ := rebase_applies
      (World.plain_plain (t := .plain) fun _ _ _ => rfl) ExactTables.toy (fun _ => 0) Flags.none
      Flags.none rfl rfl hsound (ExactTables.toy_recorded (by decide) rfl) hpull htidy
    obtain ⟨s₂, hs₂, hcell⟩ := happly { State.toy with db := withRow State.toy.db 1 12 } rfl
    refine ⟨s', r, b, hrun, hr, hb, s₂, hs₂, hcell () .plain [1] 1 rfl (fun _ _ => trivial) ?_ ?_⟩
    · decide
    · rintro ⟨e, he, -, hreplace, -⟩
      rw [records, flatMap_singleton, hrebase, mem_singleton] at he
      rw [he] at hreplace
      cases hreplace

/-- What rebasing comes to on a small table: the rebased changes, whether they can be applied, how
often the handler is asked, and both rows. -/
structure Rebasing where
  changes : List (Entry Nat)
  ok : Bool
  asked : Nat
  row : Option (Row Nat)
  localRow : Option (Row Nat)
  deriving DecidableEq

def applyToy (w : World Unit Nat) (b : Blob Unit Nat) (s : State Unit Nat) :
    Option (State Unit Nat) :=
  match changesetApply w Flags.none b.decode.1 b.decode.2 s with
  | some (.ok _, s') => some s'
  | _ => none

def rebaseToy (t : Table Nat) (answers : List Answer) (rows : List (Row Nat)) (L : Blob Unit Nat)
    (Rs : List (Blob Unit Nat)) : Option Rebasing :=
  let w := { World.plain t with conflict := fun n _ _ _ => answers.getD n .omitted }
  let s₀ := { State.toy with
    db := fun _ key => rows.find? fun r => decide (keyFields t.pk r = key) }
  (applyToy w L s₀).bind fun s₁ =>
    (Rs.foldlM (fun (p : State Unit Nat × Rebaser Unit Nat) R => (applyToy w R p.1).bind fun s =>
        (p.2.configure (fun _ => 0) s.rebase).toOption.map fun r => (s, r))
      (s₁, Rebaser.create)).bind fun p =>
    (Rs.foldlM (fun s R => applyToy w R s) s₀).bind fun x =>
    (p.2.rebase (fun _ => 0) L).toOption.bind fun b =>
      (changesetApply w Flags.none b.decode.1 b.decode.2 x).map fun (res, s) =>
        ⟨b.changes.map (·.2), res.isOk, s.asked, s.db () [1], p.1.db () [1]⟩

def Table.triple : Table Nat := { Table.plain with pk := [true, false, false], dflt := [0, 0, 0] }

/-- In a table of keys only, an INSERT over an INSERT answered OMIT becomes an UPDATE that sets
nothing. If only the first of two remote changes to a row conflicts, the rebased change expects the
row that the first one left. And after a REPLACE, a DELETE answered OMIT drops the local change,
with a column that was not overridden. -/
theorem not_rebase_applies :
    rebaseToy .keysOnly [] [] (.toy false [true] [⟨.insert, false, [some 1]⟩])
        [.toy false [true] [⟨.insert, false, [some 1]⟩]] = some
      { changes := [⟨.update, false, [some 1, some 1]⟩]
        ok := false
        asked := 0
        row := some [1]
        localRow := some [1] } ∧
    rebaseToy .plain [] [[1, 10]] (.set 1 10 30) [.set 1 10 30, .set 1 30 40] = some
      { changes := [⟨.update, false, [some 1, some 30, none, some 30]⟩]
        ok := true
        asked := 1
        row := some [1, 40]
        localRow := some [1, 40] } ∧
    rebaseToy .triple [.replace, .omitted] [[1, 10, 20]]
        (.toy false [true, false, false]
          [⟨.update, false, [some 1, some 10, some 20, none, some 11, some 21]⟩])
        [.toy false [true, false, false]
            [⟨.update, false, [some 1, some 10, none, none, some 12, none]⟩],
          .toy false [true, false, false] [⟨.delete, false, [some 1, some 12, some 20]⟩]] = some
      { changes := []
        ok := true
        asked := 0
        row := none
        localRow := some [1, 12, 21] } := by
  refine ⟨?_, ?_, ?_⟩ <;> decide +kernel

end SqlCipher.Changeset
