import SqlCipher.Changeset.Extend

/-!
# Runs of changes

A changeset that is applied without conflicts is a run of changes, each of which explains how one
row became another. Seen from one row, such a run is a chain of entries for its key.
-/

namespace SqlCipher.Changeset

open PointUpdate Function List

variable {N V : Type}

structure ExactTables (w : World N V) (patchset : Bool) where
  table : N → Option (Table V)
  values : N → V → Prop
  schema : ∀ n t, table n = some t → w.schema n = some t
  exact : ∀ n t, table n = some t → t.Exact (values n)

section Definitions

variable {w : World N V} {patchset : Bool} (T : ExactTables w patchset)

def ExactTables.Sound (db : N → Content V) : Prop :=
  ∀ n t, T.table n = some t → t.Sound (T.values n) (db n)

def ExactTables.HasColumns : Prop :=
  patchset = true → ∀ n t, T.table n = some t → false ∈ t.pk

/-- A change to the table `t` in a changeset or patchset. Only a DELETE of a changeset may not be
shorter than the table. -/
structure ExactTables.Admits (t : Table V) (c : Header N × Entry V) : Prop where
  table : T.table c.1.tab = some t
  columns : c.1.pk.length ≤ t.pk.length
  keyColumns : minColumns t.pk ≤ c.1.pk.length
  pk : t.pk.take c.1.pk.length = c.1.pk
  proper : c.2.Proper patchset c.1.pk
  values : ∀ v, some v ∈ c.2.record → T.values c.1.tab v
  whole : c.2.op = .delete → patchset = false → c.1.pk = t.pk

variable [DecidableEq V]

/-- The change explains what happened to the row with the key `k`, and nothing else happened. -/
structure ExactTables.Step (c : Header N × Entry V) (t : Table V) (k : Key V)
    (db db' : N → Content V) : Prop where
  table : T.table c.1.tab = some t
  explains : Explains t.pk patchset (T.values c.1.tab) k (db c.1.tab (t.norm k))
    (db' c.1.tab (t.norm k)) (t.full patchset c.1.pk.length c.2)
  rest : ∀ n κ, (n = c.1.tab → κ ≠ t.norm k) → db' n κ = db n κ

inductive ExactTables.Steps :
    (N → Content V) → List (Header N × Entry V) → (N → Content V) → Prop
  | nil (db : N → Content V) : Steps db [] db
  | cons {db db₁ db' : N → Content V} {c : Header N × Entry V} {l : List (Header N × Entry V)}
      (t : Table V) (k : Key V) (hc : T.Step c t k db db₁) (hl : Steps db₁ l db') :
      Steps db (c :: l) db'

/-- A list with one change for each row that is not as it was, with all its columns. -/
structure ExactTables.Recorded (l : List (Header N × Entry V)) (db db' : N → Content V) : Prop where
  nodup : (l.map fun c => (c.1.tab, entryKey patchset c.1.pk c.2)).Nodup
  explains : ∀ c ∈ l, ∃ t k, T.table c.1.tab = some t ∧ c.1.pk = t.pk ∧
    Explains t.pk patchset (T.values c.1.tab) k (db c.1.tab (t.norm k))
      (db' c.1.tab (t.norm k)) c.2
  rest : ∀ n κ, (∀ c ∈ l, ∀ t k, T.table c.1.tab = some t →
    entryKey patchset t.pk c.2 = k.map some → n = c.1.tab → κ ≠ t.norm k) → db' n κ = db n κ

variable [DecidableEq N]

/-- The entries for the key `K` of the table `n`, with all columns of the table. -/
def Table.entriesAt (t : Table V) (patchset : Bool) (n : N) (K : List (Option V))
    (l : List (Header N × Entry V)) : List (Entry V) :=
  ((l.filter fun c => c.1.tab = n).map fun c => t.full patchset c.1.pk.length c.2).filter
    fun E => entryKey patchset t.pk E = K

def runEntry (w : World N V) (flags : Flags) (patchset : Bool) (c : Header N × Entry V)
    (db : N → Content V) : Option (N → Content V) :=
  Group.run w flags patchset { c.1 with changes := [c.2.change patchset c.1.pk] } db

def runEntries (w : World N V) (flags : Flags) (patchset : Bool) (l : List (Header N × Entry V))
    (db : N → Content V) : Option (N → Content V) :=
  l.foldlM (fun db c => runEntry w flags patchset c db) db

end Definitions

section Entries

variable [DecidableEq V] [DecidableEq N] {t : Table V} {patchset : Bool} {n : N}
  {K : List (Option V)} {c : Header N × Entry V} {l l' : List (Header N × Entry V)}

@[simp] theorem entriesAt_nil : t.entriesAt patchset n K [] = [] := rfl

theorem entriesAt_cons : t.entriesAt patchset n K (c :: l) =
    if c.1.tab = n ∧ entryKey patchset t.pk (t.full patchset c.1.pk.length c.2) = K then
      t.full patchset c.1.pk.length c.2 :: t.entriesAt patchset n K l
    else t.entriesAt patchset n K l := by
  by_cases hn : c.1.tab = n
  · by_cases hK : entryKey patchset t.pk (t.full patchset c.1.pk.length c.2) = K <;>
      simp [Table.entriesAt, hn, hK]
  · simp [Table.entriesAt, hn]

theorem entriesAt_append : t.entriesAt patchset n K (l ++ l') =
    t.entriesAt patchset n K l ++ t.entriesAt patchset n K l' := by
  simp [Table.entriesAt]

end Entries

section Runs

variable [DecidableEq V] {w : World N V} {patchset : Bool} {T : ExactTables w patchset}
  {c : Header N × Entry V} {l l' : List (Header N × Entry V)} {t : Table V} {k : Key V}
  {db db' db'' : N → Content V} {n : N}

theorem ExactTables.Step.row_eq (h : T.Step c t k db db') (ht' : T.table n = some t')
    (hk' : ∀ v ∈ k', T.values n v) (hne : c.1.tab = n → k ≠ k') :
    db' n (t'.norm k') = db n (t'.norm k') := by
  refine h.rest n _ ?_
  rintro rfl heq
  obtain rfl := Option.mem_unique h.table ht'
  exact hne rfl ((T.exact _ t ht').norm _ _ hk' h.explains.within heq).symm

theorem ExactTables.Step.sound (h : T.Step c t k db db') (hdb : T.Sound db) : T.Sound db' := by
  intro n t' ht' κ r hr
  by_cases heq : n = c.1.tab ∧ κ = t.norm k
  · obtain ⟨rfl, rfl⟩ := heq
    obtain rfl := Option.mem_unique h.table ht'
    obtain ⟨hlen, hkey⟩ := h.explains.after r hr
    exact ⟨hlen, by rw [hkey], h.explains.values r hr⟩
  · rw [h.rest n κ fun hn hκ => heq ⟨hn, hκ⟩] at hr
    exact hdb n t' ht' κ r hr

theorem ExactTables.Steps.sound (h : T.Steps db l db') (hdb : T.Sound db) : T.Sound db' := by
  induction h with
  | nil => exact hdb
  | cons t k hc _ ih => exact ih (hc.sound hdb)

theorem ExactTables.Steps.append (h : T.Steps db l db') (h' : T.Steps db' l' db'') :
    T.Steps db (l ++ l') db'' := by
  induction h with
  | nil => exact h'
  | cons t k hc _ ih => exact .cons t k hc (ih h')

theorem ExactTables.Steps.other (h : T.Steps db l db')
    (hκ : ∀ t k, T.table n = some t → (∀ v ∈ k, T.values n v) → t.norm k ≠ κ) :
    db' n κ = db n κ := by
  induction h with
  | nil => rfl
  | cons t k hc _ ih =>
    rw [ih]
    refine hc.rest n κ ?_
    rintro rfl heq
    exact hκ t k hc.table hc.explains.within heq.symm

theorem ExactTables.Recorded.pk_eq (h : T.Recorded l db db') (hc : c ∈ l)
    (ht : T.table c.1.tab = some t) : c.1.pk = t.pk := by
  obtain ⟨t', k, ht', hpk, -⟩ := h.explains c hc
  rw [hpk, Option.mem_unique ht ht']

variable [DecidableEq N]

/-- Seen from one row, a run is a chain. -/
theorem ExactTables.Steps.chain (h : T.Steps db l db') (hdb : T.Sound db) (ht : T.table n = some t)
    (hk : ∀ v ∈ k, T.values n v) :
    Chain t.pk patchset k (db n (t.norm k)) (t.entriesAt patchset n (k.map some) l)
      (db' n (t.norm k)) := by
  induction h with
  | nil db => exact .nil ((hdb n t ht).onKey (T.exact n t ht) hk)
  | @cons db db₁ db' c l t₁ k₁ hc _ ih =>
    have hrest := ih (hc.sound hdb)
    rw [entriesAt_cons]
    by_cases heq : c.1.tab = n ∧ k₁ = k
    · obtain ⟨rfl, rfl⟩ := heq
      obtain rfl := Option.mem_unique hc.table ht
      rw [if_pos ⟨rfl, hc.explains.key⟩]
      exact .cons hc.explains.before hc.explains.describes hrest
    · have hskip : ¬(c.1.tab = n ∧
          entryKey patchset t.pk (t.full patchset c.1.pk.length c.2) = k.map some) := by
        rintro ⟨rfl, hkey⟩
        obtain rfl := Option.mem_unique hc.table ht
        exact heq ⟨rfl, eq_of_map_some (hc.explains.key.symm.trans hkey)⟩
      rw [if_neg hskip, ← hc.row_eq ht hk fun hn hk => heq ⟨hn, hk⟩]
      exact hrest

theorem ExactTables.Steps.keys (h : T.Steps db l db') (ht : T.table n = some t)
    (hK : t.entriesAt patchset n K l ≠ []) :
    ∃ k : Key V, (∀ v ∈ k, T.values n v) ∧ K = k.map some := by
  induction h with
  | nil => exact absurd rfl hK
  | @cons db db₁ db' c l t₁ k₁ hc _ ih =>
    rw [entriesAt_cons] at hK
    split at hK
    · next heq =>
      obtain ⟨rfl, rfl⟩ := heq
      obtain rfl := Option.mem_unique hc.table ht
      exact ⟨k₁, hc.explains.within, hc.explains.key⟩
    · exact ih hK

/-- Changes to different rows can be made in any order. -/
theorem ExactTables.Recorded.steps (h : T.Recorded l db db') : T.Steps db l db' := by
  obtain ⟨hnodup, hmem, hrest⟩ := h
  induction l generalizing db with
  | nil =>
    obtain rfl : db' = db := funext fun n => funext fun κ => hrest n κ nofun
    exact .nil _
  | cons c l ih =>
    obtain ⟨t, k, ht, hpkc, hexplains⟩ := hmem c mem_cons_self
    rw [map_cons, nodup_cons] at hnodup
    let db₁ : N → Content V := update db c.1.tab
      (update (db c.1.tab) (t.norm k) (db' c.1.tab (t.norm k)))
    have hself : db₁ c.1.tab (t.norm k) = db' c.1.tab (t.norm k) := by simp [db₁]
    have hother : ∀ n κ, (n = c.1.tab → κ ≠ t.norm k) → db₁ n κ = db n κ := by
      intro n κ hne
      by_cases hn : n = c.1.tab
      · subst hn
        simp [db₁, update_of_ne (hne rfl)]
      · simp [db₁, update_of_ne hn]
    have hstep : T.Step c t k db db₁ := by
      refine ⟨ht, ?_, hother⟩
      rw [hself, Table.full, if_neg (by simp [hpkc])]
      exact hexplains
    refine .cons t k hstep (ih hnodup.2 (fun c' hc' => ?_) fun n κ hne => ?_)
    · obtain ⟨t', k', ht', hpk', hexplains'⟩ := hmem c' (mem_cons_of_mem c hc')
      refine ⟨t', k', ht', hpk', ?_⟩
      rw [hstep.row_eq ht' hexplains'.within]
      · exact hexplains'
      · rintro htab rfl
        refine hnodup.1 (mem_map.mpr ⟨c', hc', ?_⟩)
        rw [htab, hpk', hexplains'.key, hpkc, hexplains.key]
    · by_cases hloc : n = c.1.tab ∧ κ = t.norm k
      · obtain ⟨rfl, rfl⟩ := hloc
        exact hself.symm
      · rw [hother n κ fun hn hκ => hloc ⟨hn, hκ⟩]
        refine hrest n κ fun c' hc' t' k' ht' hkey hn => ?_
        rcases mem_cons.mp hc' with rfl | hc'
        · obtain rfl := Option.mem_unique ht ht'
          rw [← eq_of_map_some (hexplains.key.symm.trans hkey)]
          exact fun hκ => hloc ⟨hn, hκ⟩
        · exact hne c' hc' t' k' ht' hkey hn

end Runs

section Applying

variable {w : World N V} {flags : Flags} {patchset : Bool}
  {T : ExactTables w patchset} {c : Header N × Entry V} {l l' : List (Header N × Entry V)}
  {t : Table V} {k : Key V} {db db' : N → Content V}

theorem ExactTables.Admits.match (h : T.Admits t c) (flags : Flags) :
    matchTable w flags patchset { c.1 with changes := [] } =
      some { c.1 with world := w, flags, patchset, table := t } :=
  matchTable_eq_some.mpr ⟨t, T.schema _ t h.table, h.columns, h.keyColumns, h.pk, rfl⟩

theorem ExactTables.match_of_pk (ht : T.table c.1.tab = some t) (hpk : c.1.pk = t.pk)
    (flags : Flags) : matchTable w flags patchset { c.1 with changes := [] } =
      some { c.1 with world := w, flags, patchset, table := t } := by
  have hmin : minColumns t.pk ≤ t.pk.length := by
    have hsub : (t.pk.reverse.dropWhile (! ·)).Sublist t.pk.reverse := dropWhile_sublist _
    simpa [minColumns] using hsub.length_le
  exact matchTable_eq_some.mpr ⟨t, T.schema _ t ht, by simp [hpk], by simp [hpk, hmin],
    by simp [hpk], rfl⟩

theorem ExactTables.Admits.readable (h : T.Admits t c) : c.2.Readable patchset c.1.pk := by
  refine h.proper.readable ?_
  rintro hnil
  have hkey := (T.exact _ t h.table).key
  rw [eq_append_of_match h.keyColumns h.pk, hnil] at hkey
  simp at hkey

variable [DecidableEq V] [DecidableEq N]

theorem runEntry_of_match (hm : matchTable w flags patchset { c.1 with changes := [] } = some e)
    (db : N → Content V) :
    runEntry w flags patchset c db = onPoint c.1.tab (e.step (c.2.change patchset c.1.pk)) db := by
  have hmatch : matchTable w flags patchset
      { c.1 with changes := [c.2.change patchset c.1.pk] } = some e := hm
  have hone : e.run [c.2.change patchset c.1.pk] = e.step (c.2.change patchset c.1.pk) := by
    funext rows
    simp [Env.run]
  rw [runEntry, Group.run, hmatch]
  simp only [hone]

theorem step_eq_some {e : Env N V} (h : onPoint n (e.step ch) db = some db') :
    ∃ κ y, e.key ch = some κ ∧ e.rowStep ch (db n κ) = some y ∧
      db' = update db n (update (db n) κ y) := by
  obtain ⟨rows, hrows, rfl⟩ := Option.map_eq_some_iff.mp h
  obtain ⟨κ, hκ, hstep⟩ := Option.bind_eq_some_iff.mp hrows
  obtain ⟨y, hy, rfl⟩ := Option.map_eq_some_iff.mp hstep
  exact ⟨κ, y, hκ, hy, rfl⟩

/-- A change that was applied explains what it did. -/
theorem ExactTables.Admits.step (h : T.Admits t c) (hdb : T.Sound db)
    (hrun : runEntry w flags patchset c db = some db') : ∃ k, T.Step c t k db db' := by
  rw [runEntry_of_match (h.match flags)] at hrun
  obtain ⟨κ, y, hκ, hy, rfl⟩ := step_eq_some hrun
  obtain ⟨k, rfl, hexplains⟩ := Entry.Proper.explains_full
    (e := { c.1 with world := w, flags, patchset, table := t }) (T.exact _ t h.table)
    (hdb _ t h.table) h.columns h.keyColumns h.pk h.proper h.values h.whole hκ hy
  refine ⟨k, h.table, ?_, fun n κ hne => ?_⟩
  · simpa using hexplains
  · by_cases hn : n = c.1.tab
    · subst hn
      rw [update_self, update_of_ne (hne rfl)]
    · rw [update_of_ne hn]

theorem steps_of_runEntries (hl : ∀ c ∈ l, ∃ t, T.Admits t c) (hdb : T.Sound db)
    (hrun : runEntries w flags patchset l db = some db') : T.Steps db l db' := by
  induction l generalizing db with
  | nil =>
    obtain rfl : db = db' := Option.some.inj hrun
    exact .nil db
  | cons c l ih =>
    obtain ⟨db₁, hc, hrest⟩ := Option.bind_eq_some_iff.mp hrun
    obtain ⟨t, ht⟩ := hl c mem_cons_self
    obtain ⟨k, hstep⟩ := ht.step hdb hc
    exact .cons t k hstep (ih (fun c hc => hl c (mem_cons_of_mem _ hc)) (hstep.sound hdb) hrest)

/-- A change with all columns of the table can be applied if it explains what is to happen. -/
theorem ExactTables.Step.runEntry (h : T.Step c t k db db') (hpk : c.1.pk = t.pk) (hdb : T.Sound db)
    (flags : Flags) : c.2.Readable patchset c.1.pk ∧
      runEntry w flags patchset c db = some db' := by
  have hm := ExactTables.match_of_pk h.table hpk flags
  have hfull : t.full patchset c.1.pk.length c.2 = c.2 := by simp [Table.full, hpk]
  have hdescribes := h.explains.describes
  have hbefore := h.explains.before
  have hafter := h.explains.after
  rw [hfull] at hdescribes
  rw [← hpk] at hdescribes hbefore hafter
  obtain ⟨hread, hkey, hstep⟩ := Describes.effect
    (e := { c.1 with world := w, flags, patchset, table := t }) (T.exact _ t h.table) hpk hbefore
    hafter (fun r hr => (hdb _ t h.table _ r hr).2.2) hdescribes
  refine ⟨hread, ?_⟩
  rw [runEntry_of_match hm]
  have hrows := step_of_key hkey (db c.1.tab)
  rw [hstep] at hrows
  rw [onPoint_eq_some hrows]
  congr 1
  funext n κ
  by_cases hn : n = c.1.tab
  · subst hn
    rw [update_self]
    by_cases hκ : κ = t.norm k
    · rw [hκ, update_self]
    · rw [update_of_ne hκ, h.rest _ κ fun _ => hκ]
  · rw [update_of_ne hn, h.rest n κ fun h => absurd h hn]

theorem ExactTables.Steps.runEntries (h : T.Steps db l db')
    (hpk : ∀ c ∈ l, ∀ t, T.table c.1.tab = some t → c.1.pk = t.pk) (hdb : T.Sound db)
    (flags : Flags) : (∀ c ∈ l, c.2.Readable patchset c.1.pk) ∧
      runEntries w flags patchset l db = some db' := by
  induction h with
  | nil db => exact ⟨nofun, rfl⟩
  | @cons db db₁ db' c l t k hc _ ih =>
    obtain ⟨hread, hrun⟩ := hc.runEntry (hpk c mem_cons_self t hc.table) hdb flags
    obtain ⟨hreads, hruns⟩ := ih (fun c hc => hpk c (mem_cons_of_mem _ hc)) (hc.sound hdb)
    refine ⟨forall_mem_cons.mpr ⟨hread, hreads⟩, ?_⟩
    rw [Changeset.runEntries, foldlM_cons, hrun]
    exact hruns

theorem ExactTables.Recorded.runEntries (h : T.Recorded l db db') (hdb : T.Sound db)
    (flags : Flags) : (∀ c ∈ l, c.2.Readable patchset c.1.pk) ∧
      runEntries w flags patchset l db = some db' :=
  h.steps.runEntries (fun _ hc _ ht => h.pk_eq hc ht) hdb flags

theorem group_run_eq (k : Block N V) (db : N → Content V) :
    (k.group patchset).run w flags patchset db =
      runEntries w flags patchset (k.entries.map (k.toHeader, ·)) db := by
  have hmatch : matchTable w flags patchset (k.group patchset) =
      matchTable w flags patchset { k.toHeader with changes := [] } := rfl
  rw [Group.run, hmatch, runEntries, foldlM_map]
  cases hm : matchTable w flags patchset { k.toHeader with changes := [] } with
  | none =>
    have hskip : ∀ (E : Entry V) (db : N → Content V),
        runEntry w flags patchset (k.toHeader, E) db = some db := by
      intro E db
      have hmatch' : matchTable w flags patchset
          { k.toHeader with changes := [E.change patchset k.pk] } = none := hm
      rw [runEntry, Group.run, hmatch']
    simp only [hskip]
    induction k.entries with
    | nil => rfl
    | cons E es ih => simpa using ih
  | some e =>
    have hentry : ∀ (E : Entry V) (db : N → Content V),
        runEntry w flags patchset (k.toHeader, E) db =
          onPoint k.tab (e.step (E.change patchset k.pk)) db :=
      fun E db => runEntry_of_match (c := (k.toHeader, E)) hm db
    simp only [hentry]
    rw [foldlM_onPoint k.tab (fun E => e.step (E.change patchset k.pk)) k.entries db]
    change onPoint k.tab (e.run (k.entries.map (·.change patchset k.pk))) db = _
    congr 1
    funext rows
    rw [Env.run, foldlM_map]

theorem runTo_decode {b : Blob N V} (h : ∀ c ∈ b.changes, c.2.Readable b.patchset c.1.pk)
    (db : N → Content V) : b.decode.1.runTo w flags b.decode.2 db =
      runEntries w flags b.patchset b.changes db := by
  rw [Blob.decode_of_readable h, Stream.runTo, Stream.run, Blob.changes, runEntries, foldlM_map]
  simp only [group_run_eq]
  have hend : ∀ o : Option (N → Content V),
      (o.bind fun db => if (none : Option ErrorCode).isSome then none else some db) = o := by simp
  rw [hend]
  induction b.blocks generalizing db with
  | nil => rfl
  | cons k ks ih =>
    rw [foldlM_cons, flatMap_cons, foldlM_append, runEntries]
    simp only [ih]

end Applying

end SqlCipher.Changeset
