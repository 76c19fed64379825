import SqlCipher.Changeset.GroupMap

/-!
# Combining changesets

Changesets that can be applied one after the other are added to a changegroup. Applying its output
does the same, with at most one change for each row, and combining is associative up to the order of
changes.

Values are compared exactly, and records shorter than the table extended without loss
(`ExactTables`, `ExactTables.Takes`). A table of key columns only cannot be in a patchset: a DELETE
and an INSERT of a row are merged to an UPDATE that sets nothing, which is refused as corrupt.
-/

namespace SqlCipher.Changeset

open Proc List Option Table ExactTables

variable {N V : Type} [DecidableEq N] [DecidableEq V]

inductive AppliesAll (w : World N V) (flags : Flags) :
    State N V → List (Blob N V) → State N V → Prop
  | nil (s : State N V) : AppliesAll w flags s [] s
  | cons {s s₁ s' : State N V} {b : Blob N V} {bs : List (Blob N V)}
      (hb : Applies w flags b.decode.1 b.decode.2 s s₁) (hbs : AppliesAll w flags s₁ bs s') :
      AppliesAll w flags s (b :: bs) s'

def runAll (w : World N V) (flags : Flags) (bs : List (Blob N V)) (db : N → Content V) :
    Option (N → Content V) :=
  bs.foldlM (fun db b => b.decode.1.runTo w flags b.decode.2 db) db

theorem exists_appliesAll {w : World N V} (hw : w.Plain) (h : runAll w flags bs s.db = some db) :
    ∃ s', AppliesAll w flags s bs s' := by
  induction bs generalizing s with
  | nil => exact ⟨s, .nil s⟩
  | cons b bs ih =>
    obtain ⟨db₁, hb, hrest⟩ := bind_eq_some_iff.mp h
    obtain ⟨s₁, hs₁, rfl⟩ := exists_applies hw hb
    obtain ⟨s', hs'⟩ := ih hrest
    exact ⟨s', .cons hs₁ hs'⟩

section Definitions

variable {w : World N V} {patchset : Bool} (T : ExactTables w patchset)
  (schema : Option (N → Option (SchemaTable V)))

/-- A changeset that a group with this schema can take: its records have all columns of the table,
or its schema is that of the database. -/
structure ExactTables.Takes (b : Blob N V) : Prop where
  kind : b.patchset = patchset
  changes : ∀ c ∈ b.changes, ∃ t, T.Admits t c ∧ Compatible schema t c.1

structure ExactTables.Accepts (b : Blob N V) : Prop where
  kind : b.changes ≠ [] → b.patchset = patchset
  suits : ∀ c ∈ b.changes, ∀ t, T.table c.1.tab = some t → Suits schema t c.1

end Definitions

section Composing

variable {w : World N V} {patchset : Bool} {T : ExactTables w patchset}
  {schema : Option (N → Option (SchemaTable V))} {hash : List (Option V) → Nat} {flags : Flags}
  {b : Blob N V} {bs : List (Blob N V)} {s s' : State N V} {g g' : Changegroup N V}
  {l l' : List (Header N × Entry V)} {db₀ db db' db'' : N → Content V} {n : N} {t : Table V}
  {K : List (Option V)}

omit [DecidableEq N] [DecidableEq V] in
theorem ExactTables.Takes.accepts (hb : T.Takes schema b) : T.Accepts schema b := by
  refine ⟨fun _ => hb.kind, fun c hc t ht => ?_⟩
  obtain ⟨t', hadmits, hcompat⟩ := hb.changes c hc
  obtain rfl := Option.mem_unique ht hadmits.table
  exact ⟨hcompat, eq_append_of_match hadmits.keyColumns hadmits.pk⟩

theorem ExactTables.Takes.steps (hb : T.Takes schema b) (hw : w.Plain) (hs : T.Sound s.db)
    (happlies : Applies w flags b.decode.1 b.decode.2 s s') : T.Steps s.db b.changes s'.db := by
  have hrun := happlies.runTo_eq hw
  have hread : ∀ c ∈ b.changes, c.2.Readable b.patchset c.1.pk := by
    intro c hc
    obtain ⟨t, hadmits, -⟩ := hb.changes c hc
    rw [hb.kind]
    exact hadmits.readable
  rw [runTo_decode hread, hb.kind] at hrun
  exact steps_of_runEntries (fun c hc => (hb.changes c hc).imp fun _ h => h.1) hs hrun

theorem AppliesAll.steps (h : AppliesAll w flags s bs s') (hw : w.Plain) (hs : T.Sound s.db)
    (hbs : ∀ b ∈ bs, T.Takes schema b) : T.Steps s.db (bs.flatMap Blob.changes) s'.db := by
  induction h with
  | nil s => exact .nil s.db
  | cons hb _ ih =>
    have hsteps := (hbs _ mem_cons_self).steps hw hs hb
    rw [flatMap_cons]
    exact hsteps.append (ih (hsteps.sound hs) fun b hb => hbs b (mem_cons_of_mem _ hb))

omit [DecidableEq N] in
theorem ExactTables.Steps.split (h : T.Steps db (l ++ l') db'') :
    ∃ db', T.Steps db l db' ∧ T.Steps db' l' db'' := by
  induction l generalizing db with
  | nil => exact ⟨db, .nil db, h⟩
  | cons c l ih =>
    cases h with
    | cons t k hc hl =>
      obtain ⟨db', hl, hl'⟩ := ih hl
      exact ⟨db', .cons t k hc hl, hl'⟩

theorem Gathered.addBlobs (hcol : T.HasColumns) (hdb₀ : T.Sound db₀) (hl : T.Steps db₀ l db)
    (hbs : T.Steps db (bs.flatMap Blob.changes) db') (haccepts : ∀ b ∈ bs, T.Accepts schema b)
    (hg : Gathered T schema hash l g) :
    wp (changegroupAddAll hash bs)
      (fun _ g' => Gathered T schema hash (l ++ bs.flatMap Blob.changes) g') (fun _ _ => False)
      g := by
  induction bs generalizing l db g with
  | nil =>
    rw [flatMap_nil, append_nil]
    exact hg
  | cons b bs ih =>
    rw [flatMap_cons] at hbs
    obtain ⟨db₁, hb, hbs⟩ := hbs.split
    have hadd : wp (changegroupAdd hash b)
        (fun _ g' => Gathered T schema hash (l ++ b.changes) g') (fun _ _ => False) g := by
      rw [changegroupAdd]
      cases hnil : b.changes with
      | nil =>
        rw [append_nil]
        exact hg
      | cons c cs =>
        have hb' := haccepts b mem_cons_self
        rw [hb'.kind (by simp [hnil]), ← hnil]
        exact Gathered.addAll hcol hl hdb₀ hb hb'.suits hg
    refine .seq hadd fun _ g' hg' => ?_
    have hrest := ih (hl.append hb) hbs (fun b hb => haccepts b (mem_cons_of_mem _ hb)) hg'
    rwa [append_assoc, ← flatMap_cons] at hrest

theorem exists_gathered (hash : List (Option V) → Nat) (hcol : T.HasColumns) (hdb₀ : T.Sound db₀)
    (hbs : T.Steps db₀ (bs.flatMap Blob.changes) db) (haccepts : ∀ b ∈ bs, T.Accepts schema b) :
    ∃ g, changegroupAddAll hash bs (.new schema) = some (.ok (), g) ∧
      Gathered T schema hash (bs.flatMap Blob.changes) g := by
  have hnew : Gathered T schema hash [] (.new schema) := gathered_new
  have hwp := Gathered.addBlobs hcol hdb₀ (.nil db₀) hbs haccepts hnew
  obtain ⟨_, g, hrun, hg⟩ := exists_of_sure hwp
  exact ⟨g, hrun, hg⟩

omit [DecidableEq N] [DecidableEq V] in
theorem Grouped.output_accepts (hg : Grouped T schema hash g) :
    T.Accepts schema (changegroupOutput g) := by
  constructor
  · intro hne
    obtain ⟨c, hc⟩ := exists_mem_of_ne_nil _ hne
    obtain ⟨u, hu, -⟩ := hg.mem_output.mp hc
    exact hg.kind (ne_nil_of_mem hu)
  · intro c hc t ht
    obtain ⟨u, hu, hheader, -⟩ := hg.mem_output.mp hc
    obtain ⟨t', ht', hpk, -, hcompat, -⟩ := hg.tables u hu
    rw [hheader] at ht ⊢
    obtain rfl := Option.mem_unique ht ht'
    exact ⟨hcompat, by simp [hpk]⟩

/-! ## Associativity -/

/-- Groups with the same changes put out the same, up to the order. -/
theorem Grouped.perm_output (hg : Grouped T schema hash g) (hg' : Grouped T schema hash g')
    (h : ∀ n t K, T.table n = some t → g.find hash n K = g'.find hash n K) :
    (changegroupOutput g).changes.Perm (changegroupOutput g').changes := by
  refine (perm_ext_iff_of_nodup hg.nodup_output.of_map hg'.nodup_output.of_map).mpr fun c => ?_
  rw [hg.mem_output_iff, hg'.mem_output_iff]
  refine exists_congr fun t => and_congr_right fun ht => ?_
  rw [h _ t _ ht]

theorem Grouped.entriesAt_output (hg : Grouped T schema hash g) (ht : T.table n = some t) :
    t.entriesAt patchset n K (changegroupOutput g).changes = (g.find hash n K).toList := by
  have hfull : ∀ c ∈ (changegroupOutput g).changes, c.1.tab = n →
      c.1 = ⟨n, t.pk⟩ ∧ t.full patchset c.1.pk.length c.2 = c.2 := by
    intro c hc hn
    obtain ⟨t', ht', hpk, -⟩ := hg.mem_output_iff.mp hc
    rw [hn] at ht'
    obtain rfl := Option.mem_unique ht ht'
    exact ⟨by rw [← hn, ← hpk], by simp [full, hpk]⟩
  have hmem : ∀ E, E ∈ t.entriesAt patchset n K (changegroupOutput g).changes ↔
      g.find hash n K = some E := by
    intro E
    simp only [entriesAt, mem_filter, List.mem_map, decide_eq_true_eq]
    constructor
    · rintro ⟨⟨c, ⟨hc, hn⟩, rfl⟩, rfl⟩
      obtain ⟨hheader, hE⟩ := hfull c hc hn
      obtain ⟨t', ht', -, hfind⟩ := hg.mem_output_iff.mp hc
      rw [hn] at ht' hfind
      obtain rfl := Option.mem_unique ht ht'
      rw [hE]
      exact hfind
    · intro hfind
      have hK := hg.entryKey_of_find ht hfind
      have hout : (⟨n, t.pk⟩, E) ∈ (changegroupOutput g).changes :=
        hg.mem_output_iff.mpr ⟨t, ht, rfl, by rw [hK]; exact hfind⟩
      exact ⟨⟨_, ⟨hout, rfl⟩, (hfull _ hout rfl).2⟩, hK⟩
  have hnodup : (t.entriesAt patchset n K (changegroupOutput g).changes).Nodup := by
    refine List.Nodup.filter _ (List.Nodup.map_on ?_ (hg.nodup_output.of_map.filter _))
    intro c hc c' hc' heq
    simp only [mem_filter, decide_eq_true_eq] at hc hc'
    obtain ⟨hheader, hE⟩ := hfull c hc.1 hc.2
    obtain ⟨hheader', hE'⟩ := hfull c' hc'.1 hc'.2
    exact Prod.ext (hheader.trans hheader'.symm) (hE.symm.trans (heq.trans hE'))
  cases hfind : g.find hash n K with
  | none =>
    refine eq_nil_iff_forall_not_mem.mpr fun E hE => ?_
    rw [hmem, hfind] at hE
    cases hE
  | some E =>
    refine perm_singleton.mp ((perm_ext_iff_of_nodup hnodup (nodup_singleton E)).mpr fun E' => ?_)
    rw [hmem, hfind, some.injEq, mem_singleton]
    exact eq_comm

/-- A group to which an output was added first has the changes that the other group had. -/
theorem Gathered.output_left (hg : Gathered T schema hash l g)
    (hg' : Gathered T schema hash ((changegroupOutput g).changes ++ l') g')
    (ht : T.table n = some t) :
    g'.find hash n K = mergeAll t.pk patchset none (t.entriesAt patchset n K (l ++ l')) := by
  have hnone : mergeEntry t.pk patchset none (g.find hash n K) = g.find hash n K := by
    cases g.find hash n K <;> rfl
  rw [hg'.find_eq n t K ht, entriesAt_append, hg.toGrouped.entriesAt_output ht, mergeAll_append,
    mergeAll_toList, hnone, hg.find_eq n t K ht, entriesAt_append, mergeAll_append]

/-- A group to which an output was added last has merged changes that the other group had. -/
theorem Gathered.output_right (hcol : T.HasColumns) (hg : Gathered T schema hash l' g)
    (hg' : Gathered T schema hash (l ++ (changegroupOutput g).changes) g') (hdb₀ : T.Sound db₀)
    (hl : T.Steps db₀ l db) (hl' : T.Steps db l' db') (hi : ∀ c ∈ l ++ l', c.2.indirect = i)
    (ht : T.table n = some t) :
    g'.find hash n K = mergeAll t.pk patchset none (t.entriesAt patchset n K (l ++ l')) := by
  have hflag : ∀ E ∈ t.entriesAt patchset n K (l ++ l'), E.indirect = i := by
    intro E hE
    simp only [entriesAt, mem_filter, List.mem_map, decide_eq_true_eq] at hE
    obtain ⟨⟨c, ⟨hc, -⟩, rfl⟩, -⟩ := hE
    rw [← hi c hc, full]
    split <;> rfl
  rw [hg'.find_eq n t K ht, entriesAt_append, hg.toGrouped.entriesAt_output ht, mergeAll_append,
    mergeAll_toList, hg.find_eq n t K ht]
  by_cases hnil : t.entriesAt patchset n K (l ++ l') = []
  · rw [hnil]
    rw [entriesAt_append, append_eq_nil_iff] at hnil
    rw [hnil.1, hnil.2]
    rfl
  · obtain ⟨k, hk, rfl⟩ := (hl.append hl').keys ht hnil
    rw [entriesAt_append] at hflag ⊢
    have honKey := (hdb₀ n t ht).onKey (T.exact n t ht) hk
    have hchain := hl.chain hdb₀ ht hk
    have hchain' := hl'.chain (hl.sound hdb₀) ht hk
    have hcol' := fun h => hcol h n t ht
    have hnone : Flagged i (none : Option (Entry V)) := fun _ h => by cases h
    rw [mergeAll_append]
    exact hchain'.mergeAll_assoc (i := i) (b := none) hcol' honKey hchain'.onKey
      (hchain.rel hcol' honKey rfl) rfl
      (mergeAll_flagged hnone fun E hE => hflag E (mem_append_left _ hE)) hnone
      fun E hE => hflag E (mem_append_right _ hE)

theorem exists_concat (hash : List (Option V) → Nat) (hcol : T.HasColumns)
    (hdb₀ : T.Sound db₀) (ha : T.Steps db₀ a.changes db) (hb : T.Steps db b.changes db')
    (ha' : T.Accepts schema a) (hb' : T.Accepts schema b) :
    ∃ g, changesetConcat hash schema a b = some (changegroupOutput g) ∧
      Gathered T schema hash (a.changes ++ b.changes) g := by
  have hsteps : T.Steps db₀ ([a, b].flatMap Blob.changes) db' := by
    simpa using ha.append hb
  have haccepts : ∀ x ∈ [a, b], T.Accepts schema x := by
    simpa using ⟨ha', hb'⟩
  obtain ⟨g, hrun, hg⟩ := exists_gathered hash hcol hdb₀ hsteps haccepts
  refine ⟨g, ?_, by simpa using hg⟩
  rw [changesetConcat, hrun]

theorem changesetConcat_assoc (hcol : T.HasColumns) (hdb₀ : T.Sound db₀)
    (ha : T.Steps db₀ a.changes db₁) (hb : T.Steps db₁ b.changes db₂)
    (hc : T.Steps db₂ c.changes db₃) (ha' : T.Accepts schema a) (hb' : T.Accepts schema b)
    (hc' : T.Accepts schema c) (hi : ∀ x ∈ a.changes ++ b.changes ++ c.changes, x.2.indirect = i) :
    ∃ ab bc l r, changesetConcat hash schema a b = some ab ∧
      changesetConcat hash schema b c = some bc ∧ changesetConcat hash schema ab c = some l ∧
      changesetConcat hash schema a bc = some r ∧ l.changes.Perm r.changes := by
  obtain ⟨gab, hab, hgab⟩ := exists_concat hash hcol hdb₀ ha hb ha' hb'
  obtain ⟨gbc, hbc, hgbc⟩ := exists_concat hash hcol (ha.sound hdb₀) hb hc hb' hc'
  have hsteps := (hgab.recorded_output hcol (ha.append hb) hdb₀).steps
  have hsteps' := (hgbc.recorded_output hcol (hb.append hc) (ha.sound hdb₀)).steps
  obtain ⟨gl, hl, hgl⟩ := exists_concat hash hcol hdb₀ hsteps hc hgab.output_accepts hc'
  obtain ⟨gr, hr, hgr⟩ := exists_concat hash hcol hdb₀ ha hsteps' ha' hgbc.output_accepts
  refine ⟨_, _, _, _, hab, hbc, hl, hr, hgl.perm_output hgr.toGrouped fun n t K ht => ?_⟩
  rw [hgab.output_left hgl ht, hgbc.output_right hcol hgr hdb₀ ha (hb.append hc)
    (by rwa [← append_assoc]) ht, append_assoc]

/-! ## Composition -/

theorem Gathered.applies_output (hcol : T.HasColumns) (hg : Gathered T schema hash l g)
    (hw : w.Plain) (hs : T.Sound s.db) (hl : T.Steps s.db l db) (flags : Flags) :
    ∃ s', Applies w flags (changegroupOutput g).decode.1 (changegroupOutput g).decode.2 s s' ∧
      s'.db = db := by
  obtain ⟨hread, hrun⟩ := (hg.recorded_output hcol hl hs).runEntries hs flags
  refine exists_applies hw ?_
  by_cases hnil : (changegroupOutput g).changes = []
  · rw [runTo_decode (by simp [hnil]), hnil]
    rwa [hnil] at hrun
  · have hkind := hg.output_accepts.kind hnil
    rw [runTo_decode (by rwa [hkind]), hkind]
    exact hrun

theorem Gathered.row_ne (hcol : T.HasColumns) (hg : Gathered T schema hash l g) (hs : T.Sound db₀)
    (hl : T.Steps db₀ l db) (hkind : patchset = false) :
    ∀ c ∈ (changegroupOutput g).changes, ∃ t k, w.schema c.1.tab = some t ∧
      entryKey patchset c.1.pk c.2 = k.map some ∧
      db₀ c.1.tab (t.norm k) ≠ db c.1.tab (t.norm k) := by
  intro c hc
  obtain ⟨t, k, ht, hpk, hexp⟩ := (hg.recorded_output hcol hl hs).explains c hc
  subst hkind
  exact ⟨t, k, T.schema _ t ht, hpk ▸ hexp.key, hexp.describes.ne⟩

end Composing

/-- Changesets that can be applied one after the other are added to a changegroup. Its output can be
applied with the same result and without conflicts, has each key at most once and, for changesets,
only rows that changed. Combining is associative up to the order of changes, if all are direct or
all indirect. -/
theorem changegroup_composes {w : World N V} {patchset : Bool} (hw : w.Plain)
    (T : ExactTables w patchset) (hash : List (Option V) → Nat)
    (schema : Option (N → Option (SchemaTable V))) (flags : Flags) {bs : List (Blob N V)}
    {s s' : State N V} (hcol : T.HasColumns) (hs : T.Sound s.db) (hbs : ∀ b ∈ bs, T.Takes schema b)
    (happlies : AppliesAll w flags s bs s') :
    ∃ g, changegroupAddAll hash bs (.new schema) = some (.ok (), g) ∧
      (∃ s'', Applies w flags (changegroupOutput g).decode.1 (changegroupOutput g).decode.2 s s'' ∧
        s''.db = s'.db) ∧
      ((changegroupOutput g).changes.map
        fun c => (c.1.tab, entryKey patchset c.1.pk c.2)).Nodup ∧
      (patchset = false → ∀ c ∈ (changegroupOutput g).changes, ∃ t k,
        w.schema c.1.tab = some t ∧ entryKey patchset c.1.pk c.2 = k.map some ∧
        s.db c.1.tab (t.norm k) ≠ s'.db c.1.tab (t.norm k)) ∧
      ∀ a b c, bs = [a, b, c] →
        (∃ i, ∀ x ∈ a.changes ++ b.changes ++ c.changes, x.2.indirect = i) →
        ∃ ab bc l r, changesetConcat hash schema a b = some ab ∧
          changesetConcat hash schema b c = some bc ∧
          changesetConcat hash schema ab c = some l ∧
          changesetConcat hash schema a bc = some r ∧ l.changes.Perm r.changes := by
  have hsteps := happlies.steps hw hs hbs
  obtain ⟨g, hrun, hg⟩ := exists_gathered hash hcol hs hsteps fun b hb => (hbs b hb).accepts
  refine ⟨g, hrun, hg.applies_output hcol hw hs hsteps flags, hg.nodup_output,
    hg.row_ne hcol hs hsteps, ?_⟩
  rintro a b c rfl ⟨i, hi⟩
  have hsplit : T.Steps s.db (a.changes ++ (b.changes ++ c.changes)) s'.db := by
    simpa using hsteps
  obtain ⟨db₁, ha, hbc⟩ := hsplit.split
  obtain ⟨db₂, hb, hc⟩ := hbc.split
  exact changesetConcat_assoc hcol hs ha hb hc (hbs a (by simp)).accepts (hbs b (by simp)).accepts
    (hbs c (by simp)).accepts hi

/-! ## Small changesets -/

def Table.plain : Table Nat := { toy with unique := fun _ _ _ => false }

def World.plain (t : Table Nat) : World Unit Nat :=
  { World.toy [] fun _ _ => none with schema := fun _ => some t }

def Blob.toy (patchset : Bool) (pk : List Bool) (entries : List (Entry Nat)) : Blob Unit Nat where
  patchset := patchset
  blocks := [{ tab := (), pk, entries }]

def Blob.story : List (Blob Unit Nat) :=
  [.toy false [true, false] [⟨.update, false, [some 1, some 10, none, some 11]⟩,
      ⟨.insert, false, [some 3, some 30]⟩],
    .toy false [true, false] [⟨.delete, false, [some 3, some 30]⟩],
    .toy false [true, false] [⟨.update, false, [some 1, some 11, none, some 12]⟩]]

theorem World.plain_plain (h : ∀ rows key row, t.unique rows key row = false) :
    (World.plain t).Plain where
  fault _ _ := rfl
  filter _ := rfl
  filterIter _ _ := rfl
  deferredFks _ := rfl
  unique n t ht := by
    obtain rfl := some.inj ht
    exact h

theorem Table.plain_exact : plain.Exact fun _ => True :=
  ⟨by simp [plain, toy], fun _ _ _ _ => id, rfl, fun _ _ => trivial, by decide⟩

theorem Table.plain_sound : plain.Sound (fun _ => True) (State.toy.db ()) := by
  intro k r hr
  simp only [State.toy] at hr
  split at hr
  · next hk =>
    obtain rfl := some.inj hr
    exact ⟨rfl, hk.symm, fun _ _ => trivial⟩
  · split at hr
    · next hk =>
      obtain rfl := some.inj hr
      exact ⟨rfl, hk.symm, fun _ _ => trivial⟩
    · cases hr

def ExactTables.toy : ExactTables (World.plain .plain) false where
  table _ := some .plain
  values _ _ := True
  schema _ _ := id
  exact n t ht := by
    obtain rfl := some.inj ht
    exact plain_exact

theorem ExactTables.toy_takes : ∀ b ∈ Blob.story, toy.Takes none b := by
  have hadmits : ∀ E : Entry Nat, E.Proper false [true, false] →
      toy.Admits .plain (⟨(), [true, false]⟩, E) := fun E hE =>
    ⟨rfl, Nat.le_refl _, Nat.le_succ 1, rfl, hE, fun _ _ => trivial, fun _ _ => rfl⟩
  have hupdate : ∀ x y : Nat, x ≠ y →
      Entry.Proper false [true, false] ⟨.update, false, [some 1, some x] ++ [none, some y]⟩ :=
    fun x y hne => .update _ _ false rfl (.key 1 (.set x y .nil hne)) rfl
  simp only [Blob.story, forall_mem_cons]
  refine ⟨⟨rfl, fun c hc => ?_⟩, ⟨rfl, fun c hc => ?_⟩, ⟨rfl, fun c hc => ?_⟩, by simp⟩ <;>
    simp only [Blob.toy, Blob.changes, flatMap_cons, flatMap_nil, map_cons,
      map_nil, append_nil, mem_cons, not_mem_nil, or_false] at hc
  · rcases hc with rfl | rfl
    · exact ⟨_, hadmits _ (hupdate 10 11 (by decide)), rfl⟩
    · exact ⟨_, hadmits _ (.insert [3, 30] false rfl), rfl⟩
  · subst hc
    exact ⟨_, hadmits _ (.delete [3, 30] false rfl rfl), rfl⟩
  · subst hc
    exact ⟨_, hadmits _ (hupdate 11 12 (by decide)), rfl⟩

theorem changegroup_composes_story : ∃ s' g, AppliesAll (World.plain .plain) Flags.none State.toy
    Blob.story s' ∧ changegroupAddAll (fun _ => 0) Blob.story (.new none) = some (.ok (), g) ∧
    ∃ s'', Applies (World.plain .plain) Flags.none (changegroupOutput g).decode.1
      (changegroupOutput g).decode.2 State.toy s'' ∧ s''.db = s'.db := by
  have hplain : (World.plain .plain).Plain := World.plain_plain fun _ _ _ => rfl
  have hruns : (runAll (World.plain .plain) Flags.none Blob.story State.toy.db).isSome := by
    decide +kernel
  obtain ⟨db, hdb⟩ := isSome_iff_exists.mp hruns
  obtain ⟨s', hs'⟩ := exists_appliesAll hplain hdb
  have hsound : toy.Sound State.toy.db := by
    intro n t ht
    obtain rfl := some.inj ht
    exact plain_sound
  obtain ⟨g, hrun, happ, -⟩ := changegroup_composes hplain toy (fun _ => 0)
    none Flags.none nofun hsound toy_takes hs'
  exact ⟨s', g, hs', hrun, happ⟩

/-- What changesets applied one after the other come to: the results of the calls, two rows, and how
often the handler was asked. -/
def applyAll (t : Table Nat) (bs : List (Blob Unit Nat)) (rows : List (Row Nat)) :
    List Bool × List (Option (Row Nat)) × Nat :=
  let s := { State.toy with
    db := fun _ key => rows.find? fun r => decide (keyFields t.pk r = key) }
  let r := bs.foldl (fun (r : List Bool × State Unit Nat) b =>
    match changesetApply (World.plain t) Flags.none b.decode.1 b.decode.2 r.2 with
    | some (res, s) => (r.1 ++ [res.isOk], s)
    | none => r) ([], s)
  (r.1, [r.2.db () [1], r.2.db () [2]], r.2.asked)

def Table.keysOnly : Table Nat := { plain with pk := [true], dflt := [0] }

/-- The row with the key 1 is deleted, and comes back with another one. -/
def Blob.swap (patchset : Bool) : Blob Unit Nat × Blob Unit Nat :=
  (.toy patchset [true] [⟨.delete, false, [some 1]⟩],
    .toy patchset [true] [⟨.insert, false, [some 1]⟩, ⟨.insert, false, [some 2]⟩])

/-- The row (1, 5) comes, goes, and comes back as an indirect change. -/
def Blob.flicker : Blob Unit Nat × Blob Unit Nat × Blob Unit Nat :=
  (.toy false [true, false] [⟨.insert, false, [some 1, some 5]⟩],
    .toy false [true, false] [⟨.delete, false, [some 1, some 5]⟩],
    .toy false [true, false] [⟨.insert, true, [some 1, some 5]⟩])

def concatToy (schema : Option (Unit → Option (SchemaTable Nat))) (a b : Blob Unit Nat) :
    Option (Blob Unit Nat) :=
  changesetConcat (fun _ => 0) schema a b

/-- In a table of keys only, a DELETE and an INSERT of a row in patchsets become an UPDATE that sets
nothing, and applying fails. A DELETE from before a column was added asks for the column's default,
with a schema; without one it cancels an INSERT that would have set the default. And the mark of
indirect changes depends on the order of combining. -/
theorem not_changegroup_composes :
    applyAll .keysOnly [(Blob.swap true).1, (Blob.swap true).2] [[1]] =
      ([true, true], [some [1], some [2]], 0) ∧
    applyAll .keysOnly (concatToy none (Blob.swap true).1 (Blob.swap true).2).toList [[1]] =
      ([false], [some [1], none], 0) ∧
    applyAll .plain [(Blob.swap false).1, .toy false [true] []] [[1, 5]] =
      ([true, true], [none, none], 0) ∧
    applyAll .plain (concatToy (some fun _ => some ⟨[true, false], [0, 0]⟩) (Blob.swap false).1
      (.toy false [true] [])).toList [[1, 5]] = ([true], [some [1, 5], none], 1) ∧
    applyAll .plain [(Blob.swap false).1, (Blob.swap false).2] [[1, 5]] =
      ([true, true], [some [1, 0], some [2, 0]], 0) ∧
    applyAll .plain (concatToy none (Blob.swap false).1 (Blob.swap false).2).toList [[1, 5]] =
      ([true], [some [1, 5], some [2, 0]], 0) ∧
    applyAll .plain [Blob.flicker.1, Blob.flicker.2.1, Blob.flicker.2.2] [] =
      ([true, true, true], [some [1, 5], none], 0) ∧
    ((concatToy none Blob.flicker.1 Blob.flicker.2.1).bind (concatToy none · Blob.flicker.2.2)) =
      some Blob.flicker.2.2 ∧
    ((concatToy none Blob.flicker.2.1 Blob.flicker.2.2).bind (concatToy none Blob.flicker.1)) =
      some Blob.flicker.1 := by
  refine ⟨?_, ?_, ?_, ?_, ?_, ?_, ?_, ?_, ?_⟩ <;> decide +kernel

end SqlCipher.Changeset
