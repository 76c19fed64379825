import SqlCipher.Changeset.Changegroup
import SqlCipher.Changeset.Steps

/-!
# A changegroup as a map

A changegroup is a map from the name of a table and a key to a change. After a run of changes was
added, it has under each key what merging the entries for this key in their order gives.
-/

namespace SqlCipher.Changeset

open Proc Function List

variable {N V : Type} [DecidableEq N] [DecidableEq V]

def Changegroup.find (hash : List (Option V) → Nat) (n : N) (K : List (Option V))
    (g : Changegroup N V) : Option (Entry V) :=
  (g.tables.find? (·.tab = n)).bind fun u => u.changes.find (entryKey g.patchset u.pk) hash K

def Compatible (schema : Option (N → Option (SchemaTable V))) (t : Table V) (h : Header N) : Prop :=
  match schema with
  | none => h.pk = t.pk
  | some schema => schema h.tab = some ⟨t.pk, t.dflt⟩

section Group

variable {w : World N V} {patchset : Bool} (T : ExactTables w patchset)
  (schema : Option (N → Option (SchemaTable V))) (hash : List (Option V) → Nat)

structure Grouped (g : Changegroup N V) : Prop where
  schema_eq : g.schema = schema
  kind : g.tables ≠ [] → g.patchset = patchset
  names : (g.tables.map (·.tab)).Nodup
  tables : ∀ u ∈ g.tables, ∃ t, T.table u.tab = some t ∧ u.pk = t.pk ∧
    u.dflt = schema.map (fun _ => t.dflt) ∧ Compatible schema t u.toHeader ∧
    u.changes.Wf (entryKey patchset t.pk) hash

structure Gathered (l : List (Header N × Entry V)) (g : Changegroup N V) : Prop
    extends Grouped T schema hash g where
  find_eq : ∀ n t K, T.table n = some t →
    g.find hash n K = mergeAll t.pk patchset none (t.entriesAt patchset n K l)

variable {T schema hash} {g : Changegroup N V} {t : Table V} {h : Header N}

theorem gathered_new : Gathered T schema hash [] (.new schema) :=
  ⟨⟨rfl, fun h => absurd rfl h, nodup_nil, nofun⟩, fun _ _ _ _ => rfl⟩

theorem setKind_wp (hg : Grouped T schema hash g) :
    wp (setKind patchset) (fun _ g' => Grouped T schema hash g' ∧ g'.patchset = patchset ∧
      ∀ n K, g'.find hash n K = g.find hash n K) (fun _ _ => False) g := by
  refine .read (.ite ⟨fun hnil => .modify ?_, fun hne => ?_⟩)
  · refine ⟨⟨hg.schema_eq, fun _ => rfl, hg.names, hg.tables⟩, rfl, fun n K => ?_⟩
    simp [Changegroup.find, hnil]
  · exact .when ⟨fun hkind => absurd (hg.kind hne) hkind, fun _ => ⟨hg, hg.kind hne, by simp⟩⟩

theorem lookUpTable_wp (hg : Grouped T schema hash g) (hkind : g.patchset = patchset)
    (ht : T.table h.tab = some t) (hcompat : Compatible schema t h) :
    wp (lookUpTable h) (fun u g' => Grouped T schema hash g' ∧ g'.patchset = patchset ∧
      u ∈ g'.tables ∧ u.tab = h.tab ∧ ∀ n K, g'.find hash n K = g.find hash n K)
      (fun _ _ => False) g := by
  refine .read ?_
  cases hfind : g.tables.find? (·.tab = h.tab) with
  | some u =>
    exact ⟨hg, hkind, mem_of_find?_eq_some hfind, by simpa using find?_some hfind, fun _ _ => rfl⟩
  | none =>
    have hmake : makeTable g.schema h = .ok
        { tab := h.tab, pk := t.pk, dflt := schema.map fun _ => t.dflt, changes := .empty } := by
      rw [hg.schema_eq]
      cases schema with
      | none =>
        have hpk : h.pk = t.pk := hcompat
        simp [makeTable, ← hpk]
      | some f =>
        have hf : f h.tab = some ⟨t.pk, t.dflt⟩ := hcompat
        simp [makeTable, hf]
    have hfresh : ∀ u ∈ g.tables, u.tab ≠ h.tab := by simpa using hfind
    refine .read (.bind (wp_ofExcept.mpr ⟨fun u hu => ?_, ?_⟩))
    · obtain rfl := Except.ok.inj (hmake.symm.trans hu)
      refine .write (.pure ⟨⟨hg.schema_eq, fun _ => hkind, ?_, ?_⟩, hkind,
        by simp, rfl, fun n K => ?_⟩)
      · rw [map_append, nodup_append]
        refine ⟨hg.names, by simp, ?_⟩
        simpa using hfresh
      · intro u hu
        rcases mem_append.mp hu with hu | hu
        · exact hg.tables u hu
        · obtain rfl := mem_singleton.mp hu
          refine ⟨t, ht, rfl, rfl, ?_, HashTable.wf_empty⟩
          cases schema with
          | none => exact rfl
          | some f => exact hcompat
      · simp only [Changegroup.find, find?_append]
        cases hn : g.tables.find? (·.tab = n) with
        | some u => rfl
        | none =>
          by_cases heq : h.tab = n
          · simp [heq, HashTable.find, HashTable.empty]
          · simp [heq]
    · intro code hcode
      rw [hmake] at hcode
      cases hcode

omit [DecidableEq N] [DecidableEq V] in
theorem checkCompat_of_compatible (hpk : u.pk = t.pk)
    (hdflt : u.dflt = schema.map fun _ => t.dflt) (hcompat : Compatible schema t h)
    (hcolumns : t.pk = h.pk ++ replicate (t.pk.length - h.pk.length) false) :
    checkCompat u h.pk = true := by
  unfold checkCompat
  split
  · rw [hpk, beq_iff_eq]
    exact hcolumns
  · next hlen =>
    rw [hpk, beq_iff_eq]
    cases schema with
    | none => exact Eq.symm hcompat
    | some f =>
      rw [hdflt, hpk] at hlen
      have hle : t.pk.length - h.pk.length = 0 := Nat.sub_eq_zero_of_le (by simpa using hlen)
      rw [hcolumns, hle]
      simp

theorem findTable_wp (hg : Grouped T schema hash g) (hkind : g.patchset = patchset)
    (ht : T.table h.tab = some t) (hcompat : Compatible schema t h)
    (hcolumns : t.pk = h.pk ++ replicate (t.pk.length - h.pk.length) false) :
    wp (findTable h) (fun u g' => Grouped T schema hash g' ∧ g'.patchset = patchset ∧
      u ∈ g'.tables ∧ u.tab = h.tab ∧ ∀ n K, g'.find hash n K = g.find hash n K)
      (fun _ _ => False) g := by
  refine .seq (lookUpTable_wp hg hkind ht hcompat) fun u g' ⟨hg', hkind', hu, htab, hfind⟩ => ?_
  obtain ⟨t', ht', hpk, hdflt, -⟩ := hg'.tables u hu
  rw [htab] at ht'
  obtain rfl := Option.mem_unique ht ht'
  refine .ite ⟨fun _ => ⟨hg', hkind', hu, htab, hfind⟩, fun hbad => ?_⟩
  exact absurd (checkCompat_of_compatible hpk hdflt hcompat hcolumns) hbad

omit [DecidableEq V] in
theorem Grouped.find?_eq_some (hg : Grouped T schema hash g)
    (hu : u ∈ g.tables) : g.tables.find? (·.tab = u.tab) = some u := by
  cases hfind : g.tables.find? (·.tab = u.tab) with
  | none => simpa using find?_eq_none.mp hfind u hu
  | some u' =>
    have htab : u'.tab = u.tab := by simpa using find?_some hfind
    rw [inj_on_of_nodup_map hg.names (mem_of_find?_eq_some hfind) hu htab]

theorem Grouped.find_eq (hg : Grouped T schema hash g) (hu : u ∈ g.tables)
    (ht : T.table u.tab = some t) (K : List (Option V)) :
    g.find hash u.tab K = u.changes.find (entryKey patchset t.pk) hash K := by
  obtain ⟨t', ht', hpk, -⟩ := hg.tables u hu
  obtain rfl := Option.mem_unique ht ht'
  rw [Changegroup.find, hg.find?_eq_some hu, hg.kind (ne_nil_of_mem hu), ← hpk]
  rfl

theorem Grouped.entryKey_of_find (hg : Grouped T schema hash g) (ht : T.table n = some t)
    (hfind : g.find hash n K = some E) : entryKey patchset t.pk E = K := by
  obtain ⟨u, hu, -⟩ := Option.bind_eq_some_iff.mp hfind
  have hmem := mem_of_find?_eq_some hu
  obtain rfl : u.tab = n := by simpa using find?_some hu
  obtain ⟨t', ht', -, -, -, hwf⟩ := hg.tables u hmem
  obtain rfl := Option.mem_unique ht ht'
  rw [hg.find_eq hmem ht, hwf.find_eq_some_iff] at hfind
  exact hfind.2

variable {c : Header N × Entry V} {u : GroupTable N V}

omit [DecidableEq N] [DecidableEq V] in
theorem extend_eq_full (hpk : u.pk = t.pk) (hdflt : u.dflt = schema.map fun _ => t.dflt)
    (hcompat : Compatible schema t h) (E : Entry V) :
    u.extend patchset h.pk.length E = t.full patchset h.pk.length E := by
  cases schema with
  | none =>
    have heq : h.pk = t.pk := hcompat
    simp [GroupTable.extend, Table.full, hpk, heq]
  | some f => simp [GroupTable.extend, Table.full, hpk, hdflt]

/-- A change is merged with the one under its key, and the others stay. -/
theorem oneChangeToHash_wp (hg : Grouped T schema hash g) (hu : u ∈ g.tables)
    (hut : u.tab = c.1.tab) (ht : T.table c.1.tab = some t) (hcompat : Compatible schema t c.1)
    (hE : E = t.full patchset c.1.pk.length c.2)
    (hkey : ∀ a, changeMerge t.pk patchset (g.find hash c.1.tab (entryKey patchset t.pk E)) E =
      some a → entryKey patchset t.pk a = entryKey patchset t.pk E) :
    wp (oneChangeToHash hash u c.1.pk.length c.2) (fun _ g' => Grouped T schema hash g' ∧
      ∀ n K, g'.find hash n K =
        if n = c.1.tab ∧ K = entryKey patchset t.pk E then
          changeMerge t.pk patchset (g.find hash n K) E
        else g.find hash n K) (fun _ _ => False) g := by
  have hkind : g.patchset = patchset := hg.kind (ne_nil_of_mem hu)
  obtain ⟨t', ht', hpk, hdflt, hheader, hwf⟩ := hg.tables u hu
  rw [hut] at ht'
  obtain rfl := Option.mem_unique ht ht'
  have hfind := hg.find_eq hu (hut ▸ ht)
  rw [hut] at hfind
  rw [hfind] at hkey
  obtain ⟨hwf', hfind'⟩ := hwf.alter (f := fun exist => changeMerge t.pk patchset exist E) hkey
  have hadd : u.add hash patchset c.1.pk.length c.2 =
      { u with
        changes := u.changes.alter (entryKey patchset t.pk) hash (entryKey patchset t.pk E)
          fun exist => changeMerge t.pk patchset exist E } := by
    rw [GroupTable.add, extend_eq_full hpk hdflt hcompat, ← hE, hpk]
  have hmap : ∀ u' ∈ g.tables, (if u'.tab = u.tab then u'.add hash g.patchset c.1.pk.length c.2
      else u') = if u'.tab = u.tab then u.add hash patchset c.1.pk.length c.2 else u' := by
    intro u' hu'
    split
    · next heq => rw [inj_on_of_nodup_map hg.names hu' hu heq, hkind]
    · rfl
  refine .modify ?_
  rw [map_congr_left hmap, hadd]
  generalize hu₁ : ({ u with
    changes := u.changes.alter (entryKey patchset t.pk) hash (entryKey patchset t.pk E)
      fun exist => changeMerge t.pk patchset exist E } : GroupTable N V) = u₁
  have htab : ∀ u' : GroupTable N V, (if u'.tab = u.tab then u₁ else u').tab = u'.tab := by
    intro u'
    split
    · next heq => rw [← hu₁, heq]
    · rfl
  have hmem : u₁ ∈ g.tables.map fun u' => if u'.tab = u.tab then u₁ else u' :=
    mem_map.mpr ⟨u, hu, if_pos rfl⟩
  have hg' : Grouped T schema hash
      { g with tables := g.tables.map fun u' => if u'.tab = u.tab then u₁ else u' } := by
    refine ⟨hg.schema_eq, fun _ => hkind, ?_, fun u' hu' => ?_⟩
    · rw [map_map]
      simpa only [comp_def, htab] using hg.names
    · obtain ⟨u'', hu'', rfl⟩ := mem_map.mp hu'
      split
      · rw [← hu₁]
        exact ⟨t, hut ▸ ht, hpk, hdflt, hheader, hwf'⟩
      · exact hg.tables u'' hu''
  refine ⟨hg', fun n K => ?_⟩
  by_cases hn : n = c.1.tab
  · subst hn
    have htab₁ : u₁.tab = c.1.tab := by rw [← hu₁]; exact hut
    have hfind₁ := hg'.find_eq hmem (htab₁ ▸ ht) K
    rw [htab₁] at hfind₁
    rw [hfind₁, hfind, ← hu₁, hfind']
    simp only [true_and]
    split
    · next heq => rw [heq]
    · rfl
  · rw [if_neg fun h => hn h.1]
    simp only [Changegroup.find, find?_map, comp_def, htab]
    cases hu' : g.tables.find? (·.tab = n) with
    | none => rfl
    | some u' =>
      have hu'n : u'.tab = n := by simpa using find?_some hu'
      rw [Option.map_some, if_neg (by rw [hu'n, hut]; exact hn)]

/-! ## Runs of changes -/

/-- A header with the columns of the table, or with the first of them if there is a schema. -/
def Suits (schema : Option (N → Option (SchemaTable V))) (t : Table V) (h : Header N) : Prop :=
  Compatible schema t h ∧ t.pk = h.pk ++ replicate (t.pk.length - h.pk.length) false

variable {l l' : List (Header N × Entry V)} {db₀ db db' : N → Content V} {k : Key V} {n : N}

/-- What is under a key describes what a run did to its row. -/
theorem Gathered.rel (hcol : T.HasColumns) (hg : Gathered T schema hash l g) (hl : T.Steps db₀ l db)
    (hdb₀ : T.Sound db₀) (ht : T.table n = some t) (hk : ∀ v ∈ k, T.values n v) :
    Rel t.pk patchset (db₀ n (t.norm k)) (db n (t.norm k)) (g.find hash n (k.map some)) := by
  rw [hg.find_eq n t _ ht]
  exact (hl.chain hdb₀ ht hk).rel (fun h => hcol h n t ht)
    ((hdb₀ n t ht).onKey (T.exact n t ht) hk) rfl

theorem Gathered.add (hcol : T.HasColumns) (hg : Gathered T schema hash l g) (hl : T.Steps db₀ l db)
    (hdb₀ : T.Sound db₀) (hc : T.Step c t k db db') (hsuits : Suits schema t c.1) :
    wp (oneChangeIterToHash hash patchset c.1 c.2)
      (fun _ g' => Gathered T schema hash (l ++ [c]) g') (fun _ _ => False) g := by
  refine .seq (setKind_wp hg.toGrouped) fun _ g₁ ⟨hg₁, hkind₁, hfind₁⟩ => ?_
  refine .seq (findTable_wp hg₁ hkind₁ hc.table hsuits.1 hsuits.2) fun u g₂ ⟨hg₂, _, hu, htab,
    hfind₂⟩ => ?_
  have hfind : ∀ n K, g₂.find hash n K = g.find hash n K :=
    fun n K => (hfind₂ n K).trans (hfind₁ n K)
  -- the merged change describes what the run and the new change did, so it has the same key
  have hkey := hc.explains.key
  refine .post (oneChangeToHash_wp hg₂ hu htab hc.table hsuits.1 rfl fun a ha => ?_) ?_
  · rw [hkey] at ha ⊢
    rw [hfind] at ha
    have hrel := hg.rel hcol hl hdb₀ hc.table hc.explains.within
    have honKey := (hdb₀ _ t hc.table).onKey (T.exact _ t hc.table) hc.explains.within
    have hmerged := changeMerge_rel (fun h => hcol h _ t hc.table) honKey hc.explains.before
      hc.explains.after hrel hc.explains.describes
    rw [ha] at hmerged
    exact hmerged.entryKey_eq honKey hc.explains.after
  rintro _ g' ⟨hg', hfind'⟩
  refine ⟨hg', fun n t' K ht' => ?_⟩
  rw [hfind', hfind, hg.find_eq n t' K ht', entriesAt_append, entriesAt_cons, mergeAll, mergeAll,
    foldl_append, entriesAt_nil]
  by_cases heq : n = c.1.tab ∧ K = entryKey patchset t.pk (t.full patchset c.1.pk.length c.2)
  · obtain ⟨rfl, rfl⟩ := heq
    obtain rfl := Option.mem_unique hc.table ht'
    rw [if_pos ⟨rfl, rfl⟩, if_pos ⟨rfl, rfl⟩]
    rfl
  · rw [if_neg heq, if_neg]
    · rfl
    · rintro ⟨rfl, rfl⟩
      obtain rfl := Option.mem_unique hc.table ht'
      exact heq ⟨rfl, rfl⟩

theorem Gathered.addAll (hcol : T.HasColumns) (hl : T.Steps db₀ l db) (hdb₀ : T.Sound db₀)
    (hl' : T.Steps db l' db')
    (hsuits : ∀ c ∈ l', ∀ t, T.table c.1.tab = some t → Suits schema t c.1)
    (hg : Gathered T schema hash l g) :
    wp (forEach (fun c => oneChangeIterToHash hash patchset c.1 c.2) l')
      (fun _ g' => Gathered T schema hash (l ++ l') g') (fun _ _ => False) g := by
  induction hl' generalizing l g with
  | nil db =>
    rw [append_nil]
    exact hg
  | @cons db db₁ db' c l' t k hc _ ih =>
    refine .seq (hg.add hcol hl hdb₀ hc (hsuits c mem_cons_self t hc.table)) ?_
    intro _ g' hg'
    have hrest := ih (hl.append (.cons t k hc (.nil db₁)))
      (fun c hc => hsuits c (mem_cons_of_mem _ hc)) hg'
    rwa [append_assoc] at hrest

/-! ## The output -/

omit [DecidableEq N] [DecidableEq V] in
theorem mem_changes {b : Blob N V} :
    c ∈ b.changes ↔ ∃ k ∈ b.blocks, c.1 = k.toHeader ∧ c.2 ∈ k.entries := by
  obtain ⟨h, E⟩ := c
  simp only [Blob.changes, mem_flatMap, mem_map, Prod.mk.injEq]
  constructor
  · rintro ⟨k, hk, E', hE, rfl, rfl⟩
    exact ⟨k, hk, rfl, hE⟩
  · rintro ⟨k, hk, rfl, hE⟩
    exact ⟨k, hk, E, hE, rfl, rfl⟩

omit [DecidableEq N] [DecidableEq V] in
theorem Grouped.mem_output (hg : Grouped T schema hash g) :
    c ∈ (changegroupOutput g).changes ↔
      ∃ u ∈ g.tables, c.1 = u.toHeader ∧ c.2 ∈ u.changes.entries := by
  simp only [mem_changes, changegroupOutput, mem_map, mem_filter]
  constructor
  · rintro ⟨_, ⟨u, ⟨hu, -⟩, rfl⟩, hc⟩
    exact ⟨u, hu, hc⟩
  · rintro ⟨u, hu, hc⟩
    obtain ⟨t, -, -, -, -, hwf⟩ := hg.tables u hu
    have hcount : u.changes.nEntry ≠ 0 := by
      rw [hwf.count]
      exact Nat.ne_of_gt (length_pos_of_mem hc.2)
    exact ⟨_, ⟨u, ⟨hu, by simpa using hcount⟩, rfl⟩, hc⟩

theorem Grouped.mem_output_iff (hg : Grouped T schema hash g) :
    c ∈ (changegroupOutput g).changes ↔ ∃ t, T.table c.1.tab = some t ∧ c.1.pk = t.pk ∧
      g.find hash c.1.tab (entryKey patchset t.pk c.2) = some c.2 := by
  rw [hg.mem_output]
  constructor
  · rintro ⟨u, hu, hheader, hE⟩
    obtain ⟨t, ht, hpk, -, -, hwf⟩ := hg.tables u hu
    rw [hheader]
    refine ⟨t, ht, hpk, ?_⟩
    rw [hg.find_eq hu ht, hwf.find_eq_some_iff]
    exact ⟨hE, rfl⟩
  · rintro ⟨t, ht, hpk, hfind⟩
    cases hu : g.tables.find? (·.tab = c.1.tab) with
    | none => simp [Changegroup.find, hu] at hfind
    | some u =>
      have hmem := mem_of_find?_eq_some hu
      have htab : u.tab = c.1.tab := by simpa using find?_some hu
      obtain ⟨t', ht', hpk', -, -, hwf⟩ := hg.tables u hmem
      rw [htab] at ht'
      obtain rfl := Option.mem_unique ht ht'
      have hfind' := hg.find_eq hmem (htab ▸ ht) (entryKey patchset t.pk c.2)
      rw [htab, hfind] at hfind'
      refine ⟨u, hmem, ?_, (hwf.find_eq_some_iff.mp hfind'.symm).1⟩
      cases hc : c.1
      rw [hc] at htab hpk
      simp only at htab hpk
      rw [← htab, hpk, ← hpk']

omit [DecidableEq N] [DecidableEq V] in
theorem nodup_changes {b : Blob N V} (hnames : (b.blocks.map (·.tab)).Nodup)
    (hkeys : ∀ k ∈ b.blocks, (k.entries.map (entryKey patchset k.pk)).Nodup) :
    (b.changes.map fun c => (c.1.tab, entryKey patchset c.1.pk c.2)).Nodup := by
  rw [Blob.changes, map_flatMap, nodup_flatMap]
  constructor
  · intro k hk
    rw [map_map]
    change (k.entries.map ((fun K => (k.tab, K)) ∘ entryKey patchset k.pk)).Nodup
    rw [← map_map]
    exact (hkeys k hk).map fun K K' h => (Prod.mk.inj h).2
  · refine (pairwise_map.mp hnames).imp fun {k k'} hne => ?_
    simp only [onFun, disjoint_left, mem_map]
    rintro _ ⟨_, ⟨E, -, rfl⟩, rfl⟩ ⟨_, ⟨E', -, rfl⟩, heq⟩
    exact hne (Prod.mk.inj heq).1.symm

omit [DecidableEq N] [DecidableEq V] in
theorem Grouped.nodup_output (hg : Grouped T schema hash g) :
    ((changegroupOutput g).changes.map
      fun c => (c.1.tab, entryKey patchset c.1.pk c.2)).Nodup := by
  refine nodup_changes ?_ fun k hk => ?_
  · rw [changegroupOutput, map_map]
    exact (filter_sublist.map _).nodup hg.names
  · obtain ⟨u, hu, rfl⟩ := mem_map.mp hk
    obtain ⟨t, -, hpk, -, -, hwf⟩ := hg.tables u (mem_filter.mp hu).1
    simp only [hpk]
    exact hwf.nodup

theorem Gathered.recorded_output (hcol : T.HasColumns) (hg : Gathered T schema hash l g)
    (hl : T.Steps db₀ l db) (hdb₀ : T.Sound db₀) :
    T.Recorded (changegroupOutput g).changes db₀ db := by
  refine ⟨hg.nodup_output, fun c hc => ?_, fun n κ hrest => ?_⟩
  · obtain ⟨t, ht, hpk, hfind⟩ := hg.mem_output_iff.mp hc
    have hne : t.entriesAt patchset c.1.tab (entryKey patchset t.pk c.2) l ≠ [] := by
      intro hnil
      rw [hg.find_eq _ t _ ht, hnil] at hfind
      cases hfind
    obtain ⟨k, hk, hK⟩ := hl.keys ht hne
    rw [hK] at hfind
    have hrel := hg.rel hcol hl hdb₀ ht hk
    rw [hfind] at hrel
    have hsound := hl.sound hdb₀
    exact ⟨t, k, ht, hpk, hK, hk, (hdb₀ _ t ht).onKey (T.exact _ t ht) hk,
      (hsound _ t ht).onKey (T.exact _ t ht) hk, fun r hr => (hsound _ t ht _ r hr).2.2, hrel⟩
  · by_cases hrow : ∃ t k, T.table n = some t ∧ (∀ v ∈ k, T.values n v) ∧ t.norm k = κ
    · obtain ⟨t, k, ht, hk, rfl⟩ := hrow
      have hrel := hg.rel hcol hl hdb₀ ht hk
      cases hfind : g.find hash n (k.map some) with
      | none =>
        rw [hfind] at hrel
        exact Eq.symm hrel
      | some E =>
        rw [hfind] at hrel
        have hkey : entryKey patchset t.pk E = k.map some := Describes.entryKey_eq
          ((hdb₀ _ t ht).onKey (T.exact _ t ht) hk)
          ((hl.sound hdb₀ _ t ht).onKey (T.exact _ t ht) hk) hrel
        refine absurd rfl (hrest (⟨n, t.pk⟩, E) ?_ t k ht hkey rfl)
        exact hg.mem_output_iff.mpr ⟨t, ht, rfl, by rw [hkey]; exact hfind⟩
    · exact hl.other fun t k ht hk heq => hrow ⟨t, k, ht, hk, heq⟩

end Group

end SqlCipher.Changeset
