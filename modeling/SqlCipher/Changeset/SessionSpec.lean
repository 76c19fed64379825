import SqlCipher.Changeset.Session
import SqlCipher.Changeset.Steps

/-!
# What a session knows

For each row of a watched table, a session either has noted nothing and the row is as it was when
the session began, or it has noted what the row was then. This holds before and after each call of
the hook and each edit, whatever the hash function and however often the hash table grew.
-/

namespace SqlCipher.Changeset

open Function List Option

variable {N V : Type} {pk : List Bool} {exprs : List V} {x y : Option (Row V)}
  {o : Option (Entry V)} {row : Row V}

/-- Values are compared exactly, rows are where they belong, and keys have no NULL. -/
structure SourceTable.Good (A : V → Prop) (t : SourceTable V) : Prop where
  exact : t.table.Exact A
  exprs : t.exprs.length = t.table.pk.length
  sound : t.table.Sound A t.rows
  keys : ∀ κ r, t.rows κ = some r → t.table.null ∉ keyFields t.table.pk r

/-- The rows of an action have values of `A` and no NULL in the key, and in a new column the value
of its default expression. -/
def Action.Fits (A : V → Prop) (t : SourceTable V) : Action V → Prop
  | .insert row | .update _ row => (∀ v ∈ row, A v) ∧ t.table.null ∉ keyFields t.table.pk row
  | .delete _ => True
  | .addColumn stored expr => A stored ∧ expr = stored

/-- What an entry says about the row at the beginning; without one it has not changed. -/
def Noted (exprs : List V) (x y : Option (Row V)) : Option (Entry V) → Prop
  | none => x = y
  | some e => if e.op = .insert then x = none else ∃ r, x = some r ∧
      (e.fill exprs).record = r.map some

theorem entryKey_false (pk : List Bool) (e : Entry V) :
    entryKey false pk e = keyFields pk e.record := by
  simp [entryKey]

theorem fill_key (hlen : e.record.length = pk.length) :
    entryKey false (pk ++ replicate m false) (e.fill exprs) = entryKey false pk e := by
  rw [entryKey_false, entryKey_false, Entry.fill, keyFields_append_false hlen]

theorem fill_fill (exprs : List V) (e : Entry V) : (e.fill exprs).fill exprs = e.fill exprs := by
  simp only [Entry.fill, Entry.mk.injEq, true_and, append_right_eq_self, map_eq_nil_iff]
  refine drop_eq_nil_of_le ?_
  simp only [length_append, length_map, length_drop]
  omega

theorem entryKey_noted (hlen : row.length = pk.length) (op : Op) (direct : Bool) :
    entryKey false pk (.noted pk op direct row) = (keyFields pk row).map some := by
  rw [entryKey_false, Entry.noted]
  split
  · rw [keyFields_keyOnly (by simpa using hlen), keyFields_map]
  · rw [keyFields_map]

theorem Noted.map (h : Noted exprs x y o) (hf : ∀ e, (f e).op = e.op ∧
    ((f e).fill exprs).record = (e.fill exprs).record) : Noted exprs x y (o.map f) := by
  cases o with
  | none => exact h
  | some e =>
    change if (f e).op = .insert then _ else _
    rw [(hf e).1, (hf e).2]
    exact h

theorem Noted.of_isSome (h : Noted exprs x y o) (ho : o.isSome) : Noted exprs x y' o := by
  cases o with
  | none => cases ho
  | some e => exact h

section Tables

variable {A : V → Prop} {t : SourceTable V}

structure Touchable (A : V → Prop) (t : SourceTable V) (row : Row V) : Prop where
  length : row.length = t.table.pk.length
  values : ∀ v ∈ row, A v
  key : t.table.null ∉ keyFields t.table.pk row

theorem Touchable.keyValues (h : Touchable A t row) : ∀ v ∈ keyFields t.table.pk row, A v :=
  fun v hv => h.values v (mem_of_mem_keyFields hv)

theorem SourceTable.Good.touchable (ht : t.Good A) (hr : t.rows κ = some r) :
    Touchable A t r ∧ t.place r = κ := by
  obtain ⟨hlen, hplace, hA⟩ := ht.sound κ r hr
  exact ⟨⟨hlen, hA, ht.keys κ r hr⟩, hplace⟩

theorem keyFields_snoc {α : Type} {l : List α} (hlen : l.length = pk.length) (x : α) :
    keyFields (pk ++ [false]) (l ++ [x]) = keyFields pk l :=
  keyFields_append_false (m := 1) hlen [x]

theorem Table.Sound.addColumn {T : Table V} (h : T.Sound A rows) {x : V} (hx : A x) :
    Table.Sound { T with pk := T.pk ++ [false], dflt := T.dflt ++ [x] } A
      fun κ => (rows κ).map (· ++ [x]) := by
  intro κ r hr
  obtain ⟨r₀, hr₀, rfl⟩ := map_eq_some_iff.mp hr
  obtain ⟨hlen, hnorm, hA⟩ := h κ r₀ hr₀
  refine ⟨by simp [hlen], ?_, forall_mem_append.mpr ⟨hA, forall_mem_singleton.mpr hx⟩⟩
  rw [keyFields_snoc hlen]
  exact hnorm

theorem SourceTable.Good.addColumn (ht : t.Good A) {x : V} (hx : A x) : SourceTable.Good A {
    table := { t.table with pk := t.table.pk ++ [false], dflt := t.table.dflt ++ [x] }
    exprs := t.exprs ++ [x]
    rows := fun κ => (t.rows κ).map (· ++ [x]) } := by
  have hexact := ht.exact
  have hdflt := forall_mem_append.mpr ⟨hexact.dflt, forall_mem_singleton.mpr hx⟩
  refine ⟨⟨hexact.same, hexact.norm, by simp [hexact.width], hdflt, by simp [hexact.key]⟩,
    by simp [ht.exprs], ht.sound.addColumn hx, fun κ r hr => ?_⟩
  obtain ⟨r₀, hr₀, rfl⟩ := map_eq_some_iff.mp hr
  change t.table.null ∉ keyFields (t.table.pk ++ [false]) (r₀ ++ [x])
  rw [keyFields_snoc (ht.sound κ r₀ hr₀).1]
  exact ht.keys κ r₀ hr₀

end Tables

section Invariant

variable [DecidableEq V] (hash : List (Option V) → Nat) (A : V → Prop)

structure Watches (rows₀ : Content V) (t : SourceTable V) (u : SessionTable N V) : Prop where
  start : t.table.Sound A rows₀
  columns : ∀ pk, u.pk = some pk →
    t.table.pk = pk ++ replicate (t.table.pk.length - pk.length) false
  fresh : u.pk = none → u.changes = .empty
  wf : u.changes.Wf (entryKey false (u.pk.getD [])) hash
  records : ∀ e ∈ u.changes.entries, e.record.length = (u.pk.getD []).length ∧
    ∃ k : Key V, (∀ v ∈ k, A v) ∧ entryKey false (u.pk.getD []) e = k.map some
  noted : ∀ k : Key V, (∀ v ∈ k, A v) → Noted t.exprs (rows₀ (t.table.norm k))
    (t.rows (t.table.norm k))
    (u.changes.find (entryKey false (u.pk.getD [])) hash (k.map some))

structure Notes (rows₀ : Content V) (t : SourceTable V) (pk : List Bool)
    (c : HashTable (Entry V)) : Prop where
  wf : c.Wf (entryKey false pk) hash
  records : ∀ e ∈ c.entries, e.record.length = pk.length ∧
    ∃ k : Key V, (∀ v ∈ k, A v) ∧ entryKey false pk e = k.map some
  noted : ∀ k : Key V, (∀ v ∈ k, A v) → Noted t.exprs (rows₀ (t.table.norm k))
    (t.rows (t.table.norm k)) (c.find (entryKey false pk) hash (k.map some))

variable {hash A} {rows₀ : Content V} {t : SourceTable V} {u : SessionTable N V}

theorem Watches.notes (h : Watches hash A rows₀ t u) (hpk : u.pk = some pk) :
    Notes hash A rows₀ t pk u.changes := by
  obtain ⟨-, -, -, hwf, hrecords, hnoted⟩ := h
  simp only [hpk, getD_some] at hwf hrecords hnoted
  exact ⟨hwf, hrecords, hnoted⟩

/-- The columns that the session has seen are the first ones. -/
theorem Watches.seen (h : Watches hash A rows₀ t u) (hpk : u.pk = some pk) : pk <+: t.table.pk :=
  ⟨_, (h.columns pk hpk).symm⟩

def SessionTable.Has (hash : List (Option V) → Nat) (t : SourceTable V) (k : Key V)
    (u : SessionTable N V) : Prop :=
  u.pk = some t.table.pk ∧
    (u.changes.find (entryKey false t.table.pk) hash (k.map some)).isSome

/-! ## The hook -/

section

variable (h : Watches hash A rows₀ t u)
include h

theorem Watches.init :
    Watches hash A rows₀ t { u with pk := some (u.pk.getD t.table.pk) } := by
  cases hpk : u.pk with
  | some pk =>
    have heq : { u with pk := some pk } = u := by rw [← hpk]
    simpa [heq] using h
  | none =>
    have hempty := h.fresh hpk
    refine ⟨h.start, fun pk hsome => ?_, nofun, ?_, ?_, fun k hk => ?_⟩
    · obtain rfl : t.table.pk = pk := by simpa using hsome
      simp
    · rw [hempty]
      exact HashTable.wf_empty
    · simp [hempty, HashTable.entries, HashTable.empty]
    · have hnoted := h.noted k hk
      rw [hempty] at hnoted
      simp only [hempty]
      exact hnoted

theorem Watches.catchUp (hexprs : t.exprs.length = t.table.pk.length) (hpk : u.pk = some pk) :
    ∃ u', u.catchUp t = .ok u' ∧ u'.tab = u.tab ∧ u'.pk = some t.table.pk ∧
      Watches hash A rows₀ t u' := by
  have hcol := h.columns pk hpk
  have hle := (h.seen hpk).length_le
  obtain ⟨hwf, hrecords, hnoted⟩ := h.notes hpk
  unfold SessionTable.catchUp SessionTable.reinit
  simp only [hpk, getD_some]
  rw [if_pos hcol]
  split
  · have hkey : ∀ e ∈ u.changes.entries,
        entryKey false t.table.pk (e.fill t.exprs) = entryKey false pk e := by
      intro e he
      rw [hcol]
      exact fill_key (hrecords e he).1
    obtain ⟨hwf', hfind⟩ := hwf.map hkey
    have hentries : (u.changes.map (Entry.fill t.exprs)).entries =
        u.changes.entries.map (Entry.fill t.exprs) := map_flatten.symm
    refine ⟨_, rfl, rfl, rfl, h.start, fun pk' h' => ?_, nofun, hwf', ?_, fun k hk => ?_⟩
    · obtain rfl : t.table.pk = pk' := some.inj h'
      simp
    · intro e' he'
      simp only [SessionTable.updateChanges, hentries] at he'
      obtain ⟨e, he, rfl⟩ := mem_map.mp he'
      obtain ⟨hlen, k, hk, hek⟩ := hrecords e he
      refine ⟨?_, k, hk, (hkey e he).trans hek⟩
      change (e.fill t.exprs).record.length = t.table.pk.length
      simp only [Entry.fill, length_append, length_map, length_drop, hlen]
      omega
    · simp only [SessionTable.updateChanges, getD_some]
      rw [hfind]
      exact (hnoted k hk).map fun e => ⟨rfl, by rw [fill_fill]⟩
  · next hlt =>
    obtain rfl := (h.seen hpk).eq_of_length_le (Nat.le_of_not_lt hlt)
    rw [if_pos rfl]
    exact ⟨u, rfl, rfl, hpk, h⟩

theorem Watches.setChanges (hpk : u.pk = some t.table.pk)
    (hc : Notes hash A rows₀ t t.table.pk c) : Watches hash A rows₀ t { u with changes := c } := by
  obtain ⟨hwf, hrecords, hnoted⟩ := hc
  refine ⟨h.start, h.columns, fun hnone => ?_, ?_, ?_, ?_⟩
  · rw [hpk] at hnone
    cases hnone
  all_goals simpa only [hpk, getD_some]

/-- What the session has noted is kept in the same words. -/
theorem Watches.map (hpk : u.pk = some t.table.pk)
    (hf : ∀ e, (f e).op = e.op ∧ (f e).record = e.record) :
    Watches hash A rows₀ t { u with changes := u.changes.map f } ∧
      ∀ k, u.Has hash t k → { u with changes := u.changes.map f }.Has hash t k := by
  obtain ⟨hwf, hrecords, hnoted⟩ := h.notes hpk
  have hkey : ∀ e, entryKey false t.table.pk (f e) = entryKey false t.table.pk e := by
    intro e
    rw [entryKey_false, entryKey_false, (hf e).2]
  obtain ⟨hwf', hfind⟩ := hwf.map fun e _ => hkey e
  have hentries : (u.changes.map f).entries = u.changes.entries.map f := map_flatten.symm
  refine ⟨h.setChanges hpk ⟨hwf', ?_, fun k hk => ?_⟩, fun k hk => ⟨hpk, ?_⟩⟩
  · rw [hentries]
    intro e' he'
    obtain ⟨e, he, rfl⟩ := mem_map.mp he'
    rw [hkey, (hf e).2]
    exact hrecords e he
  · rw [hfind]
    exact (hnoted k hk).map fun e => ⟨(hf e).1, by rw [Entry.fill, Entry.fill, (hf e).2]⟩
  · rw [hfind, isSome_map]
    exact hk.2

/-- A row that is new to the session is noted: what it is now is what it was at the beginning. -/
theorem Watches.insert (hpk : u.pk = some t.table.pk)
    (ht : t.Good A) (hpos : 0 < u.changes.buckets.length) (hrow : Touchable A t row)
    (hfree : u.changes.find (entryKey false t.table.pk) hash
      ((keyFields t.table.pk row).map some) = none)
    (hold : op ≠ .insert → t.rows (t.place row) = some row)
    (hnew : op = .insert → t.rows (t.place row) = none)
    (hu : { u with
      changes := u.changes.insert hash ((keyFields t.table.pk row).map some)
        (.noted t.table.pk op direct row) } = u') :
    Watches hash A rows₀ t u' ∧
      ∀ k, k = keyFields t.table.pk row ∨ u.Has hash t k → u'.Has hash t k := by
  subst hu
  obtain ⟨hwf, hrecords, hnoted⟩ := h.notes hpk
  have hkey := entryKey_noted hrow.length op direct
  have hfree' := hwf.find_eq_none_iff.mp hfree
  rw [← hkey] at hfree'
  obtain ⟨hwf', hperm⟩ := hwf.insert hpos hfree'
  have hfind := hwf.find_insert hpos hfree'
  rw [hkey] at hwf' hperm hfind
  refine ⟨h.setChanges hpk ⟨hwf', fun e he => ?_, fun k hk => ?_⟩, fun k hk => ⟨hpk, ?_⟩⟩
  · rcases mem_cons.mp (hperm.mem_iff.mp he) with rfl | he
    · refine ⟨?_, keyFields t.table.pk row, hrow.keyValues, hkey⟩
      unfold Entry.noted
      split <;> simp [keyOnly, hrow.length]
    · exact hrecords e he
  · rw [hfind]
    split
    · next heq =>
      obtain rfl := eq_of_map_some heq
      have hnoted' := hnoted _ hk
      rw [hfree] at hnoted'
      have hsame : rows₀ (t.place row) = t.rows (t.place row) := hnoted'
      change if op = .insert then rows₀ (t.place row) = none else _
      split
      · next hop => exact hsame.trans (hnew hop)
      · next hop =>
        refine ⟨row, hsame.trans (hold hop), ?_⟩
        have hdrop : t.exprs.drop row.length = [] :=
          drop_eq_nil_of_le (ht.exprs.trans hrow.length.symm).le
        simp [Entry.fill, Entry.noted, hop, hdrop]
    · exact hnoted k hk
  · rw [hfind]
    split
    · rfl
    · next hne => exact (hk.resolve_left fun heq => hne (by rw [heq])).2

theorem Watches.note (hpk : u.pk = some t.table.pk) (ht : t.Good A)
    (hrow : Touchable A t row) (hold : op ≠ .insert → t.rows (t.place row) = some row)
    (hnew : op = .insert → t.rows (t.place row) = none ∨ u.Has hash t (keyFields t.table.pk row))
    (hu : u.note hash t direct op row = u') :
    Watches hash A rows₀ t u' ∧ u'.tab = u.tab ∧
      ∀ k, k = keyFields t.table.pk row ∨ u.Has hash t k → u'.Has hash t k := by
  obtain ⟨hwf, hrecords, hnoted⟩ := h.notes hpk
  obtain ⟨hgrow, hperm, hpos⟩ := hwf.grow
  have hfind K := hgrow.find_congr hwf (k := K) fun a _ => hperm.mem_iff
  have hgrown : Watches hash A rows₀ t
      { u with changes := u.changes.grow (entryKey false t.table.pk) hash } := by
    refine h.setChanges hpk ⟨hgrow, fun e he => hrecords e (hperm.mem_iff.mp he), fun k hk => ?_⟩
    rw [hfind]
    exact hnoted k hk
  have hhas (k : Key V) (hk : u.Has hash t k) :
      { u with changes := u.changes.grow (entryKey false t.table.pk) hash }.Has hash t k :=
    ⟨hpk, by rw [hfind]; exact hk.2⟩
  subst hu
  unfold SessionTable.note
  simp only [if_neg hrow.key, keyFields_map, hfind]
  cases hf : u.changes.find (entryKey false t.table.pk) hash
      ((keyFields t.table.pk row).map some) with
  | none =>
    have hnone : op = .insert → t.rows (t.place row) = none := fun hop =>
      (hnew hop).resolve_right (by simp [SessionTable.Has, hf])
    obtain ⟨hins, hfind'⟩ := hgrown.insert hpk ht hpos hrow ((hfind _).trans hf) hold hnone rfl
    exact ⟨hins, rfl, fun k hk => hfind' k (hk.imp_right (hhas k))⟩
  | some e =>
    have hsome (k : Key V) (hk : k = keyFields t.table.pk row ∨ u.Has hash t k) :=
      hhas k (hk.elim (fun heq => ⟨hpk, by rw [heq, hf]; rfl⟩) id)
    simp only
    split
    · rw [hgrow.adjust_eq_map]
      refine (hgrown.map hpk fun e' => ?_).imp_right fun hmap =>
        ⟨rfl, fun k hk => hmap k (hsome k hk)⟩
      split <;> exact ⟨rfl, rfl⟩
    · exact ⟨hgrown, rfl, hsome⟩

theorem Watches.preupdateOneChange (ht : t.Good A) (op : Op)
    (direct : Bool) (hrow : Touchable A t row)
    (hold : op ≠ .insert → t.rows (t.place row) = some row)
    (hnew : op = .insert → t.rows (t.place row) = none ∨ u.Has hash t (keyFields t.table.pk row)) :
    ∃ u', u.preupdateOneChange hash t direct (op, row) = .ok u' ∧ u'.tab = u.tab ∧
      Watches hash A rows₀ t u' ∧ u'.Has hash t (keyFields t.table.pk row) ∧
      ∀ k, u.Has hash t k → u'.Has hash t k := by
  have hinit := h.init
  obtain ⟨u₁, hcatch, htab, hpk, hwatch⟩ := hinit.catchUp ht.exprs rfl
  have hkey : true ∈ u.pk.getD t.table.pk := by
    have hmem := ht.exact.key
    rw [hinit.columns _ rfl] at hmem
    simpa using hmem
  -- a table that was seen with all its columns is as it was
  have hsame : ∀ k, u.Has hash t k → u₁.Has hash t k := by
    rintro k ⟨hu, hfind⟩
    have heq : u₁ = u := by
      have hid : { u with pk := some (u.pk.getD t.table.pk) } = u := by
        rw [hu, getD_some, ← hu]
      rw [hid, SessionTable.catchUp, hu] at hcatch
      simp only [getD_some, Nat.lt_irrefl, if_false, if_true] at hcatch
      exact (Except.ok.inj hcatch).symm
    rw [heq]
    exact ⟨hu, hfind⟩
  obtain ⟨hnote, htab', hhas⟩ := hwatch.note hpk ht hrow hold
    (fun hop => (hnew hop).imp_right (hsame _)) rfl
  refine ⟨u₁.note hash t direct op row, ?_, htab'.trans htab, hnote, hhas _ (.inl rfl),
    fun k hk => hhas k (.inr (hsame k hk))⟩
  unfold SessionTable.preupdateOneChange
  simp only [getD_some, hkey, not_true_eq_false, if_false, hcatch]
  rfl

/-! ## Edits -/

theorem Watches.setRow (ht : t.Good A) (hk : ∀ v ∈ k, A v)
    (hhas : u.Has hash t k) (hκ : t.table.norm k = κ) (x : Option (Row V)) :
    Watches hash A rows₀ { t with rows := update t.rows κ x } u := by
  refine { h with noted := fun k' hk' => ?_ }
  have hnoted := h.noted k' hk'
  by_cases heq : t.table.norm k' = κ
  · obtain rfl := ht.exact.norm k k' hk hk' (hκ.trans heq.symm)
    refine hnoted.of_isSome ?_
    rw [hhas.1]
    exact hhas.2
  · simpa only [update_of_ne heq] using hnoted

theorem Watches.addColumn (ht : t.Good A) {x : V} (hx : A x)
    {t' : SourceTable V} (hstep : t.step (.addColumn x x) = some t') :
    Watches hash A (fun κ => (rows₀ κ).map (· ++ [x])) t' u := by
  obtain rfl := some.inj hstep
  have hrecord : ∀ e ∈ u.changes.entries, e.record.length ≤ t.exprs.length := by
    intro e he
    rw [(h.records e he).1, ht.exprs]
    cases hpk : u.pk with
    | none => simp
    | some pk => exact (h.seen hpk).length_le
  refine ⟨h.start.addColumn hx, fun pk hpk => ?_, h.fresh, h.wf, h.records, fun k hk => ?_⟩
  · have hcol := h.columns pk hpk
    have hle := (h.seen hpk).length_le
    change t.table.pk ++ [false] =
      pk ++ replicate ((t.table.pk ++ [false]).length - pk.length) false
    have hlen : (t.table.pk ++ [false]).length - pk.length = t.table.pk.length - pk.length + 1 := by
      rw [length_append, length_singleton]
      omega
    rw [hlen, replicate_succ', ← append_assoc, ← hcol]
  · have hnoted := h.noted k hk
    simp only at hnoted ⊢
    cases hf : u.changes.find (entryKey false (u.pk.getD [])) hash (k.map some) with
    | none =>
      rw [hf] at hnoted
      exact congrArg (Option.map (· ++ [x])) hnoted
    | some e =>
      rw [hf] at hnoted
      have he := hrecord e (h.wf.find_eq_some_iff.mp hf).1
      simp only [Noted] at hnoted ⊢
      split
      · next hop =>
        rw [if_pos hop] at hnoted
        rw [hnoted]
        rfl
      · next hop =>
        rw [if_neg hop] at hnoted
        obtain ⟨r, hr, hfill⟩ := hnoted
        refine ⟨r ++ [x], by rw [hr]; rfl, ?_⟩
        simp only [Entry.fill] at hfill ⊢
        rw [drop_append_of_le_length he, map_append, ← append_assoc, hfill]
        simp

end

theorem SourceTable.Good.update (ht : t.Good A) {o : Option (Row V)}
    (ho : ∀ row, o = some row → Touchable A t row ∧ t.place row = κ) :
    SourceTable.Good A { t with rows := update t.rows κ o } := by
  refine ⟨ht.exact, ht.exprs, fun κ' r hr => ?_, fun κ' r hr => ?_⟩
  all_goals
    by_cases heq : κ' = κ
    · subst heq
      simp only [update_self] at hr
      obtain ⟨hrow, hplace⟩ := ho r hr
      first | exact ⟨hrow.length, hplace, hrow.values⟩ | exact hrow.key
    · simp only [update_of_ne heq] at hr
      first | exact ht.sound κ' r hr | exact ht.keys κ' r hr

/-- The rows at the beginning, with the columns that were added since. -/
def Action.widen : Action V → Content V → Content V
  | .addColumn x _, rows => fun κ => (rows κ).map (· ++ [x])
  | _, rows => rows

/-- The hook is called and the row changes: the session knows what it has to. -/
theorem Watches.edit (h : Watches hash A rows₀ t u) (ht : t.Good A) (direct : Bool)
    (hfits : a.Fits A t) (hstep : t.step a = some t') :
    t'.Good A ∧ ∃ u', (t.touches a).foldlM (SessionTable.preupdateOneChange hash t direct) u =
      .ok u' ∧ u'.tab = u.tab ∧ Watches hash A (a.widen rows₀) t' u' := by
  cases a with
  | insert row =>
    obtain ⟨⟨hlen, hnone⟩, hsome⟩ := ite_none_right_eq_some.mp hstep
    obtain rfl := some.inj hsome
    have hrow : Touchable A t row := ⟨hlen, hfits.1, hfits.2⟩
    obtain ⟨u', hrun, htab, hwatch, hhas, -⟩ := h.preupdateOneChange ht .insert direct hrow
      (fun hop => absurd rfl hop) fun _ => .inl hnone
    refine ⟨ht.update fun r hr => ?_, u', by simp [SourceTable.touches, hrun], htab,
      hwatch.setRow ht hrow.keyValues hhas rfl _⟩
    rw [← some.inj hr]
    exact ⟨hrow, rfl⟩
  | delete key =>
    obtain ⟨row, hold, rfl⟩ := map_eq_some_iff.mp hstep
    obtain ⟨hrow, hplace⟩ := ht.touchable hold
    obtain ⟨u', hrun, htab, hwatch, hhas, -⟩ := h.preupdateOneChange ht .delete direct hrow
      (fun _ => by rw [hplace]; exact hold) nofun
    exact ⟨ht.update nofun, u', by simp [SourceTable.touches, hold, hrun], htab,
      hwatch.setRow ht hrow.keyValues hhas hplace none⟩
  | update key row =>
    obtain ⟨⟨hlen, hsome, hfree⟩, hres⟩ := ite_none_right_eq_some.mp hstep
    obtain rfl := some.inj hres
    obtain ⟨old, hold⟩ := isSome_iff_exists.mp hsome
    obtain ⟨hrow, hplace⟩ := ht.touchable hold
    have hrow' : Touchable A t row := ⟨hlen, hfits.1, hfits.2⟩
    obtain ⟨u₁, hrun₁, htab₁, hwatch₁, hhas₁, -⟩ := h.preupdateOneChange ht .update direct
      hrow (fun _ => by rw [hplace]; exact hold) nofun
    have hnew : t.rows (t.place row) = none ∨ u₁.Has hash t (keyFields t.table.pk row) := by
      refine hfree.symm.imp_right fun heq => ?_
      rw [← hplace] at heq
      rw [ht.exact.norm _ _ hrow'.keyValues hrow.keyValues heq]
      exact hhas₁
    obtain ⟨u', hrun, htab, hwatch, hhas, hmono⟩ := hwatch₁.preupdateOneChange ht .insert
      direct hrow' (fun hop => absurd rfl hop) fun _ => hnew
    have hgood := ht.update (κ := t.table.norm key) (o := none) nofun
    have hwatch' := hwatch.setRow ht hrow.keyValues (hmono _ hhas₁) hplace none
    refine ⟨hgood.update fun r hr => ?_, u', ?_, htab.trans htab₁,
      hwatch'.setRow hgood hrow'.keyValues hhas rfl _⟩
    · rw [← some.inj hr]
      exact ⟨{ hrow' with }, rfl⟩
    · simp only [SourceTable.touches, hold, foldlM_cons, hrun₁, foldlM_nil]
      exact (congrArg (· >>= pure) hrun).trans rfl
  | addColumn x expr =>
    obtain ⟨hx, rfl⟩ := hfits
    refine ⟨?_, u, rfl, rfl, h.addColumn ht hx hstep⟩
    obtain rfl := some.inj hstep
    exact ht.addColumn hx

end Invariant

end SqlCipher.Changeset
