import SqlCipher.Changeset.Fit
import SqlCipher.Changeset.Merge

/-!
# Entries and what applying them does

An entry that describes how a row changes can be applied to the row, with that effect. And an entry
in the format of changesets that can be applied to a row describes what it does to it, if its
record has all columns of the table. For the second part values have to be compared exactly
(`Table.Exact`): where a collation or an affinity makes different values equal, a record says less
about the row than it seems to.
-/

namespace SqlCipher.Changeset

open List Option Entry Table

variable {N V α : Type} {pk : List Bool} {r r' : Row V} {t : Table V} {l : List α}

/-! ## Exact comparison -/

/-- Among the values of `A`, values that the database takes for equal are the same. -/
structure Table.Exact (t : Table V) (A : V → Prop) : Prop where
  same : ∀ i v x, A v → A x → (t.same i v x = true ↔ v = x)
  norm : ∀ k k' : Key V, (∀ v ∈ k, A v) → (∀ v ∈ k', A v) → t.norm k = t.norm k' → k = k'
  width : t.dflt.length = t.pk.length
  dflt : ∀ v ∈ t.dflt, A v
  key : true ∈ t.pk

def Table.Sound (t : Table V) (A : V → Prop) (rows : Content V) : Prop :=
  ∀ k r, rows k = some r →
    r.length = t.pk.length ∧ t.norm (keyFields t.pk r) = k ∧ ∀ v ∈ r, A v

inductive Holds : List (Option V) → Row V → Prop
  | nil (row : Row V) : Holds [] row
  | undef (v : V) {fields : List (Option V)} {row : Row V} (h : Holds fields row) :
      Holds (none :: fields) (v :: row)
  | value (v : V) {fields : List (Option V)} {row : Row V} (h : Holds fields row) :
      Holds (some v :: fields) (v :: row)

theorem Table.Exact.holds_iff (ht : t.Exact A)
    (hlen : fields.length ≤ row.length) (hfields : ∀ v, some v ∈ fields → A v)
    (hrow : ∀ v ∈ row, A v) : t.holds fields row = true ↔ Holds fields row := by
  unfold holds
  generalize 0 = n
  induction fields generalizing row n with
  | nil => simpa using .nil row
  | cons f fields ih =>
    cases row with
    | nil => simp at hlen
    | cons v row =>
      have hrec := ih (by simpa using hlen) (fun x hx => hfields x (mem_cons_of_mem f hx))
        (fun x hx => hrow x (mem_cons_of_mem v hx)) (n + 1)
      simp only [zip_cons_cons, zipIdx_cons, all_cons, Bool.and_eq_true, hrec]
      cases f with
      | none =>
        refine ⟨fun h => .undef v h.2, fun h => ?_⟩
        cases h with
        | undef _ h => exact ⟨rfl, h⟩
      | some x =>
        simp only [ht.same n v x (hrow v mem_cons_self) (hfields x mem_cons_self)]
        constructor
        · rintro ⟨rfl, h⟩
          exact .value v h
        · intro h
          cases h with
          | value _ h => exact ⟨rfl, h⟩

/-! ## The format of changesets -/

/-- The records of an UPDATE in a changeset: the key, and old and new values of changed columns. -/
inductive UpdateRecord : List Bool → List (Option V) → List (Option V) → Prop
  | nil : UpdateRecord [] [] []
  | key (x : V) {pk : List Bool} {old new : List (Option V)} (h : UpdateRecord pk old new) :
      UpdateRecord (true :: pk) (some x :: old) (none :: new)
  | keep {pk : List Bool} {old new : List (Option V)} (h : UpdateRecord pk old new) :
      UpdateRecord (false :: pk) (none :: old) (none :: new)
  | set (x y : V) {pk : List Bool} {old new : List (Option V)} (h : UpdateRecord pk old new)
      (hne : x ≠ y) : UpdateRecord (false :: pk) (some x :: old) (some y :: new)

inductive Entry.Proper (patchset : Bool) (pk : List Bool) : Entry V → Prop
  | insert (r : Row V) (i : Bool) (hlen : r.length = pk.length) :
      Proper patchset pk ⟨.insert, i, r.map some⟩
  | delete (r : Row V) (i : Bool) (hkind : patchset = false) (hlen : r.length = pk.length) :
      Proper patchset pk ⟨.delete, i, r.map some⟩
  | deleteKey (k : Key V) (i : Bool) (hkind : patchset = true) (hlen : k.length = pk.count true) :
      Proper patchset pk ⟨.delete, i, k.map some⟩
  | update (old new : List (Option V)) (i : Bool) (hkind : patchset = false)
      (h : UpdateRecord pk old new) (hset : new.all (·.isNone) = false) :
      Proper patchset pk ⟨.update, i, old ++ new⟩
  | patch (fields : List (Option V)) (i : Bool) (hkind : patchset = true)
      (hlen : fields.length = pk.length) (hkey : ∀ f ∈ keyFields pk fields, f ≠ none)
      (hset : (nonKey pk fields).all (·.isNone) = false) : Proper patchset pk ⟨.update, i, fields⟩

variable {old new : List (Option V)} {patchset : Bool}

namespace UpdateRecord

theorem length_eq (h : UpdateRecord pk old new) :
    old.length = pk.length ∧ new.length = pk.length := by
  induction h <;> simp_all

theorem oldRecord_eq (h : UpdateRecord pk old new) (i : Bool) :
    oldRecord pk ⟨.update, i, old ++ new⟩ = old := by
  rw [oldRecord, take_left' h.length_eq.1, drop_left' h.length_eq.1]
  induction h with
  | nil => rfl
  | key x _ ih => simpa using ih
  | keep _ ih => simpa using ih
  | set x y _ hne ih => simpa using ih

theorem change_eq (h : UpdateRecord pk old new) (hkind : patchset = false) :
    change patchset pk ⟨.update, i, old ++ new⟩ = ⟨.update, old, new⟩ := by
  simp [change, hkind, h.oldRecord_eq, drop_left' h.length_eq.1]

end UpdateRecord

theorem change_patch (hkind : patchset = true) (fields : List (Option V)) :
    change patchset pk ⟨.update, i, fields⟩ = ⟨.update, keyOnly pk fields, nonKey pk fields⟩ := by
  simp [change, hkind]

theorem sets_of_nonKey (hset : (nonKey pk fields).all (·.isNone) = false) :
    fields.all (·.isNone) = false := by
  rw [Bool.eq_false_iff]
  intro hall
  rw [nonKey_all_isNone pk hall] at hset
  cases hset

theorem Entry.Proper.readable {E : Entry V} (hE : E.Proper patchset pk) (hpk : pk ≠ []) :
    E.Readable patchset pk := by
  cases hE with
  | insert r i hlen =>
    have hr : r ≠ [] := by
      rintro rfl
      exact hpk (length_eq_zero_iff.mp hlen.symm)
    obtain ⟨x, r, rfl⟩ := exists_cons_of_ne_nil hr
    simp [Entry.Readable, Entry.isCorrupt, Entry.isEmpty, Entry.newRecord]
  | delete r i hkind hlen => simp [Entry.Readable, Entry.isCorrupt, Entry.isEmpty]
  | deleteKey k i hkind hlen => simp [Entry.Readable, Entry.isCorrupt, Entry.isEmpty]
  | update old new i hkind h hset =>
    simp [Entry.Readable, Entry.isCorrupt, Entry.isEmpty, Entry.newRecord, hkind,
      drop_left' h.length_eq.1, hset]
  | patch fields i hkind hlen hkey hset =>
    have hcorrupt : (keyFields pk fields).any (·.isNone) = false := by
      simpa [List.any_eq_false] using hkey
    simp [Entry.Readable, Entry.isCorrupt, Entry.isEmpty, Entry.newRecord, hkind, hcorrupt,
      sets_of_nonKey hset]

/-! ## From the description to the effect -/

@[simp] theorem defined_map_some (l : List V) : defined (l.map some) = some l := by
  induction l with
  | nil => rfl
  | cons x l ih =>
    simp only [defined, map_cons, mapM_cons, id] at *
    rw [ih]
    rfl

/-- What an entry needs to know of a row to be applied to it. -/
theorem holds_nonKey_row (r : Row V) (hr : r.length = pk.length) :
    Holds (nonKey pk (r.map some)) r := by
  induction r, pk, hr using sameLength with
  | nil => exact .nil []
  | cons x r b pk hr ih =>
    cases b with
    | true => exact .undef x ih
    | false => exact .value x ih

section Diffs

variable [DecidableEq V]

theorem holds_nonKey_diffOld (h : Kin pk r r') : Holds (nonKey pk (diffOld pk r r')) r := by
  induction h with
  | nil => exact .nil _
  | key x _ ih => exact .undef x ih
  | other x y _ ih =>
    by_cases hxy : x = y
    · simpa [hxy] using .undef y ih
    · simpa [hxy] using .value x ih

theorem assign_diffNew (h : Kin pk r r') : assign pk (diffNew pk r r') r = r' := by
  induction h with
  | nil => rfl
  | key x _ ih => simpa [assign] using ih
  | other x y _ ih =>
    by_cases hxy : x = y
    · simpa [assign, hxy] using ih
    · simpa [assign, hxy] using ih

theorem keyFields_diffOld (h : Kin pk r r') :
    keyFields pk (diffOld pk r r') = (keyFields pk r).map some := by
  induction h with
  | nil => rfl
  | key x _ ih => simpa using ih
  | other x y _ ih => simpa using ih

theorem nonKey_diffNew_sets (h : Kin pk r r') (hne : r ≠ r') :
    (nonKey pk (diffNew pk r r')).all (·.isNone) = false := by
  induction h with
  | nil => exact absurd rfl hne
  | key x _ ih => simpa using ih (by simpa using hne)
  | other x y _ ih =>
    by_cases hxy : x = y
    · simpa [hxy] using ih (by simpa [hxy] using hne)
    · simp [hxy]

theorem Kin.updateRecord (h : Kin pk r r') :
    UpdateRecord pk (diffOld pk r r') (diffNew pk r r') := by
  induction h with
  | nil => exact .nil
  | key x _ ih => exact .key x ih
  | other x y _ ih =>
    by_cases hxy : x = y
    · simpa [hxy] using .keep ih
    · simpa [hxy] using .set x y ih hxy

end Diffs

/-- What follows the columns of the table is not part of the key. -/
theorem keyFields_append (hlen : l.length = pk.length) (tail : List α) :
    keyFields pk (l ++ tail) = keyFields pk l := by
  induction l, pk, hlen using sameLength with
  | nil => rfl
  | cons x l b pk hlen ih => cases b <;> simpa using ih

section Patches

variable {fields : List (Option V)}

theorem Patch.assign_eq (h : Patch pk r r' fields) : assign pk (nonKey pk fields) r = r' := by
  induction h with
  | nil => rfl
  | key x _ ih => simpa [assign] using ih
  | set x y _ ih => simpa [assign] using ih
  | keep x _ ih => simpa [assign] using ih

theorem keyFields_keyOnly (hlen : fields.length = pk.length) :
    keyFields pk (keyOnly pk fields) = keyFields pk fields := by
  induction fields, pk, hlen using sameLength with
  | nil => rfl
  | cons f fields b pk hlen ih => cases b <;> simpa [keyOnly] using ih

theorem keyFields_spread (key : Key V) (hlen : key.length = pk.count true) :
    keyFields pk (spread pk (key.map some)) = key.map some := by
  induction pk generalizing key with
  | nil =>
    rw [length_eq_zero_iff.mp hlen]
    rfl
  | cons b pk ih =>
    cases b with
    | false => simpa [spread] using ih key (by simpa using hlen)
    | true =>
      obtain ⟨x, key, rfl⟩ := exists_cons_of_length_eq_add_one (by simpa using hlen)
      simpa [spread] using ih key (by simpa using hlen)

theorem nonKey_nonKey (pk : List Bool) (fields : List (Option V)) :
    nonKey pk (nonKey pk fields) = nonKey pk fields := by
  induction pk generalizing fields with
  | nil => rfl
  | cons b pk ih =>
    cases fields with
    | nil => rfl
    | cons f fields => cases b <;> simp [ih]

theorem length_keyFields (hlen : l.length = pk.length) :
    (keyFields pk l).length = pk.count true := by
  induction l, pk, hlen using sameLength with
  | nil => rfl
  | cons x l b pk hlen ih => cases b <;> simpa using ih

end Patches

def Within (A : V → Prop) (x : Option (Row V)) : Prop := ∀ r, x = some r → ∀ v ∈ r, A v

section Effects

variable {e : Env N V} {A : V → Prop} {k : Key V} {x y : Option (Row V)}

theorem mem_of_mem_nonKey (h : f ∈ nonKey pk fields) (hf : f ≠ none) : f ∈ fields := by
  induction pk generalizing fields with
  | nil => cases h
  | cons b pk ih =>
    cases fields with
    | nil => cases h
    | cons f' fields =>
      rcases mem_cons.mp h with h | h
      · cases b with
        | true => exact absurd h hf
        | false => exact h ▸ mem_cons_self
      · exact mem_cons_of_mem f' (ih h)

theorem length_nonKey_le (pk : List Bool) (fields : List (Option V)) :
    (nonKey pk fields).length ≤ pk.length := by
  rw [nonKey, length_zipWith]
  exact Nat.min_le_left _ _

theorem Holds.mem (h : Holds fields r) (hv : some v ∈ fields) : v ∈ r := by
  induction h with
  | nil _ => cases hv
  | undef w _ ih => exact mem_cons_of_mem w (ih (by simpa using hv))
  | value w _ ih =>
    rcases mem_cons.mp hv with hv | hv
    · rw [some.inj hv]
      exact mem_cons_self
    · exact mem_cons_of_mem w (ih hv)

theorem Holds.length_le (h : Holds fields r) : fields.length ≤ r.length := by
  induction h with
  | nil _ => exact Nat.zero_le _
  | undef _ _ ih => exact Nat.succ_le_succ ih
  | value _ _ ih => exact Nat.succ_le_succ ih

/-- A row that has the values of some fields meets the condition of a statement. -/
theorem Table.Exact.holds_of_holds (ht : t.Exact A) (h : Holds fields r)
    (hr : ∀ v ∈ r, A v) : t.holds fields r = true :=
  (ht.holds_iff h.length_le (fun v hv => hr v (h.mem hv)) hr).mpr h

variable [DecidableEq V] {E : Entry V}

theorem Describes.proper (hx : OnKey pk k x) (hy : OnKey pk k y)
    (h : Describes pk patchset x y E) : E.Proper patchset pk := by
  cases h with
  | insert r i => exact .insert r i (hy r rfl).1
  | delete r i =>
    cases patchset with
    | true =>
      simpa [keyFields_map] using .deleteKey _ i rfl (length_keyFields (hx r rfl).1)
    | false => simpa using .delete r i rfl (hx r rfl).1
  | update r r' i hpatch hne =>
    have hkin := hx.kin hy
    exact .update _ _ i hpatch hkin.updateRecord (sets_of_nonKey (nonKey_diffNew_sets hkin hne))
  | patch r r' i fields hpatch hP hset =>
    refine .patch fields i hpatch hP.length_eq ?_ hset
    simp [hP.keyFields_eq, keyFields_map]

/-- An entry can be applied to the row that it describes, with the effect that it describes. -/
theorem Describes.effect (ht : e.table.Exact A) (hpk : e.pk = e.table.pk) (hx : OnKey e.pk k x)
    (hy : OnKey e.pk k y) (hA : Within A x) (hE : Describes e.pk e.patchset x y E) :
    E.Readable e.patchset e.pk ∧ e.key (E.change e.patchset e.pk) = some (e.table.norm k) ∧
      e.rowStep (E.change e.patchset e.pk) x = some y := by
  have hwidth : e.table.dflt.length = e.pk.length := by rw [hpk]; exact ht.width
  have hkeyrow : ∀ r, keyFields e.pk r = k →
      (defined (keyFields e.pk (r.map some))).map e.table.norm = some (e.table.norm k) := by
    intro r hk
    simp [keyFields_map, hk]
  refine ⟨(hE.proper hx hy).readable (hpk ▸ ne_nil_of_mem ht.key), ?_⟩
  cases hE with
  | insert r i =>
    obtain ⟨hlen, hk⟩ := hy r rfl
    refine ⟨hkeyrow r hk, ?_⟩
    rw [rowStep_insert_none rfl]
    simp [Entry.change, hlen, ← hwidth]
  | delete r i =>
    obtain ⟨hlen, hk⟩ := hx r rfl
    rw [rowStep_delete rfl]
    cases hpatch : e.patchset with
    | true =>
      have hcount : k.length = e.pk.count true := hk ▸ length_keyFields hlen
      simp [Env.key, Change.keyRecord, Entry.change, keyFields_map, hk, keyFields_spread k hcount]
    | false =>
      refine ⟨hkeyrow r hk, ?_⟩
      simp [Entry.change, ht.holds_of_holds (holds_nonKey_row r hlen) (hA r rfl)]
  | update r r' i hpatch hne =>
    have hkin := hx.kin hy
    rw [hkin.updateRecord.change_eq hpatch, rowStep_update rfl]
    refine ⟨by simp [Env.key, Change.keyRecord, keyFields_diffOld hkin, (hx r rfl).2], ?_⟩
    simp only [nonKey_diffNew_sets hkin hne, assign_diffNew hkin,
      ht.holds_of_holds (holds_nonKey_diffOld hkin) (hA r rfl)]
    simp
  | patch r r' i fields hpatch hP hset =>
    rw [change_patch hpatch, rowStep_update rfl]
    have hkey : keyFields e.pk fields = k.map some := by
      rw [hP.keyFields_eq, keyFields_map, (hx r rfl).2]
    refine ⟨by simp [Env.key, Change.keyRecord, keyFields_keyOnly hP.length_eq, hkey], ?_⟩
    simp [nonKey_nonKey, hset, hpatch, hP.assign_eq]

end Effects

/-! ## From the effect to the description -/

/-- An UPDATE that fits a row is the difference of the rows before and after. -/
theorem UpdateRecord.eq_diff [DecidableEq V] (h : UpdateRecord pk old new)
    (hr : r.length = pk.length) (hkey : keyFields pk old = (keyFields pk r).map some)
    (hold : Holds (nonKey pk old) r) :
    Kin pk r (assign pk new r) ∧ old = diffOld pk r (assign pk new r) ∧
      new = diffNew pk r (assign pk new r) ∧
      (new.all (·.isNone) = false → r ≠ assign pk new r) := by
  induction h generalizing r with
  | nil =>
    rw [length_eq_zero_iff.mp hr]
    exact ⟨.nil, rfl, rfl, by simp⟩
  | key x _ ih =>
    obtain ⟨v, r, rfl⟩ := exists_cons_of_length_eq_add_one hr
    simp only [keyFields_true, map_cons, cons.injEq, some.injEq] at hkey
    obtain ⟨rfl, hkey⟩ := hkey
    cases hold with
    | undef _ hold =>
      obtain ⟨hkin, hrest⟩ := ih (by simpa using hr) hkey hold
      exact ⟨.key x hkin, by simpa [assign] using hrest⟩
  | keep _ ih =>
    obtain ⟨v, r, rfl⟩ := exists_cons_of_length_eq_add_one hr
    cases hold with
    | undef _ hold =>
      obtain ⟨hkin, hrest⟩ := ih (by simpa using hr) (by simpa using hkey) hold
      exact ⟨.other v v hkin, by simpa [assign] using hrest⟩
  | set x y _ hne ih =>
    obtain ⟨v, r, rfl⟩ := exists_cons_of_length_eq_add_one hr
    cases hold with
    | value _ hold =>
      obtain ⟨hkin, hold, hnew, -⟩ := ih (by simpa using hr) (by simpa using hkey) hold
      exact ⟨.other x y hkin, by simpa [assign, hne] using ⟨hold, hnew⟩⟩

theorem patch_assign (hlen : fields.length = pk.length)
    (hr : r.length = pk.length) (hkey : keyFields pk fields = (keyFields pk r).map some) :
    Patch pk r (assign pk (nonKey pk fields) r) fields := by
  induction r, pk, hr using sameLength generalizing fields with
  | nil =>
    rw [length_eq_zero_iff.mp hlen]
    exact .nil
  | cons v r b pk hr ih =>
    obtain ⟨f, fields, rfl⟩ := exists_cons_of_length_eq_add_one hlen
    have hlen' : fields.length = pk.length := by simpa using hlen
    cases b with
    | true =>
      simp only [keyFields_true, map_cons, cons.injEq] at hkey
      obtain ⟨rfl, hkey⟩ := hkey
      exact .key v (ih hlen' hkey)
    | false =>
      have hrec := ih hlen' (by simpa using hkey)
      cases f with
      | none => exact .keep v hrec
      | some x => exact .set v x hrec

/-- A row that a DELETE fits is the one that it names. -/
theorem eq_of_holds (hr : r.length = pk.length) (hr' : r'.length = pk.length)
    (hkey : keyFields pk r = keyFields pk r') (h : Holds (nonKey pk (r.map some)) r') : r = r' := by
  induction r, pk, hr using sameLength generalizing r' with
  | nil => rw [length_eq_zero_iff.mp hr']
  | cons x r b pk hr ih =>
    obtain ⟨y, r', rfl⟩ := exists_cons_of_length_eq_add_one hr'
    have hlen : r'.length = pk.length := by simpa using hr'
    cases b with
    | true =>
      simp only [keyFields_true, cons.injEq] at hkey
      cases h with
      | undef _ h => rw [hkey.1, ih hlen hkey.2 h]
    | false =>
      cases h with
      | value _ h => rw [ih hlen (by simpa using hkey) h]

theorem eq_map_of_defined (h : defined fields = some l) : fields = l.map some := by
  induction fields generalizing l with
  | nil =>
    rw [← some.inj h]
    rfl
  | cons f fields ih =>
    cases f with
    | none => simp [defined] at h
    | some x =>
      simp only [defined, mapM_cons, id] at h
      obtain ⟨_, hx, h⟩ := bind_eq_some_iff.mp h
      obtain ⟨l', hl', h⟩ := bind_eq_some_iff.mp h
      rw [← some.inj h, ih hl', ← some.inj hx]
      rfl

theorem mem_assign (h : v ∈ assign pk fields r) : v ∈ r ∨ some v ∈ fields := by
  induction pk generalizing fields r with
  | nil => exact .inl h
  | cons b pk ih =>
    cases fields with
    | nil => exact .inl h
    | cons f fields =>
      cases r with
      | nil => cases h
      | cons x r =>
        rcases mem_cons.mp h with h | h
        · cases b <;> cases f <;> simp_all
        · exact (ih h).imp (mem_cons_of_mem x) (mem_cons_of_mem f)

theorem within_assign (hr : ∀ v ∈ r, A v)
    (hfields : ∀ v, some v ∈ fields → A v) : Within A (some (assign pk fields r)) := by
  intro r' hr' v hv
  rw [← some.inj hr'] at hv
  exact (mem_assign hv).elim (hr v) (hfields v)

theorem mem_of_mem_keyFields (h : v ∈ keyFields pk l) : v ∈ l := by
  simp only [keyFields, List.mem_map, mem_filter] at h
  obtain ⟨p, ⟨hp, -⟩, rfl⟩ := h
  exact (of_mem_zip hp).2

theorem Table.Sound.onKey (ht : t.Exact A)
    (hrows : t.Sound A rows) (hk : ∀ v ∈ k, A v) : OnKey t.pk k (rows (t.norm k)) := by
  intro r hr
  obtain ⟨hlen, hnorm, hA⟩ := hrows _ r hr
  exact ⟨hlen, ht.norm _ _ (fun v hv => hA v (mem_of_mem_keyFields hv)) hk hnorm⟩

theorem Describes.entryKey_eq [DecidableEq V] {k : Key V}
    (hx : OnKey pk k x) (hy : OnKey pk k y) (h : Describes pk patchset x y E) :
    entryKey patchset pk E = k.map some := by
  cases h with
  | insert r i => simp [entryKey, keyFields_map, (hy r rfl).2]
  | delete r i => cases patchset <;> simp [entryKey, keyFields_map, (hx r rfl).2]
  | update r r' i hkind hne =>
    have hkin : Kin pk r r' := hx.kin hy
    simp [entryKey, keyFields_append hkin.length_diffOld, keyFields_diffOld hkin, (hx r rfl).2]
  | patch r r' i fields hkind h hset =>
    simp [entryKey, h.keyFields_eq, keyFields_map, (hx r rfl).2]

/-- What an entry that was applied to a row says about it. -/
structure Explains [DecidableEq V] (pk : List Bool) (patchset : Bool) (A : V → Prop) (k : Key V)
    (x y : Option (Row V)) (E : Entry V) : Prop where
  key : entryKey patchset pk E = k.map some
  within : ∀ v ∈ k, A v
  before : OnKey pk k x
  after : OnKey pk k y
  values : Within A y
  describes : Describes pk patchset x y E

theorem eq_of_map_some (h : l.map some = l'.map some) : l = l' := by
  simpa using congrArg defined h

theorem onKey_some (hlen : r.length = pk.length) (hk : keyFields pk r = k) :
    OnKey pk k (some r) := by
  intro r' hr'
  rw [← some.inj hr']
  exact ⟨hlen, hk⟩

section Explanations

variable [DecidableEq V] {e : Env N V} {A : V → Prop} {E : Entry V} {rows : Content V}
  {k : Key V} {y : Option (Row V)}

/-- If the entry can be applied to the row with the key `k`, it says what it does to it. -/
def Env.Told (e : Env N V) (A : V → Prop) (rows : Content V) (k : Key V) (E : Entry V) : Prop :=
  ∀ y, e.rowStep (E.change e.patchset e.pk) (rows (e.table.norm k)) = some y →
    Explains e.pk e.patchset A k (rows (e.table.norm k)) y E

variable (ht : e.table.Exact A) (hpk : e.pk = e.table.pk) (hrows : e.table.Sound A rows)

include ht hpk hrows

omit hrows in
theorem explains_insert (r : Row V) (i : Bool) (hlen : r.length = e.pk.length) (hA : ∀ v ∈ r, A v)
    (hk : keyFields e.pk r = k) : e.Told A rows k ⟨.insert, i, r.map some⟩ := by
  intro y hstep
  have hkA : ∀ v ∈ k, A v := fun v hv => hA v (mem_of_mem_keyFields (hk ▸ hv))
  cases hrow : rows (e.table.norm k) with
  | some r₀ =>
    rw [hrow, rowStep_insert_some rfl] at hstep
    cases hstep
  | none =>
    have hdrop : e.table.dflt.drop r.length = [] := by
      rw [hlen, hpk, ← ht.width, drop_length]
    rw [hrow, rowStep_insert_none rfl] at hstep
    obtain rfl : some r = y := by simpa [change, hdrop] using hstep
    refine ⟨by simp [entryKey, keyFields_map, hk], hkA, nofun, onKey_some hlen hk, ?_, .insert r i⟩
    intro r' hr'
    rw [← some.inj hr']
    exact hA

omit [DecidableEq V] in
theorem exists_row (hop : c.op ≠ .insert) (hkA : ∀ v ∈ k, A v)
    (hstep : e.rowStep c (rows (e.table.norm k)) = some y) :
    ∃ r, rows (e.table.norm k) = some r ∧ r.length = e.pk.length ∧ keyFields e.pk r = k ∧
      ∀ v ∈ r, A v := by
  cases hrow : rows (e.table.norm k) with
  | none =>
    rw [hrow, rowStep_none hop] at hstep
    cases hstep
  | some r =>
    obtain ⟨hlen, hk⟩ := hrows.onKey ht hkA r hrow
    rw [← hpk] at hlen hk
    exact ⟨r, rfl, hlen, hk, (hrows _ r hrow).2.2⟩

theorem explains_delete (r : Row V) (i : Bool) (hkind : e.patchset = false)
    (hlen : r.length = e.pk.length) (hA : ∀ v ∈ r, A v) (hk : keyFields e.pk r = k) :
    e.Told A rows k ⟨.delete, i, r.map some⟩ := by
  intro y hstep
  have hkA : ∀ v ∈ k, A v := fun v hv => hA v (mem_of_mem_keyFields (hk ▸ hv))
  obtain ⟨r₀, hrow, hlen₀, hk₀, hA₀⟩ := exists_row ht hpk hrows (by simp [change]) hkA hstep
  rw [hrow, rowStep_delete rfl, ite_none_right_eq_some] at hstep
  obtain ⟨hcond, hy⟩ := hstep
  rw [hrow, ← some.inj hy]
  have hmatch : e.table.holds (nonKey e.pk (r.map some)) r₀ = true := by
    simpa [hkind, change] using hcond
  have hholds := (ht.holds_iff (hlen₀ ▸ length_nonKey_le _ _) (fun v hv => by
    obtain ⟨w, hw, heq⟩ := mem_map.mp (mem_of_mem_nonKey hv (by simp))
    exact some.inj heq ▸ hA w hw) hA₀).mp hmatch
  obtain rfl := eq_of_holds hlen hlen₀ (hk.trans hk₀.symm) hholds
  refine ⟨by simp [entryKey, keyFields_map, hk, hkind], hkA, onKey_some hlen hk,
    by rintro - ⟨⟩, by rintro - ⟨⟩, ?_⟩
  simpa [hkind] using @Describes.delete _ _ e.pk e.patchset r i

theorem explains_deleteKey (i : Bool) (hkind : e.patchset = true) (hkA : ∀ v ∈ k, A v) :
    e.Told A rows k ⟨.delete, i, k.map some⟩ := by
  intro y hstep
  obtain ⟨r₀, hrow, hlen₀, hk₀, -⟩ := exists_row ht hpk hrows (by simp [change]) hkA hstep
  rw [hrow, rowStep_delete rfl, ite_none_right_eq_some] at hstep
  rw [hrow, ← some.inj hstep.2]
  refine ⟨by simp [entryKey, hkind], hkA, onKey_some hlen₀ hk₀, nofun, nofun, ?_⟩
  simpa [hkind, keyFields_map, hk₀] using @Describes.delete _ _ e.pk e.patchset r₀ i

theorem explains_update (old new : List (Option V)) (i : Bool) (hkind : e.patchset = false)
    (h : UpdateRecord e.pk old new) (hset : new.all (·.isNone) = false)
    (hA : ∀ v, some v ∈ old ++ new → A v) (hk : keyFields e.pk old = k.map some) :
    e.Told A rows k ⟨.update, i, old ++ new⟩ := by
  intro y hstep
  have hkA : ∀ v ∈ k, A v := fun v hv => hA v (mem_append_left new
    (mem_of_mem_keyFields (hk ▸ mem_map_of_mem hv)))
  obtain ⟨r₀, hrow, hlen₀, hk₀, hA₀⟩ := exists_row ht hpk hrows (by simp [change, hkind]) hkA hstep
  rw [h.change_eq hkind, hrow, rowStep_update rfl, ite_none_right_eq_some] at hstep
  obtain ⟨hcond, hy⟩ := hstep
  rw [hrow, ← some.inj hy]
  have hmatch : e.table.holds (nonKey e.pk old) r₀ = true := by
    simp only [hkind, Bool.and_eq_true] at hcond
    simpa using hcond.2
  have hholds := (ht.holds_iff (hlen₀ ▸ length_nonKey_le _ _) (fun v hv =>
    hA v (mem_append_left new (mem_of_mem_nonKey hv nofun))) hA₀).mp hmatch
  obtain ⟨hkin, hold, hnew, hne⟩ := h.eq_diff hlen₀ (by rw [hk, hk₀]) hholds
  refine ⟨?_, hkA, onKey_some hlen₀ hk₀, onKey_some hkin.length_eq.2 ?_,
    within_assign hA₀ fun v hv => hA v (mem_append_right old hv), ?_⟩
  · rw [entryKey, if_neg (by simp [hkind]), keyFields_append h.length_eq.1, hk]
  · rw [← hkin.keyFields_eq, hk₀]
  · have hdesc : Describes e.pk e.patchset (some r₀) (some (assign e.pk new r₀)) _ :=
      .update r₀ _ i hkind (hne hset)
    rwa [← hold, ← hnew] at hdesc

theorem explains_patch (fields : List (Option V)) (i : Bool) (hkind : e.patchset = true)
    (hlen : fields.length = e.pk.length) (hset : (nonKey e.pk fields).all (·.isNone) = false)
    (hA : ∀ v, some v ∈ fields → A v) (hk : keyFields e.pk fields = k.map some) :
    e.Told A rows k ⟨.update, i, fields⟩ := by
  intro y hstep
  have hkA : ∀ v ∈ k, A v := fun v hv =>
    hA v (mem_of_mem_keyFields (hk ▸ mem_map_of_mem hv))
  obtain ⟨r₀, hrow, hlen₀, hk₀, hA₀⟩ := exists_row ht hpk hrows (by simp [change, hkind]) hkA hstep
  rw [change_patch hkind, hrow, rowStep_update rfl, ite_none_right_eq_some] at hstep
  rw [hrow, ← some.inj hstep.2]
  have hpatch := patch_assign hlen hlen₀ (by rw [hk, hk₀])
  refine ⟨by simp [entryKey, hk], hkA, onKey_some hlen₀ hk₀, onKey_some hpatch.kin.length_eq.2 ?_,
    within_assign hA₀ fun v hv => hA v (mem_of_mem_nonKey hv nofun),
    .patch r₀ _ i fields hkind hpatch hset⟩
  rw [← hpatch.kin.keyFields_eq, hk₀]

/-- An entry in the format of changesets that fits a row describes what it does to it. -/
theorem Entry.Proper.explains (hE : E.Proper e.patchset e.pk) (hA : ∀ v, some v ∈ E.record → A v)
    (hkey : e.key (E.change e.patchset e.pk) = some κ)
    (hstep : e.rowStep (E.change e.patchset e.pk) (rows κ) = some y) :
    ∃ k, κ = e.table.norm k ∧ Explains e.pk e.patchset A k (rows κ) y E := by
  obtain ⟨k, hk, rfl⟩ := map_eq_some_iff.mp hkey
  have hk := eq_map_of_defined hk
  refine ⟨k, rfl, ?_⟩
  have hmem : ∀ {r : Row V}, (∀ v, some v ∈ r.map some → A v) → ∀ v ∈ r, A v :=
    fun h v hv => h v (mem_map_of_mem hv)
  cases hE with
  | insert r i hlen =>
    have hkr : keyFields e.pk r = k := eq_of_map_some (by rw [← keyFields_map]; exact hk)
    exact explains_insert ht hpk r i hlen (hmem hA) hkr y hstep
  | delete r i hkind hlen =>
    have hkr : keyFields e.pk r = k := by
      refine eq_of_map_some ?_
      rw [← keyFields_map]
      simpa [Change.keyRecord, change, hkind] using hk
    exact explains_delete ht hpk hrows r i hkind hlen (hmem hA) hkr y hstep
  | deleteKey key i hkind hlen =>
    obtain rfl : key = k := by
      refine eq_of_map_some ?_
      simpa [Change.keyRecord, change, hkind, keyFields_spread key hlen] using hk
    exact explains_deleteKey ht hpk hrows i hkind (hmem hA) y hstep
  | update old new i hkind h hset =>
    have hkold : keyFields e.pk old = k.map some := by
      simpa [Change.keyRecord, change, hkind, h.oldRecord_eq] using hk
    exact explains_update ht hpk hrows old new i hkind h hset hA hkold y hstep
  | patch fields i hkind hlen hdef hset =>
    have hkf : keyFields e.pk fields = k.map some := by
      simpa [Change.keyRecord, change, hkind, keyFields_keyOnly hlen] using hk
    exact explains_patch ht hpk hrows fields i hkind hlen hset hA hkf y hstep

end Explanations

end SqlCipher.Changeset
