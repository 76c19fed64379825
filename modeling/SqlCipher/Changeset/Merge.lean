import SqlCipher.Changeset.Record

/-!
# Merging two changes to a row

An entry describes how a row changes, from a row or no row to a row or no row. In a changeset it is
determined by the two rows, up to the indirect flag; an UPDATE of a patchset may have columns that
it does not change. What `sessionChangeMerge` makes of two entries describes the whole change, and
there is nothing left if a changeset takes the row back to where it was (`changeMerge_rel`).
-/

namespace SqlCipher.Changeset

open List

variable {V α : Type} {pk : List Bool} {r r' r'' : Row V}

@[elab_as_elim] theorem sameLength {β : Type}
    {motive : (l : List α) → (l' : List β) → l.length = l'.length → Prop} (nil : motive [] [] rfl)
    (cons : ∀ x l y l' (h : l.length = l'.length), motive l l' h →
      motive (x :: l) (y :: l') (congrArg (· + 1) h)) : ∀ l l' h, motive l l' h
  | [], [], _ => nil
  | x :: l, y :: l', h => cons x l y l' (Nat.succ.inj h) (sameLength nil cons l l' _)

inductive Kin : List Bool → Row V → Row V → Prop
  | nil : Kin [] [] []
  | key (x : V) {pk : List Bool} {r r' : Row V} (h : Kin pk r r') :
      Kin (true :: pk) (x :: r) (x :: r')
  | other (x y : V) {pk : List Bool} {r r' : Row V} (h : Kin pk r r') :
      Kin (false :: pk) (x :: r) (y :: r')

@[simp] theorem keyFields_nil (fields : List α) : keyFields [] fields = [] := rfl

@[simp] theorem keyFields_true (pk : List Bool) (f : α) (fields : List α) :
    keyFields (true :: pk) (f :: fields) = f :: keyFields pk fields := by
  simp [keyFields]

@[simp] theorem keyFields_false (pk : List Bool) (f : α) (fields : List α) :
    keyFields (false :: pk) (f :: fields) = keyFields pk fields := by
  simp [keyFields]

theorem keyFields_map {β : Type} (pk : List Bool) (f : α → β) (l : List α) :
    keyFields pk (l.map f) = (keyFields pk l).map f := by
  induction pk generalizing l with
  | nil => rfl
  | cons b pk ih =>
    cases l with
    | nil => simp [keyFields]
    | cons x l => cases b <;> simp [ih]

namespace Kin

theorem length_eq (h : Kin pk r r') : r.length = pk.length ∧ r'.length = pk.length := by
  induction h <;> simp_all

theorem keyFields_eq (h : Kin pk r r') : keyFields pk r = keyFields pk r' := by
  induction h <;> simp_all

theorem of_keyFields (hr : r.length = pk.length) (hr' : r'.length = pk.length)
    (h : keyFields pk r = keyFields pk r') : Kin pk r r' := by
  induction r, pk, hr using sameLength generalizing r' with
  | nil =>
    rw [length_eq_zero_iff.mp hr']
    exact .nil
  | cons x r b pk hr ih =>
    obtain ⟨y, r', rfl⟩ := exists_cons_of_length_eq_add_one hr'
    rw [length_cons, length_cons, Nat.add_right_cancel_iff] at hr'
    cases b with
    | true =>
      simp only [keyFields_true, cons.injEq] at h
      rw [h.1]
      exact .key y (ih hr' h.2)
    | false =>
      simp only [keyFields_false] at h
      exact .other x y (ih hr' h)

theorem trans (h : Kin pk r r') (h' : Kin pk r' r'') : Kin pk r r'' :=
  .of_keyFields h.length_eq.1 h'.length_eq.2 (h.keyFields_eq.trans h'.keyFields_eq)

end Kin

/-! ## What entries say -/

section Entries

variable [DecidableEq V]

/-- The old record of an UPDATE: the key, and the columns that change. -/
def diffOld (pk : List Bool) (r r' : Row V) : List (Option V) :=
  (pk.zip (r.zip r')).map fun c => if c.1 || c.2.1 != c.2.2 then some c.2.1 else none

def diffNew (pk : List Bool) (r r' : Row V) : List (Option V) :=
  (pk.zip (r.zip r')).map fun c => if !c.1 && c.2.1 != c.2.2 then some c.2.2 else none

omit [DecidableEq V] in
/-- The record of an UPDATE in a patchset: the key, and at least the columns that change. -/
inductive Patch : List Bool → Row V → Row V → List (Option V) → Prop
  | nil : Patch [] [] [] []
  | key (x : V) {pk : List Bool} {r r' : Row V} {fields : List (Option V)}
      (h : Patch pk r r' fields) : Patch (true :: pk) (x :: r) (x :: r') (some x :: fields)
  | set (x y : V) {pk : List Bool} {r r' : Row V} {fields : List (Option V)}
      (h : Patch pk r r' fields) : Patch (false :: pk) (x :: r) (y :: r') (some y :: fields)
  | keep (x : V) {pk : List Bool} {r r' : Row V} {fields : List (Option V)}
      (h : Patch pk r r' fields) : Patch (false :: pk) (x :: r) (x :: r') (none :: fields)

inductive Describes (pk : List Bool) (patchset : Bool) :
    Option (Row V) → Option (Row V) → Entry V → Prop
  | insert (r : Row V) (i : Bool) : Describes pk patchset none (some r) ⟨.insert, i, r.map some⟩
  | delete (r : Row V) (i : Bool) : Describes pk patchset (some r) none
      ⟨.delete, i, if patchset then keyFields pk (r.map some) else r.map some⟩
  | update (r r' : Row V) (i : Bool) (hkind : patchset = false) (hne : r ≠ r') :
      Describes pk patchset (some r) (some r') ⟨.update, i, diffOld pk r r' ++ diffNew pk r r'⟩
  | patch (r r' : Row V) (i : Bool) (fields : List (Option V)) (hkind : patchset = true)
      (h : Patch pk r r' fields) (hset : (nonKey pk fields).all (·.isNone) = false) :
      Describes pk patchset (some r) (some r') ⟨.update, i, fields⟩

def Rel (pk : List Bool) (patchset : Bool) (x y : Option (Row V)) : Option (Entry V) → Prop
  | none => x = y
  | some e => Describes pk patchset x y e

@[simp] theorem diffOld_nil (r r' : Row V) : diffOld [] r r' = [] := rfl

@[simp] theorem diffNew_nil (r r' : Row V) : diffNew [] r r' = [] := rfl

@[simp] theorem diffOld_cons (b : Bool) (x y : V) : diffOld (b :: pk) (x :: r) (y :: r') =
    (if b || x != y then some x else none) :: diffOld pk r r' := rfl

@[simp] theorem diffNew_cons (b : Bool) (x y : V) : diffNew (b :: pk) (x :: r) (y :: r') =
    (if !b && x != y then some y else none) :: diffNew pk r r' := rfl

theorem Kin.length_diffOld (h : Kin pk r r') : (diffOld pk r r').length = pk.length := by
  simp [diffOld, h.length_eq]

theorem Kin.length_diffNew (h : Kin pk r r') : (diffNew pk r r').length = pk.length := by
  simp [diffNew, h.length_eq]

/-! ## Records -/

omit [DecidableEq V] in
@[simp] theorem mergeRecord_nil (l : List (Option V)) : mergeRecord [] l = [] := rfl

omit [DecidableEq V] in
@[simp] theorem mergeRecord_cons (a b : Option V) (l l' : List (Option V)) :
    mergeRecord (a :: l) (b :: l') = b.or a :: mergeRecord l l' := rfl

/-- INSERT and UPDATE. -/
theorem mergeRecord_diffNew (h : Kin pk r r') :
    mergeRecord (r.map some) (diffNew pk r r') = r'.map some := by
  induction h with
  | nil => rfl
  | key x _ ih => simpa using ih
  | other x y _ ih => by_cases hxy : x = y <;> simpa [hxy] using ih

/-- UPDATE and DELETE. -/
theorem mergeRecord_diffOld (h : Kin pk r r') (tail : List (Option V)) :
    mergeRecord (r'.map some) (diffOld pk r r' ++ tail) = r.map some := by
  induction h with
  | nil => rfl
  | key x _ ih => simpa using ih
  | other x y _ ih => by_cases hxy : x = y <;> simpa [hxy] using ih

omit [DecidableEq V] in
/-- The merged values of old and new record, for rows at the start and the end. -/
inductive Merged : List Bool → Row V → Row V → List (Option V) → List (Option V) → Prop
  | nil (old new : List (Option V)) : Merged [] [] [] old new
  | key (x : V) (w : Option V) {pk : List Bool} {r r' : Row V} {old new : List (Option V)}
      (h : Merged pk r r' old new) : Merged (true :: pk) (x :: r) (x :: r')
        (some x :: old) (w :: new)
  | both (x y : V) {pk : List Bool} {r r' : Row V} {old new : List (Option V)}
      (h : Merged pk r r' old new) :
      Merged (false :: pk) (x :: r) (y :: r') (some x :: old) (some y :: new)
  | neither (x : V) {pk : List Bool} {r r' : Row V} {old new : List (Option V)}
      (h : Merged pk r r' old new) :
      Merged (false :: pk) (x :: r) (x :: r') (none :: old) (none :: new)

theorem Merged.columns (h : Merged pk r r' old new) :
    ((pk.zip (old.zip new)).any fun c => !c.1 && c.2.1 != c.2.2) = decide (r ≠ r') ∧
    ((pk.zip (old.zip new)).map fun c => if c.1 || c.2.1 != c.2.2 then c.2.1 else none) =
      diffOld pk r r' ∧
    ((pk.zip (old.zip new)).map fun c => if c.1 || c.2.1 == c.2.2 then none else c.2.2) =
      diffNew pk r r' := by
  induction h with
  | nil old new => simp
  | key x w _ ih => simpa using ih
  | neither x _ ih => simpa using ih
  | both x y _ ih =>
    by_cases hxy : x = y
    · simpa [hxy] using ih
    · simpa [hxy] using ih.2

/-- What `sessionMergeUpdate` makes of merged values. -/
theorem mergeUpdate_of_merged (h : Merged pk r r' (mergeValues old₁ old₂) (mergeValues new₁ new₂)) :
    mergeUpdate pk false old₁ old₂ new₁ new₂ =
      if r = r' then none else some (diffOld pk r r' ++ diffNew pk r r') := by
  obtain ⟨hany, hold, hnew⟩ := h.columns
  simp only [mergeUpdate, hany, hold, hnew]
  by_cases heq : r = r' <;> simp [heq]

/-- DELETE and INSERT. -/
theorem mergeUpdate_insert (h : Kin pk r r') :
    mergeUpdate pk false (r.map some) none (r'.map some) none =
      if r = r' then none else some (diffOld pk r r' ++ diffNew pk r r') := by
  refine mergeUpdate_of_merged ?_
  simp only [mergeValues]
  induction h with
  | nil => exact .nil _ _
  | key x _ ih => exact .key x _ ih
  | other x y _ ih => exact .both x y ih

/-- The values of two UPDATEs, column by column. -/
theorem merged_update (h : Kin pk r r') (h' : Kin pk r' r'') (tail tail' : List (Option V)) :
    Merged pk r r'' (mergeRecord (diffOld pk r' r'' ++ tail) (diffOld pk r r' ++ tail'))
      (mergeRecord (diffNew pk r r') (diffNew pk r' r'')) := by
  induction h generalizing r'' with
  | nil => cases h'; exact .nil _ _
  | key x _ ih =>
    cases h' with
    | key _ h' => simpa using .key x _ (ih h')
  | other x y _ ih =>
    cases h' with
    | other _ z h' =>
      have hrest := ih h'
      by_cases hxy : x = y <;> by_cases hyz : y = z
      · simpa [hxy, hyz] using .neither z hrest
      · simpa [hxy, hyz] using .both y z hrest
      · subst hyz
        simpa [hxy] using .both x y hrest
      · simpa [hxy, hyz] using .both x z hrest

/-- UPDATE and UPDATE. -/
theorem mergeUpdate_update (h : Kin pk r r') (h' : Kin pk r' r'') :
    mergeUpdate pk false (diffOld pk r' r'' ++ diffNew pk r' r'')
        (some (diffOld pk r r' ++ diffNew pk r r')) (diffNew pk r r') (some (diffNew pk r' r'')) =
      if r = r'' then none else some (diffOld pk r r'' ++ diffNew pk r r'') :=
  mergeUpdate_of_merged (merged_update h h' _ _)

end Entries

/-! ## Patchsets -/

namespace Patch

variable {fields fields' : List (Option V)} {i : Bool} {o' m : Option (Entry V)}
  {w : Option (Row V)}

theorem kin (h : Patch pk r r' fields) : Kin pk r r' := by
  induction h with
  | nil => exact .nil
  | key x _ ih => exact .key x ih
  | set x y _ ih => exact .other x y ih
  | keep x _ ih => exact .other x x ih

theorem length_eq (h : Patch pk r r' fields) : fields.length = pk.length := by
  induction h <;> simp_all

/-- INSERT and UPDATE. -/
theorem mergeRecord_eq (h : Patch pk r r' fields) :
    mergeRecord (r.map some) fields = r'.map some := by
  induction h with
  | nil => rfl
  | key x _ ih | set x y _ ih | keep x _ ih => simpa using ih

/-- DELETE and INSERT. -/
theorem of_kin (h : Kin pk r r') : Patch pk r r' (r'.map some) := by
  induction h with
  | nil => exact .nil
  | key x _ ih => exact .key x ih
  | other x y _ ih => exact .set x y ih

/-- UPDATE and UPDATE. -/
theorem trans (h : Patch pk r r' fields) (h' : Patch pk r' r'' fields') :
    Patch pk r r'' (mergeRecord fields fields') := by
  induction h generalizing r'' fields' with
  | nil => cases h'; exact .nil
  | key x _ ih =>
    cases h' with
    | key _ h' => exact .key x (ih h')
  | set x y _ ih =>
    cases h' with
    | set _ z h' => exact .set x z (ih h')
    | keep _ h' => exact .set x y (ih h')
  | keep x _ ih =>
    cases h' with
    | set _ z h' => exact .set x z (ih h')
    | keep _ h' => exact .keep x (ih h')

theorem keyFields_eq (h : Patch pk r r' fields) :
    keyFields pk fields = keyFields pk (r.map some) := by
  induction h <;> simp_all

end Patch

@[simp] theorem nonKey_cons (b : Bool) (pk : List Bool) (f : Option V) (fields : List (Option V)) :
    nonKey (b :: pk) (f :: fields) = (if b then none else f) :: nonKey pk fields := rfl

@[simp] theorem nonKey_nil (fields : List (Option V)) : nonKey [] fields = [] := rfl

theorem nonKey_merge_sets (hlen : fields.length = pk.length)
    (hlen' : fields'.length = pk.length) (h : (nonKey pk fields').all (·.isNone) = false) :
    (nonKey pk (mergeRecord fields fields')).all (·.isNone) = false := by
  induction fields, pk, hlen using sameLength generalizing fields' with
  | nil => simp at h
  | cons f fields b pk hlen ih =>
    obtain ⟨f', fields', rfl⟩ := exists_cons_of_length_eq_add_one hlen'
    have hrec := ih (by simpa using hlen')
    simp only [nonKey_cons, all_cons, Bool.and_eq_false_iff, mergeRecord_cons] at h ⊢
    refine h.imp (fun hf => ?_) hrec
    cases b <;> cases f' <;> simp_all

theorem nonKey_row_sets (hr : r.length = pk.length) (h : false ∈ pk) :
    (nonKey pk (r.map some)).all (·.isNone) = false := by
  induction r, pk, hr using sameLength with
  | nil => cases h
  | cons x r b pk hr ih =>
    cases b with
    | false => simp
    | true => simpa using ih (by simpa using h)

/-! ## Two changes -/

def OnKey (pk : List Bool) (k : Key V) (x : Option (Row V)) : Prop :=
  ∀ r, x = some r → r.length = pk.length ∧ keyFields pk r = k

theorem OnKey.kin (h : OnKey pk k (some r)) (h' : OnKey pk k (some r')) : Kin pk r r' :=
  .of_keyFields (h r rfl).1 (h' r' rfl).1 ((h r rfl).2.trans (h' r' rfl).2.symm)

section Merging

variable [DecidableEq V] {patchset : Bool} {k : Key V} {x y z : Option (Row V)}
  {o : Option (Entry V)} {e : Entry V}

theorem mergeUpdate_patch {fields fields' : List (Option V)} (hlen : fields.length = pk.length)
    (hlen' : fields'.length = pk.length) :
    mergeUpdate pk true fields' (some fields) fields (some fields') =
      some (mergeRecord fields fields') := by
  have hzip : ∀ l l' : List (Option V), l.length = pk.length → l'.length = pk.length →
      (pk.zip (l.zip l')).map (Prod.snd ∘ Prod.snd) = l' := by
    intro l l' hl hl'
    rw [← map_map, map_snd_zip (by simp [hl, hl']), map_snd_zip (by simp [hl, hl'])]
  exact congrArg some (hzip _ _ (length_zipWith.trans (by omega)) (length_zipWith.trans (by omega)))

/-- Two changes to a row are merged into one that describes both, or into none if the row is as it
was. -/
theorem changeMerge_rel (hcol : patchset = true → false ∈ pk) (hx : OnKey pk k x)
    (hy : OnKey pk k y) (hz : OnKey pk k z) (hxy : Rel pk patchset x y o)
    (hyz : Describes pk patchset y z e) : Rel pk patchset x z (changeMerge pk patchset o e) := by
  cases o with
  | none =>
    obtain rfl : x = y := hxy
    exact hyz
  | some e₁ =>
    cases hxy with
    | insert r i =>
      cases hyz with
      | delete _ j => exact rfl
      | update _ r' j hkind hne =>
        subst hkind
        simp only [changeMerge, Bool.false_eq_true, if_false, drop_left' (hy.kin hz).length_diffOld,
          mergeRecord_diffNew (hy.kin hz)]
        exact .insert r' _
      | patch _ r' j fields hkind hpatch hset =>
        subst hkind
        simp only [changeMerge, if_true, hpatch.mergeRecord_eq]
        exact .insert r' _
    | delete r i =>
      cases hyz with
      | insert r' j =>
        cases patchset with
        | true =>
          simp only [changeMerge, if_true]
          exact .patch r r' _ _ rfl (.of_kin (hx.kin hz)) (nonKey_row_sets (hz r' rfl).1 (hcol rfl))
        | false =>
          simp only [changeMerge, Bool.false_eq_true, if_false, mergeUpdate_insert (hx.kin hz)]
          by_cases heq : r = r'
          · simp [heq, Rel]
          · simpa [heq, Rel] using .update r r' _ rfl heq
    | update r r' i hkind hne =>
      subst hkind
      have hkin := hx.kin hy
      cases hyz with
      | delete _ j =>
        simp only [changeMerge, Bool.false_eq_true, if_false, mergeRecord_diffOld hkin]
        exact .delete r _
      | update _ r'' j _ hne' =>
        have hkin' := hy.kin hz
        simp only [changeMerge, Bool.false_eq_true, if_false, drop_left' hkin.length_diffOld,
          drop_left' hkin'.length_diffOld, mergeUpdate_update hkin hkin']
        by_cases heq : r = r''
        · simp [heq, Rel]
        · simpa [heq, Rel] using .update r r'' _ rfl heq
      | patch => contradiction
    | patch r r' i fields hkind hpatch hset =>
      subst hkind
      cases hyz with
      | delete _ j =>
        simp only [changeMerge, if_true]
        rw [keyFields_map, ← hpatch.kin.keyFields_eq, ← keyFields_map]
        exact .delete r _
      | update => contradiction
      | patch _ r'' j fields' _ hpatch' hset' =>
        simp only [changeMerge, if_true, mergeUpdate_patch hpatch.length_eq hpatch'.length_eq]
        exact .patch r r'' _ _ rfl (hpatch.trans hpatch')
          (nonKey_merge_sets hpatch.length_eq hpatch'.length_eq hset')

/-! ## Associativity -/

def mergeEntry (pk : List Bool) (patchset : Bool) (o o' : Option (Entry V)) : Option (Entry V) :=
  o'.elim o (changeMerge pk patchset o)

def Flagged (i : Bool) (o : Option (Entry V)) : Prop := ∀ e, o = some e → e.indirect = i

theorem changeMerge_flagged (ho : Flagged i o) (he : e.indirect = i) :
    Flagged i (changeMerge pk patchset o e) := by
  intro e' he'
  cases o with
  | none =>
    rw [← Option.some.inj he']
    exact he
  | some e₁ =>
    have he₁ := ho e₁ rfl
    have hboth : (e.indirect && e₁.indirect) = i := by rw [he, he₁, Bool.and_self]
    simp only [changeMerge] at he'
    split at he'
    all_goals try (rw [← Option.some.inj he']; first | exact he₁ | exact hboth)
    · cases he'
    · split at he'
      · rw [← Option.some.inj he']
        exact hboth
      · obtain ⟨_, -, rfl⟩ := Option.map_eq_some_iff.mp he'
        exact hboth
    · obtain ⟨_, -, rfl⟩ := Option.map_eq_some_iff.mp he'
      exact hboth

theorem Describes.ne (h : Describes pk false x y e) : x ≠ y := by
  cases h with
  | update _ _ _ _ hne => simpa using hne
  | patch => contradiction
  | _ => simp

/-- In a changeset the rows determine the entry, up to the flag. -/
theorem Rel.unique (h : Rel pk false x y o) (h' : Rel pk false x y o') (ho : Flagged i o)
    (ho' : Flagged i o') : o = o' := by
  cases o with
  | none =>
    cases o' with
    | none => rfl
    | some e => exact absurd h (Describes.ne h')
  | some e =>
    have hi : e.indirect = i := ho e rfl
    cases o' with
    | none => exact absurd h' (Describes.ne h)
    | some e' =>
      have hi' : e'.indirect = i := ho' e' rfl
      cases h with
      | insert r j =>
        cases h' with
        | insert _ j' => rw [show j = j' from hi.trans hi'.symm]
      | delete r j =>
        cases h' with
        | delete _ j' => rw [show j = j' from hi.trans hi'.symm]
      | update r r' j _ _ =>
        cases h' with
        | update _ _ j' _ _ => rw [show j = j' from hi.trans hi'.symm]
        | patch => contradiction
      | patch => contradiction

@[simp] theorem mergeEntry_none_left (o : Option (Entry V)) :
    mergeEntry pk patchset none o = o := by
  cases o <;> rfl

theorem mergeEntry_rel (hcol : patchset = true → false ∈ pk) (hx : OnKey pk k x) (hy : OnKey pk k y)
    (hz : OnKey pk k z) (hxy : Rel pk patchset x y o) (hyz : Rel pk patchset y z o') :
    Rel pk patchset x z (mergeEntry pk patchset o o') := by
  cases o' with
  | none =>
    obtain rfl : y = z := hyz
    exact hxy
  | some e => exact changeMerge_rel hcol hx hy hz hxy hyz

theorem mergeEntry_flagged (ho : Flagged i o) (ho' : Flagged i o') :
    Flagged i (mergeEntry pk patchset o o') := by
  cases o' with
  | none => exact ho
  | some e => exact changeMerge_flagged ho (ho' e rfl)

omit [DecidableEq V] in
theorem merge_row (h : l.length = r.length) : mergeRecord l (r.map some) = r.map some := by
  induction l, r, h using sameLength with
  | nil => rfl
  | cons f l x r h ih => simpa using ih

theorem merge_merge (l l' l'' : List (Option α)) :
    mergeRecord l (mergeRecord l' l'') = mergeRecord (mergeRecord l l') l'' := by
  induction l generalizing l' l'' with
  | nil => simp
  | cons f l ih =>
    cases l' with
    | nil => rfl
    | cons f' l' =>
      cases l'' with
      | nil => rfl
      | cons f'' l'' => simp [ih, Option.or_assoc]

/-- Merging a change into the merge of two others, or the merge of the last two into the first. -/
theorem changeMerge_assoc (hcol : patchset = true → false ∈ pk) (hw : OnKey pk k w)
    (hx : OnKey pk k x) (hy : OnKey pk k y) (hz : OnKey pk k z) (hm : Rel pk patchset w x m)
    (hb : Rel pk patchset x y b) (he : Describes pk patchset y z e) (hmi : Flagged i m)
    (hbi : Flagged i b) (hei : e.indirect = i) :
    mergeEntry pk patchset m (changeMerge pk patchset b e) =
      changeMerge pk patchset (mergeEntry pk patchset m b) e := by
  cases patchset with
  | false =>
    -- both sides describe the same change
    have hleft := mergeEntry_rel hcol hw hx hz hm (changeMerge_rel hcol hx hy hz hb he)
    have hright := changeMerge_rel hcol hw hy hz (mergeEntry_rel hcol hw hx hy hm hb) he
    exact hleft.unique hright (mergeEntry_flagged hmi (changeMerge_flagged hbi hei))
      (changeMerge_flagged (mergeEntry_flagged hmi hbi) hei)
  | true =>
    cases m with
    | none => simp
    | some e₁ =>
      cases b with
      | none => rfl
      | some e₂ =>
        obtain rfl : e₁.indirect = i := hmi e₁ rfl
        have hi₂ : e₂.indirect = e₁.indirect := hbi e₂ rfl
        cases hm with
        | update => contradiction
        | insert r j =>
          cases hb with
          | update => contradiction
          | delete _ j' =>
            cases he with
            | insert r'' j'' =>
              have hlen : (r.map some).length = r''.length := by
                rw [length_map, (hx r rfl).1, (hz r'' rfl).1]
              simp_all [mergeEntry, changeMerge, merge_row hlen]
          | patch _ r' j' fields' _ hpatch' hset' =>
            cases he with
            | update => contradiction
            | delete _ j'' => rfl
            | patch _ r'' j'' fields'' _ hpatch'' hset'' =>
              simp_all [mergeEntry, changeMerge, merge_merge,
                mergeUpdate_patch hpatch'.length_eq hpatch''.length_eq]
        | delete r j =>
          cases hb with
          | insert r' j' =>
            have hlen : (r'.map some).length = pk.length := by
              rw [length_map, (hy r' rfl).1]
            cases he with
            | update => contradiction
            | delete _ j'' =>
              have hkey : keyFields pk (r.map some) = keyFields pk (r'.map some) := by
                rw [keyFields_map, keyFields_map, (hw r rfl).2, (hy r' rfl).2]
              simp_all [mergeEntry, changeMerge]
            | patch _ r'' j'' fields'' _ hpatch'' hset'' =>
              simp_all [mergeEntry, changeMerge, mergeUpdate_patch hlen hpatch''.length_eq]
        | patch _ r' j fields _ hpatch hset =>
          cases hb with
          | update => contradiction
          | delete _ j' =>
            cases he with
            | insert r'' j'' =>
              have hlen : (r''.map some).length = pk.length := by
                rw [length_map, (hz r'' rfl).1]
              have hrow : fields.length = r''.length := by
                rw [hpatch.length_eq, (hz r'' rfl).1]
              simp_all [mergeEntry, changeMerge, merge_row hrow,
                mergeUpdate_patch hpatch.length_eq hlen]
          | patch _ r'' j' fields' _ hpatch' hset' =>
            cases he with
            | update => contradiction
            | delete _ j'' =>
              simp_all [mergeEntry, changeMerge,
                mergeUpdate_patch hpatch.length_eq hpatch'.length_eq]
            | patch _ r'' j'' fields'' _ hpatch'' hset'' =>
              have hlen := (hpatch.trans hpatch').length_eq
              have hlen' := (hpatch'.trans hpatch'').length_eq
              simp_all [mergeEntry, changeMerge, merge_merge,
                mergeUpdate_patch hpatch.length_eq hpatch'.length_eq,
                mergeUpdate_patch hpatch'.length_eq hpatch''.length_eq,
                mergeUpdate_patch hlen hpatch''.length_eq, mergeUpdate_patch hpatch.length_eq hlen']

/-! ## Many changes -/

def mergeAll (pk : List Bool) (patchset : Bool) (o : Option (Entry V)) (es : List (Entry V)) :
    Option (Entry V) :=
  es.foldl (changeMerge pk patchset) o

theorem mergeAll_append (es es' : List (Entry V)) : mergeAll pk patchset o (es ++ es') =
    mergeAll pk patchset (mergeAll pk patchset o es) es' :=
  foldl_append

theorem mergeAll_toList (o' : Option (Entry V)) :
    mergeAll pk patchset o o'.toList = mergeEntry pk patchset o o' := by
  cases o' with
  | none => rfl
  | some e => rfl

theorem mergeAll_flagged (ho : Flagged i o) (hes : ∀ e ∈ es, e.indirect = i) :
    Flagged i (mergeAll pk patchset o es) := by
  induction es generalizing o with
  | nil => exact ho
  | cons e es ih =>
    exact ih (changeMerge_flagged ho (hes e mem_cons_self)) fun e he => hes e (mem_cons_of_mem _ he)

/-- The entries describe how a row with the key `k` changes, one after the other. -/
inductive Chain (pk : List Bool) (patchset : Bool) (k : Key V) :
    Option (Row V) → List (Entry V) → Option (Row V) → Prop
  | nil {x : Option (Row V)} (hx : OnKey pk k x) : Chain pk patchset k x [] x
  | cons {x y z : Option (Row V)} {e : Entry V} {es : List (Entry V)} (hx : OnKey pk k x)
      (he : Describes pk patchset x y e) (hes : Chain pk patchset k y es z) :
      Chain pk patchset k x (e :: es) z

variable {es es' : List (Entry V)}

theorem Chain.onKey (h : Chain pk patchset k x es z) : OnKey pk k x := by
  cases h with
  | nil hx => exact hx
  | cons hx _ _ => exact hx

/-- What becomes of an entry when further changes are added. -/
theorem Chain.rel (hcol : patchset = true → false ∈ pk) (hw : OnKey pk k w)
    (hm : Rel pk patchset w x m) (h : Chain pk patchset k x es z) :
    Rel pk patchset w z (mergeAll pk patchset m es) := by
  induction h generalizing m with
  | nil _ => exact hm
  | cons hx he hes ih => exact ih (changeMerge_rel hcol hw hx hes.onKey hm he)

/-- Changes may be merged before they are added. -/
theorem Chain.mergeAll_assoc (hcol : patchset = true → false ∈ pk) (hw : OnKey pk k w)
    (hx : OnKey pk k x) (hm : Rel pk patchset w x m) (hb : Rel pk patchset x y b)
    (h : Chain pk patchset k y es z) (hmi : Flagged i m) (hbi : Flagged i b)
    (hes : ∀ e ∈ es, e.indirect = i) :
    mergeEntry pk patchset m (mergeAll pk patchset b es) =
      mergeAll pk patchset (mergeEntry pk patchset m b) es := by
  induction h generalizing b with
  | nil _ => rfl
  | cons hy he hrest ih =>
    have hei := hes _ mem_cons_self
    have hassoc := changeMerge_assoc hcol hw hx hy hrest.onKey hm hb he hmi hbi hei
    have hrec := ih (changeMerge_rel hcol hx hy hrest.onKey hb he) (changeMerge_flagged hbi hei)
      fun e he => hes e (mem_cons_of_mem _ he)
    rw [hassoc] at hrec
    exact hrec

end Merging

end SqlCipher.Changeset
