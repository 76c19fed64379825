import SqlCipher.Changeset.Conflict
import SqlCipher.Changeset.Describe
import SqlCipher.Changeset.Rebase

/-!
# Rebasing, seen from one row

A remote change that was recorded on a row is applied to the local row of the same key. `Meeting`
says what it does to both rows and what it leaves in the rebase buffer.

Columns are compared by their index: `r[i]?` is the value of a row in column `i`.
-/

namespace SqlCipher.Changeset

open List Option Entry

variable {N V : Type} {pk : List Bool} {r r' q : Row V} {i : Nat} {fields record : List (Option V)}
  {d : Bool}

theorem Kin.column (h : Kin pk r r') (i : Nat) :
    (pk[i]? = none ∧ r[i]? = none ∧ r'[i]? = none) ∨
      ∃ b u v, pk[i]? = some b ∧ r[i]? = some u ∧ r'[i]? = some v ∧ (b = true → u = v) := by
  induction h generalizing i with
  | nil => simp
  | key x _ ih =>
    cases i with
    | zero => simp
    | succ i => simpa using ih i
  | other x y _ ih =>
    cases i with
    | zero => simp
    | succ i => simpa using ih i

theorem Kin.column_of (h : Kin pk r r') (hb : pk[i]? = some b) :
    ∃ u v, r[i]? = some u ∧ r'[i]? = some v ∧ (b = true → u = v) := by
  rcases h.column i with ⟨hb', -⟩ | ⟨b', u, v, hb', h⟩
  · cases hb.symm.trans hb'
  · cases hb.symm.trans hb'
    exact ⟨u, v, h⟩

theorem Kin.changed (h : Kin pk r r') (hne : r[i]? ≠ r'[i]?) :
    pk[i]? = some false ∧ ∃ u v, r[i]? = some u ∧ r'[i]? = some v ∧ u ≠ v := by
  rcases h.column i with ⟨-, hr, hr'⟩ | ⟨b, u, v, hb, hr, hr', hkey⟩
  · exact absurd (hr.trans hr'.symm) hne
  · have huv : u ≠ v := by
      rintro rfl
      exact hne (hr.trans hr'.symm)
    cases b with
    | true => exact absurd (hkey rfl) huv
    | false => exact ⟨hb, u, v, hr, hr', huv⟩

theorem exists_column_ne (hne : r ≠ r') : ∃ i : Nat, r[i]? ≠ r'[i]? := by
  by_contra hsame
  exact hne (ext_getElem? fun i => by_contra fun hi => hsame ⟨i, hi⟩)

theorem holds_iff_getElem? (hlen : fields.length ≤ r.length) :
    Holds fields r ↔ ∀ (i : Nat) v, fields[i]? = some (some v) → r[i]? = some v := by
  induction fields generalizing r with
  | nil => simpa using .nil r
  | cons f fields ih =>
    obtain ⟨x, r, rfl⟩ : ∃ x r', r = x :: r' := by
      cases r with
      | nil => simp at hlen
      | cons x r => exact ⟨x, r, rfl⟩
    have hrec := ih (r := r) (by simpa using hlen)
    constructor
    · intro h i v hv
      cases i with
      | zero => cases h <;> simp_all
      | succ i =>
        cases h with
        | undef _ h => exact hrec.mp h i v (by simpa using hv)
        | value _ h => exact hrec.mp h i v (by simpa using hv)
    · intro h
      have hrest := hrec.mpr fun i v hv => by simpa using h (i + 1) v (by simpa using hv)
      cases f with
      | none => exact .undef x hrest
      | some v =>
        obtain rfl : x = v := by simpa using h 0 v rfl
        exact .value x hrest

theorem getElem?_nonKey (hb : pk[i]? = some b) (hf : fields[i]? = some f) :
    (nonKey pk fields)[i]? = some (if b then none else f) := by
  simp [nonKey, getElem?_zipWith, hb, hf]

theorem length_assign (pk : List Bool) (fields : List (Option V)) (r : Row V) :
    (Table.assign pk fields r).length = r.length := by
  induction pk generalizing fields r with
  | nil => rfl
  | cons b pk ih => cases fields <;> cases r <;> simp [Table.assign, ih]

theorem getElem?_assign (hb : pk[i]? = some b) (hf : fields[i]? = some f)
    (hv : r[i]? = some v) : (Table.assign pk fields r)[i]? = some (if b then v else f.getD v) := by
  induction pk generalizing fields r i with
  | nil => simp at hb
  | cons b' pk ih =>
    cases fields with
    | nil => simp at hf
    | cons f' fields =>
      cases r with
      | nil => simp at hv
      | cons v' r =>
        cases i with
        | zero => simp_all [Table.assign]
        | succ i =>
          have hrec := ih (r := r) (by simpa using hb) (by simpa using hf) (by simpa using hv)
          simpa [Table.assign] using hrec

theorem OnKey.of_kin (h : OnKey pk k (some r)) (hr : Kin pk r r') : OnKey pk k (some r') :=
  onKey_some hr.length_eq.2 (hr.keyFields_eq.symm.trans (h r rfl).2)

theorem getElem?_zip₂ {α β : Type} {l : List α} {l' : List β} {a : α} {b : β} (ha : l[i]? = some a)
    (hb : l'[i]? = some b) : (l.zip l')[i]? = some (a, b) :=
  getElem?_zip_eq_some.mpr ⟨ha, hb⟩

theorem getElem?_zipWith₂ {α β γ : Type} {f : α → β → γ} {l : List α} {l' : List β} {a : α} {b : β}
    (ha : l[i]? = some a) (hb : l'[i]? = some b) : (zipWith f l l')[i]? = some (f a b) := by
  simp [getElem?_zipWith, ha, hb]

section Diffs

variable [DecidableEq V] {b : Bool} {u v : V}

theorem getElem?_diffOld (hb : pk[i]? = some b) (hu : r[i]? = some u) (hv : r'[i]? = some v) :
    (diffOld pk r r')[i]? = some (if b || u != v then some u else none) := by
  rw [diffOld, getElem?_map, getElem?_zip₂ hb (getElem?_zip₂ hu hv)]
  rfl

theorem getElem?_diffNew (hb : pk[i]? = some b) (hu : r[i]? = some u) (hv : r'[i]? = some v) :
    (diffNew pk r r')[i]? = some (if !b && u != v then some v else none) := by
  rw [diffNew, getElem?_map, getElem?_zip₂ hb (getElem?_zip₂ hu hv)]
  rfl

def overlaid (pk : List Bool) (r r' q : Row V) : Row V := Table.assign pk (diffNew pk r r') q

theorem kin_overlaid (h : Kin pk r r') (hq : Kin pk r q) : Kin pk q (overlaid pk r r' q) := by
  induction h generalizing q with
  | nil =>
    cases hq
    exact .nil
  | key x _ ih =>
    cases hq with
    | key _ hq => exact .key x (ih hq)
  | other x y _ ih =>
    cases hq with
    | other _ z hq => exact .other z _ (ih hq)

theorem getElem?_overlaid (h : Kin pk r r') (hq : Kin pk r q) (i : Nat) :
    (overlaid pk r r' q)[i]? = if r[i]? = r'[i]? then q[i]? else r'[i]? := by
  rcases h.column i with ⟨hb, hu, hv⟩ | ⟨b, u, v, hb, hu, hv, hkey⟩
  · rcases hq.column i with ⟨-, -, hz⟩ | ⟨b, -, -, hb', -⟩
    · have hlen := (getElem?_eq_none_iff.mp hz)
      rw [if_pos (hu.trans hv.symm), hz, getElem?_eq_none_iff, overlaid, length_assign]
      exact hlen
    · cases hb.symm.trans hb'
  · obtain ⟨-, z, -, hz, -⟩ := hq.column_of hb
    rw [overlaid, getElem?_assign hb (getElem?_diffNew hb hu hv) hz, hu, hv, hz]
    cases b with
    | true => simp [hkey rfl]
    | false => by_cases huv : u = v <;> simp [huv]

theorem getElem?_overlaid_of_ne (h : Kin pk r r') (hq : Kin pk r q) (hne : r[i]? ≠ r'[i]?) :
    (overlaid pk r r' q)[i]? = r'[i]? := by
  rw [getElem?_overlaid h hq, if_neg hne]

/-- A row on which an UPDATE finds what it expects. -/
theorem holds_diffOld_iff (h : Kin pk r r') (hlen : q.length = pk.length) :
    Holds (nonKey pk (diffOld pk r r')) q ↔ ∀ i : Nat, r[i]? ≠ r'[i]? → q[i]? = r[i]? := by
  rw [holds_iff_getElem? (hlen ▸ length_nonKey_le _ _)]
  constructor
  · intro hq i hne
    obtain ⟨hb, u, v, hu, hv, huv⟩ := h.changed hne
    rw [hu]
    refine hq i u ?_
    rw [getElem?_nonKey hb (getElem?_diffOld hb hu hv)]
    simp [huv]
  · intro hq i w hw
    rcases h.column i with ⟨hb, -, -⟩ | ⟨b, u, v, hb, hu, hv, -⟩
    · simp [nonKey, getElem?_zipWith, hb] at hw
    · rw [getElem?_nonKey hb (getElem?_diffOld hb hu hv)] at hw
      cases b with
      | true => simp at hw
      | false =>
        have huv : u ≠ v := by
          rintro rfl
          simp at hw
        have hq' := hq i (by simp [hu, hv, huv])
        rw [hq', hu]
        simpa [huv] using hw

/-- The rebase record of an UPDATE: the key, and the columns that change. -/
def conflictRecord (pk : List Bool) (r r' : Row V) : List (Option V) :=
  zipWith (fun b (f : Option V × Option V) => if b then f.1 else f.2) pk
    ((diffOld pk r r').zip (diffNew pk r r'))

theorem getElem?_conflictRecord (hb : pk[i]? = some b) (hu : r[i]? = some u)
    (hv : r'[i]? = some v) : (conflictRecord pk r r')[i]? =
      some (if b then some u else if u = v then none else some v) := by
  rw [conflictRecord, getElem?_zipWith₂ hb
    (getElem?_zip₂ (getElem?_diffOld hb hu hv) (getElem?_diffNew hb hu hv))]
  cases b <;> by_cases huv : u = v <;> simp [huv]

end Diffs

section Meetings

variable [DecidableEq V]

/-- What a remote change does to the remote and to the local row, with the rebase record and the
answer of a conflict. -/
inductive Meeting (pk : List Bool) : Option (Row V) → Option (Row V) → Option (Row V) →
    Option (Row V) → Bool → List (Option V) → Option Bool → Prop
  | insertFits (r : Row V) : Meeting pk none (some r) none (some r) false (r.map some) none
  | insertOmit (r q : Row V) :
      Meeting pk none (some r) (some q) (some q) false (r.map some) (some false)
  | insertReplace (r q : Row V) :
      Meeting pk none (some r) (some q) (some r) false (r.map some) (some true)
  | deleteFits (r : Row V) : Meeting pk (some r) none (some r) none true (r.map some) none
  | deleteOmit (r : Row V) (y : Option (Row V)) (hne : y ≠ some r) :
      Meeting pk (some r) none y y true (r.map some) (some false)
  | deleteReplace (r q : Row V) (hne : q ≠ r) :
      Meeting pk (some r) none (some q) none true (r.map some) (some true)
  | updateFits (r r' q : Row V) (hne : r ≠ r') (h : ∀ i : Nat, r[i]? ≠ r'[i]? → q[i]? = r[i]?) :
      Meeting pk (some r) (some r') (some q) (some (overlaid pk r r' q)) false
        (conflictRecord pk r r') none
  | updateOmit (r r' : Row V) (y : Option (Row V)) (hne : r ≠ r')
      (h : ∀ q, y = some q → ∃ i : Nat, r[i]? ≠ r'[i]? ∧ q[i]? ≠ r[i]?) :
      Meeting pk (some r) (some r') y y false (conflictRecord pk r r') (some false)
  | updateReplace (r r' q : Row V) (hne : r ≠ r')
      (h : ∃ i : Nat, r[i]? ≠ r'[i]? ∧ q[i]? ≠ r[i]?) :
      Meeting pk (some r) (some r') (some q) (some (overlaid pk r r' q)) false
        (conflictRecord pk r r') (some true)

variable {e : Env N V} {A : V → Prop} {k : Key V} {x x' y y' : Option (Row V)} {E : Entry V}
  {o : Option Bool}

def Entry.conflict (pk : List Bool) (E : Entry V) : Bool × List (Option V) :=
  let c := RebaseEntry.of (⟨(), pk⟩ : Header Unit) false (E.change false pk)
  (c.isDelete, c.record)

theorem conflict_update (h : Kin pk r r') (i : Bool) :
    conflict pk ⟨.update, i, diffOld pk r r' ++ diffNew pk r r'⟩ =
      (false, conflictRecord pk r r') := by
  simp [conflict, RebaseEntry.of, h.updateRecord.change_eq, conflictRecord]

section Landing

variable (ht : e.table.Exact A)

include ht

theorem meeting_insert (hpk : e.pk = e.table.pk) (i : Bool) (hx' : OnKey e.pk k (some r))
    (h : e.Lands (change false e.pk ⟨.insert, i, r.map some⟩) y y' o) :
    Meeting e.pk none (some r) y y' false (r.map some) o := by
  have hdrop : e.table.dflt.drop r.length = [] := by
    rw [(hx' r rfl).1, hpk, ← ht.width, drop_length]
  have hnone : e.rowStep (change false e.pk ⟨.insert, i, r.map some⟩) none = some (some r) := by
    rw [rowStep_insert_none rfl]
    simp [change, hdrop]
  cases y with
  | none =>
    cases o with
    | none =>
      obtain rfl := Option.mem_unique hnone h
      exact .insertFits r
    | some b => exact absurd (hnone.symm.trans h.miss) (by simp)
  | some q =>
    cases o with
    | none => exact absurd ((rowStep_insert_some rfl q).symm.trans h) (by simp)
    | some b =>
      cases b with
      | false =>
        obtain ⟨-, rfl⟩ := h
        exact .insertOmit r q
      | true =>
        obtain ⟨-, -, rfl⟩ := h
        have hres : e.result (change false e.pk ⟨.insert, i, r.map some⟩) (some q) =
            some r := by simp [Env.result, change, hdrop]
        rw [hres]
        exact .insertReplace r q

theorem meeting_delete (i : Bool) (hpatch : e.patchset = false) (hx : OnKey e.pk k (some r))
    (hy : OnKey e.pk k y) (hA : Within A (some r)) (hAy : Within A y)
    (h : e.Lands (change false e.pk ⟨.delete, i, r.map some⟩) y y' o) :
    Meeting e.pk (some r) none y y' true (r.map some) o := by
  have hfits : ∀ q, y = some q → e.rowStep (change false e.pk ⟨.delete, i, r.map some⟩)
      (some q) = if r = q then some none else none := by
    intro q hq
    obtain ⟨hlen, hkey⟩ := hx r rfl
    obtain ⟨hlen', hkey'⟩ := hy q hq
    rw [rowStep_delete rfl]
    simp only [hpatch, change, Bool.false_or, defined_map_some, isSome_some,
      Bool.true_and, Bool.false_eq_true, if_false]
    refine if_congr ?_ rfl rfl
    refine ⟨fun hholds => eq_of_holds hlen hlen' (hkey.trans hkey'.symm) ?_, ?_⟩
    · refine (ht.holds_iff (hlen' ▸ length_nonKey_le _ _) (fun v hv => ?_) (hAy q hq)).mp hholds
      obtain ⟨w, hw, heq⟩ := mem_map.mp (mem_of_mem_nonKey hv (by simp))
      exact some.inj heq ▸ hA r rfl w hw
    · rintro rfl
      exact ht.holds_of_holds (holds_nonKey_row r hlen) (hA r rfl)
  cases o with
  | none =>
    cases y with
    | none => exact absurd ((rowStep_none (by simp [change])).symm.trans h) (by simp)
    | some q =>
      have hstep := (hfits q rfl).symm.trans h
      obtain ⟨rfl, hy'⟩ := ite_none_right_eq_some.mp hstep
      rw [← some.inj hy']
      exact .deleteFits r
  | some b =>
    have hne : y ≠ some r := by
      rintro rfl
      have hstep := hfits r rfl
      rw [if_pos rfl] at hstep
      exact absurd (hstep.symm.trans h.miss) (by simp)
    cases b with
    | false =>
      obtain ⟨-, rfl⟩ := h
      exact .deleteOmit r _ hne
    | true =>
      obtain ⟨-, hsome, rfl⟩ := h
      obtain ⟨q, rfl⟩ := isSome_iff_exists.mp hsome
      exact .deleteReplace r q (by simpa using hne)

theorem meeting_update (i : Bool) (hpatch : e.patchset = false) (hx : OnKey e.pk k (some r))
    (hx' : OnKey e.pk k (some r')) (hy : OnKey e.pk k y) (hA : Within A (some r)) (hAy : Within A y)
    (hne : r ≠ r')
    (h : e.Lands (change false e.pk ⟨.update, i, diffOld e.pk r r' ++ diffNew e.pk r r'⟩) y y' o) :
    Meeting e.pk (some r) (some r') y y' false (conflictRecord e.pk r r') o := by
  have hkin : Kin e.pk r r' := hx.kin hx'
  rw [hkin.updateRecord.change_eq rfl] at h
  have hcond : ∀ q, y = some q →
      (e.rowStep ⟨.update, diffOld e.pk r r', diffNew e.pk r r'⟩ (some q) =
      if e.table.holds (nonKey e.pk (diffOld e.pk r r')) q then some (some (overlaid e.pk r r' q))
      else none) ∧ (e.table.holds (nonKey e.pk (diffOld e.pk r r')) q = true ↔
        ∀ i : Nat, r[i]? ≠ r'[i]? → q[i]? = r[i]?) := by
    intro q hq
    obtain ⟨hlen, -⟩ := hy q hq
    rw [rowStep_update rfl, nonKey_diffNew_sets hkin hne, hpatch, Bool.not_false, Bool.true_and,
      Bool.false_or]
    refine ⟨rfl, ?_⟩
    rw [← holds_diffOld_iff hkin hlen]
    refine ht.holds_iff (hlen ▸ length_nonKey_le _ _) (fun v hv => ?_) (hAy q hq)
    have hmem := mem_of_mem_nonKey hv (by simp)
    simp only [diffOld, List.mem_map] at hmem
    obtain ⟨c, hc, heq⟩ := hmem
    have hv : c.2.1 = v := by
      split at heq
      · exact some.inj heq
      · cases heq
    rw [← hv]
    exact hA r rfl _ (of_mem_zip (of_mem_zip hc).2).1
  cases o with
  | none =>
    cases y with
    | none => exact absurd ((rowStep_none (by simp)).symm.trans h) (by simp)
    | some q =>
      obtain ⟨hstep, hiff⟩ := hcond q rfl
      obtain ⟨hholds, hy'⟩ := ite_none_right_eq_some.mp (hstep.symm.trans h)
      rw [← some.inj hy']
      exact .updateFits r r' q hne (hiff.mp hholds)
  | some b =>
    have hmiss : ∀ q, y = some q → ∃ i : Nat, r[i]? ≠ r'[i]? ∧ q[i]? ≠ r[i]? := by
      intro q hq
      obtain ⟨hstep, hiff⟩ := hcond q hq
      have hnone : e.rowStep ⟨.update, diffOld e.pk r r', diffNew e.pk r r'⟩ (some q) = none := by
        rw [← hq]
        exact h.miss
      by_contra hall
      have hholds := hiff.mpr fun i hi => by_contra fun hq => hall ⟨i, hi, hq⟩
      rw [hstep, if_pos hholds] at hnone
      cases hnone
    cases b with
    | false =>
      obtain ⟨-, rfl⟩ := h
      exact .updateOmit r r' _ hne hmiss
    | true =>
      obtain ⟨-, hsome, rfl⟩ := h
      obtain ⟨q, rfl⟩ := isSome_iff_exists.mp hsome
      exact .updateReplace r r' q hne (hmiss q rfl)

end Landing

/-- A change that lands on the local row, where it describes what became of the remote row. -/
theorem Describes.meeting (ht : e.table.Exact A) (hpk : e.pk = e.table.pk)
    (hpatch : e.patchset = false) (hx : OnKey e.pk k x) (hx' : OnKey e.pk k x')
    (hy : OnKey e.pk k y) (hA : Within A x) (hAy : Within A y) (hE : Describes e.pk false x x' E)
    (h : e.Lands (E.change false e.pk) y y' o) :
    Meeting e.pk x x' y y' (E.conflict e.pk).1 (E.conflict e.pk).2 o := by
  cases hE with
  | insert r i => exact meeting_insert ht hpk i hx' h
  | delete r i => exact meeting_delete ht i hpatch hx hy hA hAy h
  | update r r' i hkind hne =>
    rw [conflict_update (hx.kin hx')]
    exact meeting_update ht i hpatch hx hx' hy hA hAy hne h
  | patch => contradiction

/-- Where the local row is the remote one, there is no conflict. -/
theorem Meeting.of_eq (h : Meeting pk x x' x y' d record o) (hx : OnKey pk k x)
    (hx' : OnKey pk k x') : o = none ∧ y' = x' := by
  cases h with
  | insertFits r => exact ⟨rfl, rfl⟩
  | deleteFits r => exact ⟨rfl, rfl⟩
  | deleteOmit r _ hne => exact absurd rfl hne
  | deleteReplace r _ hne => exact absurd rfl hne
  | updateFits r r' _ _ _ => exact ⟨rfl, congrArg some (assign_diffNew (hx.kin hx'))⟩
  | updateOmit r r' _ _ h =>
    obtain ⟨i, -, hi⟩ := h r rfl
    exact absurd rfl hi
  | updateReplace r r' _ _ h =>
    obtain ⟨i, -, hi⟩ := h
    exact absurd rfl hi

/-- The local row stays, becomes the remote one or gets the changes of the remote one. -/
theorem Meeting.local_cases (h : Meeting pk x x' y y' d record o) : y' = y ∨ y' = x' ∨
    ∃ r r' q, x = some r ∧ x' = some r' ∧ y = some q ∧ y' = some (overlaid pk r r' q) := by
  cases h with
  | insertFits | insertReplace | deleteFits | deleteReplace => exact .inr (.inl rfl)
  | insertOmit | deleteOmit | updateOmit => exact .inl rfl
  | updateFits r r' q | updateReplace r r' q => exact .inr (.inr ⟨r, r', q, rfl, rfl, rfl, rfl⟩)

theorem Meeting.onKey (h : Meeting pk x x' y y' d record o) (hx : OnKey pk k x)
    (hx' : OnKey pk k x') (hy : OnKey pk k y) : OnKey pk k y' := by
  obtain rfl | rfl | ⟨r, r', q, rfl, rfl, rfl, rfl⟩ := h.local_cases
  · exact hy
  · exact hx'
  · exact hy.of_kin (kin_overlaid (hx.kin hx') (hx.kin hy))

theorem Meeting.within (h : Meeting pk x x' y y' d record o) (hx' : Within A x') (hy : Within A y) :
    Within A y' := by
  obtain rfl | rfl | ⟨r, r', q, rfl, rfl, rfl, rfl⟩ := h.local_cases
  · exact hy
  · exact hx'
  · intro z hz v hv
    rw [← some.inj hz] at hv
    rcases mem_assign hv with hv | hv
    · exact hy q rfl v hv
    · simp only [diffNew, List.mem_map] at hv
      obtain ⟨c, hc, heq⟩ := hv
      split at heq
      · rw [← some.inj heq]
        exact hx' r' rfl _ (of_mem_zip (of_mem_zip hc).2).2
      · cases heq

end Meetings

end SqlCipher.Changeset
