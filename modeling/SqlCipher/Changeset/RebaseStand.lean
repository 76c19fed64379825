import SqlCipher.Changeset.RebaseRow

/-!
# What the rebaser knows about a row

The local changeset makes a row `x₀` to `y₀`. Remote changesets make it `x`, and the local row, on
which they are applied, becomes `y`. `Stand` says how the two rows and the change of the rebaser go
together. Remote changes keep it while conflicts are answered OMIT and no later change gets by
without one, or one conflict is answered REPLACE. The rebased change can then be applied to `x`.
-/

namespace SqlCipher.Changeset

open Function Option List Entry Changeset.Field

variable {N V : Type} {pk : List Bool} {r r' q : Row V} {i : Nat} {c indirect : Bool} {P P' : Prop}
  {u v : Option V}

/-! ## Records of the rebaser -/

section Records

variable {b replace : Bool} {g : Option V} {φ : Field V} {record : List (Option V)}
  {f : List (Field V)}

theorem getElem?_firstRecord (hb : pk[i]? = some b) (hg : record[i]? = some g) :
    (firstRecord pk replace record)[i]? =
      some (if g.isSome && !b && replace then .replaced else .of g) :=
  getElem?_zipWith₂ hb hg

theorem getElem?_nextRecord (hb : pk[i]? = some b) (hφ : f[i]? = some φ)
    (hg : record[i]? = some g) : (nextRecord pk replace f record)[i]? = some (φ.next b replace g) :=
  getElem?_zipWith₂ hb (getElem?_zip₂ hφ hg)

theorem firstRecord_row (hlen : r.length = pk.length) :
    firstRecord pk false (r.map some) = r.map .value := by
  induction r, pk, hlen using sameLength with
  | nil => rfl
  | cons x r b pk hlen ih => simpa [firstRecord, of] using ih

theorem nextRecord_row (hlen : r.length = pk.length) (hf : f.length = pk.length)
    (hclean : .replaced ∉ f) : nextRecord pk false f (r.map some) = r.map .value := by
  induction r, pk, hlen using sameLength generalizing f with
  | nil => rfl
  | cons x r b pk hlen ih =>
    obtain ⟨φ, f, rfl⟩ := exists_cons_of_length_eq_add_one hf
    simp only [mem_cons, not_or] at hclean
    have hrec := ih (by simpa using hf) hclean.2
    cases φ with
    | replaced => exact absurd rfl hclean.1
    | undefined => simpa [nextRecord, Field.next] using hrec
    | value v => simpa [nextRecord, Field.next] using hrec

theorem replaced_not_mem_firstRecord : .replaced ∉ firstRecord pk false record := by
  rw [firstRecord, ← map_uncurry_zip_eq_zipWith, List.mem_map]
  rintro ⟨⟨b, g⟩, -, h⟩
  cases g <;> simp [uncurry_apply_pair, of] at h

theorem replaced_not_mem_nextRecord (hclean : .replaced ∉ f) :
    .replaced ∉ nextRecord pk false f record := by
  rw [nextRecord, ← map_uncurry_zip_eq_zipWith, List.mem_map]
  rintro ⟨⟨b, φ, g⟩, hmem, h⟩
  cases φ with
  | replaced => exact hclean (of_mem_zip (of_mem_zip hmem).2).1
  | undefined => cases g <;> simp [uncurry_apply_pair, Field.next] at h
  | value v => cases g <;> simp [uncurry_apply_pair, Field.next] at h

theorem length_firstRecord (h : record.length = pk.length) :
    (firstRecord pk replace record).length = pk.length := by
  simp [firstRecord, h]

theorem length_nextRecord (hf : f.length = pk.length) (h : record.length = pk.length) :
    (nextRecord pk replace f record).length = pk.length := by
  simp [nextRecord, hf, h]

theorem length_conflictRecord [DecidableEq V] (h : Kin pk r r') :
    (conflictRecord pk r r').length = pk.length := by
  simp [conflictRecord, h.length_diffOld, h.length_diffNew]

theorem nextRecord_conflictRecord [DecidableEq V] (h : Kin pk r r') :
    nextRecord pk false (r.map .value) (conflictRecord pk r r') = r'.map .value := by
  induction h with
  | nil => rfl
  | key x _ ih => simpa [nextRecord, conflictRecord, diffOld, diffNew, Field.next] using ih
  | other x y _ ih =>
    by_cases hxy : x = y <;>
      simpa [nextRecord, conflictRecord, diffOld, diffNew, Field.next, hxy] using ih

end Records

/-! ## The invariant -/

section Marks

/-- A column that the local change takes from `a` to `b`, where the rows have `x` and `y`. -/
def Field.Marks (O : Prop) (indirect : Bool) (a b x y : Option V) : Option (Field V) → Prop
  | some .undefined => x = a ∧ y = b
  | some (.value v) => indirect = false ∧ x = some v ∧ y = b
  | some .replaced => indirect = true ∧ O
  | none => False

variable {x y : Option V} {φ : Option (Field V)}

/-- What the local row has in a column that no conflict was answered REPLACE on. -/
theorem Field.Marks.local_eq (h : Marks P false u v x y φ) : y = v := by
  match φ, h with
  | some .undefined, h => exact h.2
  | some (.value _), h => exact h.2.2

variable (h : Marks P indirect u v x y φ)

include h

theorem Field.Marks.mono (hP : P → P') : Marks P' indirect u v x y φ := by
  match φ, h with
  | some .undefined, h => exact h
  | some (.value _), h => exact h
  | some .replaced, h => exact ⟨h.1, hP h.2⟩

/-- What the local row has in a column that was not overridden. -/
theorem Field.Marks.of_not (hP : ¬P) : φ ≠ some .replaced ∧ y = v := by
  match φ, h with
  | some .undefined, h => exact ⟨nofun, h.2⟩
  | some (.value _), h => exact ⟨nofun, h.2.2⟩
  | some .replaced, h => exact absurd h.2 hP

end Marks

section Stands

/-- After a conflict answered REPLACE there is none, after one answered OMIT there are only such. -/
def Orderly (ρ : Option (RebaseChange V)) (o : Option Bool) : Prop :=
  ∀ c, ρ = some c → o = if c.indirect then none else some false

theorem not_orderly {c : RebaseChange V} (h : Orderly (some c) o)
    (hne : o ≠ if c.indirect then none else some false) : P :=
  absurd (h c rfl) hne

theorem exists_getElem? (hr : r.length = pk.length) (hb : pk[i]? = some c) : ∃ v, r[i]? = some v :=
  ⟨_, List.getElem?_eq_getElem (hr ▸ (List.getElem?_eq_some_iff.mp hb).1)⟩

/-- A column in which the rows differ is not changed by a remote UPDATE that was let through. -/
theorem keep_of_fits (hfit : r[i]? ≠ r'[i]? → q[i]? = r[i]?) (hne : r[i]? ≠ q[i]?) :
    r[i]? = r'[i]? := by
  by_contra h
  exact hne (hfit h).symm

variable [DecidableEq V]

/-- The remote row `x`, the local row `y` and the change of the rebaser. The local change `E` led
from `x₀` to `y₀`; a REPLACE overrode the columns `O`. -/
inductive Stand (pk : List Bool) (O : Nat → Prop) (E : Entry V) : Option (Row V) →
    Option (Row V) → Option (Row V) → Option (Row V) → Option (RebaseChange V) → Prop
  | dropped (x₀ y₀ x : Option (Row V)) (c : RebaseChange V)
      (h : rebaseEntry pk E (some c) = none) : Stand pk O E x₀ y₀ x x (some c)
  | insertNew (b : Row V) : Stand pk O E none (some b) none (some b) none
  | insertMet (b r : Row V) :
      Stand pk O E none (some b) (some r) (some b) (some ⟨false, false, r.map .value⟩)
  | insertAway (b q : Row V) (hq : q.length = pk.length) :
      Stand pk O E none (some b) none (some b) (some ⟨true, false, q.map .value⟩)
  | deleteOld (a : Row V) : Stand pk O E (some a) none (some a) none none
  | deleteMet (a r : Row V) (f : List (Field V))
      (h : ∀ i : Nat, r[i]? = f[i]?.bind fun
        | .undefined => a[i]?
        | .value v => some v
        | .replaced => none) :
      Stand pk O E (some a) none (some r) none (some ⟨false, false, f⟩)
  | updateOld (a b x y : Row V) (h : ∀ i : Nat, a[i]? ≠ b[i]? → x[i]? = a[i]? ∧ y[i]? = b[i]?)
      (hsame : ∀ i : Nat, a[i]? = b[i]? → x[i]? = y[i]?) :
      Stand pk O E (some a) (some b) (some x) (some y) none
  | updateMet (a b x y : Row V) (indirect : Bool) (f : List (Field V)) (hf : f.length = pk.length)
      (hclean : indirect = false → .replaced ∉ f)
      (h : ∀ i : Nat, a[i]? ≠ b[i]? → Marks (O i) indirect a[i]? b[i]? x[i]? y[i]? f[i]?) :
      Stand pk O E (some a) (some b) (some x) (some y) (some ⟨false, indirect, f⟩)
  | updateAway (a b r y : Row V) (hr : Kin pk a r)
      (h : ∀ i : Nat, a[i]? ≠ b[i]? → y[i]? = b[i]?) :
      Stand pk O E (some a) (some b) none (some y) (some ⟨true, false, r.map .value⟩)

def book (pk : List Bool) (ρ : Option (RebaseChange V)) (isDelete : Bool)
    (record : List (Option V)) (o : Option Bool) : Option (RebaseChange V) :=
  o.elim ρ fun replace =>
    rebaseMerge pk ρ (⟨⟨(), pk⟩, isDelete, replace, record⟩ : RebaseEntry Unit V)

variable {k : Key V} {x₀ y₀ x x' y y' : Option (Row V)} {E : Entry V} {o : Option Bool}
  {ρ : Option (RebaseChange V)} {d : Bool} {record : List (Option V)} {O O' : Nat → Prop}
  {a b : Row V} {j : Bool}

omit [DecidableEq V] in
theorem book_none (hr : r.length = pk.length) (d : Bool) :
    book pk none d (r.map some) (some false) = some ⟨d, false, r.map .value⟩ := by
  simp [book, rebaseMerge, firstRecord_row hr]

omit [DecidableEq V] in
theorem book_some (hr : r.length = pk.length) (hf : f.length = pk.length)
    (hclean : .replaced ∉ f) (c d : Bool) :
    book pk (some ⟨c, false, f⟩) d (r.map some) (some false) = some ⟨d, false, r.map .value⟩ := by
  simp [book, rebaseMerge, nextRecord_row hr hf hclean]

theorem Stand.step_insert (h : Stand pk O ⟨.insert, j, b.map some⟩ none (some b) x y ρ)
    (hx : OnKey pk k x) (hx' : OnKey pk k x') (hm : Meeting pk x x' y y' d record o)
    (horder : Orderly ρ o) :
    Stand pk O' ⟨.insert, j, b.map some⟩ none (some b) x' y' (book pk ρ d record o) := by
  cases h with
  | dropped _ _ _ c h =>
    obtain ⟨rfl, rfl⟩ := hm.of_eq hx hx'
    exact .dropped _ _ _ c h
  | insertNew _ =>
    cases hm with
    | insertOmit r _ => exact book_none (hx' r rfl).1 false ▸ .insertMet b r
    | insertReplace r _ => exact .dropped _ _ _ _ rfl
  | insertMet _ r =>
    cases hm with
    | deleteFits _ => exact not_orderly horder nofun
    | deleteOmit _ _ _ =>
      have hr := (hx r rfl).1
      rw [book_some hr (by simpa using hr) (by simp)]
      exact .insertAway b r hr
    | deleteReplace _ _ _ => exact not_orderly horder nofun
    | updateFits _ r' _ _ _ => exact not_orderly horder nofun
    | updateOmit _ r' _ _ _ =>
      have hbook : book pk (some ⟨false, false, r.map .value⟩) false (conflictRecord pk r r')
          (some false) = some ⟨false, false, r'.map .value⟩ := by
        simp [book, rebaseMerge, nextRecord_conflictRecord (hx.kin hx')]
      exact hbook ▸ .insertMet b r'
    | updateReplace _ r' _ _ _ => exact not_orderly horder nofun
  | insertAway _ q hq =>
    cases hm with
    | insertOmit r _ =>
      rw [book_some (hx' r rfl).1 (by simpa using hq) (by simp)]
      exact .insertMet b r
    | insertReplace r _ => exact not_orderly horder nofun

theorem Stand.step_delete (h : Stand pk O ⟨.delete, j, a.map some⟩ (some a) none x y ρ)
    (hx : OnKey pk k x) (hx' : OnKey pk k x') (hm : Meeting pk x x' y y' d record o) :
    Stand pk O' ⟨.delete, j, a.map some⟩ (some a) none x' y' (book pk ρ d record o) := by
  cases h with
  | dropped _ _ _ c h =>
    obtain ⟨rfl, rfl⟩ := hm.of_eq hx hx'
    exact .dropped _ _ _ c h
  | deleteOld _ =>
    cases hm with
    | deleteOmit _ _ _ => exact .dropped _ _ _ _ rfl
    | updateOmit _ r' _ _ _ =>
      refine .deleteMet a r' _ fun i => ?_
      rcases (hx.kin hx').column i with ⟨hb, -, hv⟩ | ⟨b, u, v, hb, hu, hv, hkey⟩
      · simp [firstRecord, List.getElem?_zipWith, hb, hv]
      · rw [getElem?_firstRecord hb (getElem?_conflictRecord hb hu hv), hv]
        cases b with
        | true => simp [hkey rfl, of]
        | false => by_cases huv : u = v <;> simp [of, huv, hu]
  | deleteMet _ r f h =>
    cases hm with
    | deleteOmit _ _ _ => exact .dropped _ _ _ _ rfl
    | updateOmit _ r' _ _ _ =>
      refine .deleteMet a r' _ fun i => ?_
      rcases (hx.kin hx').column i with ⟨hb, -, hv⟩ | ⟨b, u, v, hb, hu, hv, hkey⟩
      · simp [nextRecord, List.getElem?_zipWith, hb, hv]
      · have hf := h i
        rw [hu] at hf
        obtain ⟨φ, hφ, hval⟩ := bind_eq_some_iff.mp hf.symm
        rw [getElem?_nextRecord hb hφ (getElem?_conflictRecord hb hu hv), hv]
        cases φ with
        | replaced => cases hval
        | undefined =>
          cases b with
          | true => simp [hkey rfl, Field.next]
          | false => by_cases huv : u = v <;> simp [Field.next, huv, hval]
        | value w =>
          cases b with
          | true => simp [hkey rfl, Field.next]
          | false =>
            by_cases huv : u = v
            · simp_all [Field.next]
            · simp [Field.next, huv]

theorem marks_firstRecord {replace : Bool} (h : Kin pk r r') (hb : pk[i]? = some false)
    (hu : r[i]? = u) (hv : q[i]? = v)
    (hP : replace = true → ∀ v, (conflictRecord pk r r')[i]? = some (some v) → P) :
    Marks P replace u v r'[i]?
      (if replace then if r[i]? = r'[i]? then q[i]? else r'[i]? else q[i]?)
      (firstRecord pk replace (conflictRecord pk r r'))[i]? := by
  obtain ⟨w, w', hw, hw', -⟩ := h.column_of hb
  have hrec := getElem?_conflictRecord hb hw hw'
  rw [getElem?_firstRecord hb hrec]
  by_cases hww : w = w'
  · cases replace <;> simp_all [of, Marks]
  · cases replace with
    | false => simp_all [of, Marks]
    | true =>
      simp only [hww, if_false] at hrec
      simpa [hww, of, Marks] using hP rfl w' hrec

theorem marks_nextRecord (h : Kin pk r r') (hb : pk[i]? = some false)
    (hf : Marks P false u v r[i]? q[i]? f[i]?) :
    Marks P' false u v r'[i]? q[i]?
      (nextRecord pk false f (conflictRecord pk r r'))[i]? := by
  obtain ⟨w, w', hw, hw', -⟩ := h.column_of hb
  cases hφ : f[i]? with
  | none => simp [hφ, Marks] at hf
  | some φ =>
    rw [getElem?_nextRecord hb hφ (getElem?_conflictRecord hb hw hw')]
    rw [hφ, hw] at hf
    rw [hw']
    cases φ with
    | replaced => exact absurd hf.1 nofun
    | undefined => by_cases hww : w = w' <;> simp_all [Field.next, Marks]
    | value z => by_cases hww : w = w' <;> simp_all [Field.next, Marks]

theorem Field.Marks.fits (h : Kin pk r r') (hq : Kin pk r q)
    (hfit : r[i]? ≠ r'[i]? → q[i]? = r[i]?) (huv : u ≠ v) (hP : P → P')
    (hφ : Marks P true u v r[i]? q[i]? φ) :
    Marks P' true u v r'[i]? (overlaid pk r r' q)[i]? φ := by
  rw [getElem?_overlaid h hq]
  match φ, hφ with
  | some .undefined, hφ =>
    have hkeep := keep_of_fits hfit (by rwa [hφ.1, hφ.2])
    rw [if_pos hkeep, ← hkeep]
    exact hφ
  | some .replaced, hφ => exact ⟨rfl, hP hφ.2⟩

theorem any_kept_iff {f : List (Field V)} (hab : Kin pk a b) (hf : f.length = pk.length) :
    ((pk.zip ((diffOld pk a b).zip f)).any fun c =>
      !c.1 && c.2.1.isSome && c.2.2 ≠ .replaced) = true ↔
      ∃ i : Nat, a[i]? ≠ b[i]? ∧ f[i]? ≠ some .replaced := by
  rw [List.any_eq_true]
  constructor
  · rintro ⟨⟨c, g, φ⟩, hmem, hkept⟩
    obtain ⟨i, hget⟩ := mem_iff_getElem?.mp hmem
    obtain ⟨hc, hget⟩ := List.getElem?_zip_eq_some.mp hget
    obtain ⟨hg, hφ⟩ := List.getElem?_zip_eq_some.mp hget
    simp only [Bool.and_eq_true, Bool.not_eq_true', decide_eq_true_eq] at hkept
    obtain ⟨⟨rfl, hsome⟩, hne⟩ := hkept
    refine ⟨i, fun heq => ?_, fun h => hne (Option.mem_unique hφ h)⟩
    obtain ⟨u, v, hu, hv, -⟩ := hab.column_of hc
    obtain rfl : u = v := some.inj (hu.symm.trans (heq.trans hv))
    rw [getElem?_diffOld hc hu hv] at hg
    obtain rfl : none = g := by simpa using hg
    cases hsome
  · rintro ⟨i, hi, hφ⟩
    obtain ⟨hb, u, v, hu, hv, huv⟩ := hab.changed hi
    obtain ⟨φ, hfi⟩ := exists_getElem? hf hb
    have hne : φ ≠ .replaced := fun h => hφ (h ▸ hfi)
    refine ⟨_, mem_of_getElem? (getElem?_zip₂ hb (getElem?_zip₂
      (getElem?_diffOld hb hu hv) hfi)), ?_⟩
    simp [huv, hne]

theorem partialUpdate_eq_none_iff {f : List (Field V)} (hab : Kin pk a b)
    (hf : f.length = pk.length) :
    partialUpdate pk f ⟨.update, j, diffOld pk a b ++ diffNew pk a b⟩ = none ↔
      ∀ i : Nat, a[i]? ≠ b[i]? → f[i]? = some .replaced := by
  simp only [partialUpdate, take_left' hab.length_diffOld, ite_eq_right_iff, reduceCtorEq,
    imp_false, any_kept_iff hab hf, not_exists, not_and, not_not]

theorem Stand.step_update (hx₀ : OnKey pk k (some a)) (hy₀ : OnKey pk k (some b)) (hne : a ≠ b)
    (h : Stand pk O ⟨.update, j, diffOld pk a b ++ diffNew pk a b⟩ (some a) (some b) x y ρ)
    (hx : OnKey pk k x) (hx' : OnKey pk k x') (hy : OnKey pk k y)
    (hm : Meeting pk x x' y y' d record o) (horder : Orderly ρ o) (hO : ∀ i, O i → O' i)
    (hrep : o = some true → ∀ i, d = true ∨ (∃ v, record[i]? = some (some v)) → O' i) :
    Stand pk O' ⟨.update, j, diffOld pk a b ++ diffNew pk a b⟩ (some a) (some b) x' y'
      (book pk ρ d record o) := by
  have hab : Kin pk a b := hx₀.kin hy₀
  cases h with
  | dropped _ _ _ c h =>
    obtain ⟨rfl, rfl⟩ := hm.of_eq hx hx'
    exact .dropped _ _ _ c h
  | updateOld _ _ x y h hsame =>
    cases hm with
    | deleteFits _ =>
      obtain ⟨i, hi⟩ := exists_column_ne hne
      exact absurd ((h i hi).1.symm.trans (h i hi).2) hi
    | deleteOmit _ _ _ =>
      rw [book_none (hx x rfl).1]
      exact .updateAway a b x y (hx₀.kin hx) fun i hi => (h i hi).2
    | deleteReplace _ _ _ => exact .dropped _ _ _ _ rfl
    | updateFits _ r' _ _ hfit =>
      have hover := getElem?_overlaid (hx.kin hx') (hx.kin hy)
      refine .updateOld a b r' (overlaid pk x r' y) (fun i hi => ?_) fun i hi => ?_
      · obtain ⟨hxa, hyb⟩ := h i hi
        have hkeep := keep_of_fits (hfit i) (by rwa [hxa, hyb])
        rw [hover, if_pos hkeep, ← hkeep]
        exact ⟨hxa, hyb⟩
      · rw [hover, ← hsame i hi]
        split
        · exact Eq.symm ‹_›
        · rfl
    | updateOmit _ r' _ _ _ =>
      refine .updateMet a b r' y false _ ?_ (fun _ => replaced_not_mem_firstRecord) fun i hi => ?_
      · exact length_firstRecord (length_conflictRecord (hx.kin hx'))
      · exact marks_firstRecord (hx.kin hx') (hab.changed hi).1 (h i hi).1 (h i hi).2 nofun
    | updateReplace _ r' _ _ _ =>
      refine .updateMet a b r' _ true _ ?_ nofun fun i hi => ?_
      · exact length_firstRecord (length_conflictRecord (hx.kin hx'))
      · rw [getElem?_overlaid (hx.kin hx') (hx.kin hy)]
        exact marks_firstRecord (hx.kin hx') (hab.changed hi).1 (h i hi).1 (h i hi).2
          fun _ v hv => hrep rfl i (.inr ⟨v, hv⟩)
  | updateMet _ _ x y ind f hf hclean h =>
    cases hm with
    | deleteFits _ =>
      have hind : ind = true := by simpa using horder _ rfl
      refine .dropped _ _ _ _ ((partialUpdate_eq_none_iff hab hf).mpr fun i hi => ?_)
      have hi' := h i hi
      match hφ : f[i]? with
      | none => simp [hφ, Marks] at hi'
      | some .replaced => rfl
      | some .undefined =>
        rw [hφ] at hi'
        exact absurd (hi'.1.symm.trans hi'.2) hi
      | some (.value v) =>
        rw [hφ] at hi'
        exact absurd (hind.symm.trans hi'.1) nofun
    | deleteOmit _ _ _ =>
      obtain rfl : ind = false := by simpa using horder _ rfl
      rw [book_some (hx x rfl).1 hf (hclean rfl)]
      exact .updateAway a b x y (hx₀.kin hx) fun i hi => (h i hi).local_eq
    | deleteReplace _ _ _ => exact not_orderly horder (by cases ind <;> nofun)
    | updateFits _ r' _ _ hfit =>
      obtain rfl : ind = true := by simpa using horder _ rfl
      exact .updateMet a b r' _ true f hf nofun fun i hi =>
        (h i hi).fits (hx.kin hx') (hx.kin hy) (hfit i) hi (hO i)
    | updateOmit _ r' _ _ _ =>
      obtain rfl : ind = false := by simpa using horder _ rfl
      refine .updateMet a b r' y false _ ?_
        (fun _ => replaced_not_mem_nextRecord (hclean rfl)) fun i hi => ?_
      · exact length_nextRecord hf (length_conflictRecord (hx.kin hx'))
      · exact marks_nextRecord (hx.kin hx') (hab.changed hi).1 (h i hi)
    | updateReplace _ r' _ _ _ => exact not_orderly horder (by cases ind <;> nofun)
  | updateAway _ _ q y hq h =>
    cases hm with
    | insertOmit r _ =>
      rw [book_some (hx' r rfl).1 (by simpa using hq.length_eq.2) (by simp)]
      refine .updateMet a b r y false _ (by simpa using (hx' r rfl).1) (by simp) fun i hi => ?_
      obtain ⟨w, hw⟩ := exists_getElem? (hx' r rfl).1 (hab.changed hi).1
      rw [List.getElem?_map, hw]
      exact ⟨rfl, rfl, h i hi⟩
    | insertReplace r _ => exact not_orderly horder nofun

/-- Before there are remote changes. -/
theorem Describes.stand (hE : Describes pk false x₀ y₀ E) : Stand pk O E x₀ y₀ x₀ y₀ none := by
  cases hE with
  | insert b j => exact .insertNew b
  | delete a j => exact .deleteOld a
  | update a b j hkind hne => exact .updateOld a b a b (fun _ _ => ⟨rfl, rfl⟩) fun _ h => h
  | patch => contradiction

theorem Stand.mono (h : Stand pk O E x₀ y₀ x y ρ) (hO : ∀ i, O i → O' i) :
    Stand pk O' E x₀ y₀ x y ρ := by
  cases h with
  | dropped _ _ _ c h => exact .dropped _ _ _ c h
  | insertNew b => exact .insertNew b
  | insertMet b r => exact .insertMet b r
  | insertAway b q hq => exact .insertAway b q hq
  | deleteOld a => exact .deleteOld a
  | deleteMet a r f h => exact .deleteMet a r f h
  | updateOld a b x y h hsame => exact .updateOld a b x y h hsame
  | updateMet a b x y indirect f hf hclean h =>
    exact .updateMet a b x y indirect f hf hclean fun i hi => (h i hi).mono (hO i)
  | updateAway a b r y hr h => exact .updateAway a b r y hr h

/-- One more remote change. -/
theorem Stand.step (h : Stand pk O E x₀ y₀ x y ρ) (hE : Describes pk false x₀ y₀ E)
    (hx₀ : OnKey pk k x₀) (hy₀ : OnKey pk k y₀) (hx : OnKey pk k x) (hx' : OnKey pk k x')
    (hy : OnKey pk k y) (hm : Meeting pk x x' y y' d record o) (horder : y₀ ≠ none → Orderly ρ o)
    (hO : ∀ i, O i → O' i)
    (hrep : o = some true → ∀ i, d = true ∨ (∃ v, record[i]? = some (some v)) → O' i) :
    Stand pk O' E x₀ y₀ x' y' (book pk ρ d record o) := by
  cases hE with
  | insert b j => exact h.step_insert hx hx' hm (horder nofun)
  | delete a j => exact h.step_delete hx hx' hm
  | update a b j hkind hne =>
    exact h.step_update hx₀ hy₀ hne hx hx' hy hm (horder nofun) hO hrep
  | patch => contradiction

end Stands

/-! ## The local change, rebased -/

/-- The entry can be applied to the row `x` with the key `k`, which becomes `z`. -/
structure Env.Does (e : Env N V) (k : Key V) (E : Entry V) (x z : Option (Row V)) : Prop where
  readable : E.Readable e.patchset e.pk
  key : e.key (E.change e.patchset e.pk) = some (e.table.norm k)
  step : e.rowStep (E.change e.patchset e.pk) x = some z

section Updates

variable {old new : List (Option V)}

theorem keyFields_congr (hl : l.length = pk.length)
    (hl' : l'.length = pk.length) (h : ∀ i : Nat, pk[i]? = some true → l[i]? = l'[i]?) :
    keyFields pk l = keyFields pk l' := by
  induction l, pk, hl using sameLength generalizing l' with
  | nil => rfl
  | cons f l b pk hl ih =>
    obtain ⟨f', l', rfl⟩ := exists_cons_of_length_eq_add_one hl'
    have hrec := ih (by simpa using hl') fun i hi => by
      simpa using h (i + 1) (by simpa using hi)
    cases b with
    | false => simpa using hrec
    | true =>
      obtain rfl : f = f' := by simpa using h 0 rfl
      simpa using hrec

theorem keyFields_oldRecord (hold : old.length = pk.length) (hnew : new.length = pk.length)
    (j : Bool) : keyFields pk (oldRecord pk ⟨.update, j, old ++ new⟩) = keyFields pk old := by
  rw [oldRecord, take_left' hold, drop_left' hold]
  refine keyFields_congr (by simp [hold, hnew]) hold fun i hi => ?_
  obtain ⟨f, hf⟩ := exists_getElem? hold hi
  obtain ⟨g, hg⟩ := exists_getElem? hnew hi
  rw [getElem?_zipWith₂ hi (getElem?_zip₂ hf hg), hf]
  rfl

theorem update_does {e : Env N V} (ht : e.table.Exact A)
    (hpatch : e.patchset = false) (hold : old.length = e.pk.length)
    (hnew : new.length = e.pk.length) (hkey : keyFields e.pk old = k.map some) (j : Bool)
    (hset : ∃ (i : Nat) (v : V), e.pk[i]? = some false ∧ new[i]? = some (some v))
    (hr : r.length = e.pk.length) (hA : ∀ v ∈ r, A v)
    (hfit : ∀ (i : Nat) (v : V), e.pk[i]? = some false → old[i]? = some (some v) → r[i]? = some v) :
    e.Does k ⟨.update, j, old ++ new⟩ (some r) (some (Table.assign e.pk new r)) := by
  have hchange : Entry.change e.patchset e.pk ⟨.update, j, old ++ new⟩ =
      ⟨.update, Entry.oldRecord e.pk ⟨.update, j, old ++ new⟩, new⟩ := by
    simp [Entry.change, hpatch, drop_left' hold]
  obtain ⟨i, v, hb, hv⟩ := hset
  have hsets : (nonKey e.pk new).all (·.isNone) = false := by
    rw [List.all_eq_false]
    exact ⟨some v, mem_of_getElem? (getElem?_nonKey hb hv), (by simp)⟩
  have hholds : e.table.holds (nonKey e.pk (Entry.oldRecord e.pk ⟨.update, j, old ++ new⟩)) r =
      true := by
    refine ht.holds_of_holds ((holds_iff_getElem? (hr ▸ length_nonKey_le _ _)).mpr ?_) hA
    intro i v hv
    obtain ⟨b, f, hb, hf, heq⟩ := List.getElem?_zipWith_eq_some.mp hv
    rw [Entry.oldRecord, take_left' hold, drop_left' hold] at hf
    obtain ⟨_, g, hb', hg, rfl⟩ := List.getElem?_zipWith_eq_some.mp hf
    cases Option.mem_unique hb hb'
    cases b with
    | true => simp at heq
    | false =>
      refine hfit i v hb ?_
      rw [(List.getElem?_zip_eq_some.mp hg).1]
      simp_all
  refine ⟨⟨by simp [Entry.isCorrupt, hpatch], ?_⟩, ?_, ?_⟩
  · have hne : new.all (·.isNone) = false := by
      rw [List.all_eq_false]
      exact ⟨some v, mem_of_getElem? hv, (by simp)⟩
    simp [Entry.isEmpty, Entry.newRecord, hpatch, drop_left' hold, hne]
  · simp [hchange, Env.key, Change.keyRecord, keyFields_oldRecord hold hnew, hkey]
  · rw [hchange, rowStep_update rfl]
    simp [hsets, hholds]

end Updates

section Rebasing

variable [DecidableEq V]

omit [DecidableEq V] in
theorem assign_row (h : Kin pk r r') : Table.assign pk (r'.map some) r = r' := by
  induction h with
  | nil => rfl
  | key x _ ih => simpa [Table.assign] using ih
  | other x y _ ih => simpa [Table.assign] using ih

/-- A column of a row that may not be there. -/
def cell (x : Option (Row V)) (i : Nat) : Option V := x.bind (·[i]?)

/-- What becomes of the row `x` when the local change is applied as it was rebased. -/
def Env.Rebased (e : Env N V) (k : Key V) (x z : Option (Row V)) : Option (Entry V) → Prop
  | none => z = x
  | some E => e.Does k E x z

variable {e : Env N V} {A : V → Prop} {k : Key V} {x₀ y₀ x y z : Option (Row V)} {E : Entry V}
  {ρ : Option (RebaseChange V)} {O : Nat → Prop} {a b : Row V} {f : List (Field V)} (j : Bool)

omit [DecidableEq V] in
/-- A DELETE over the record of what the row became. -/
theorem recordMerge_delete (h : Kin pk a r) (hf : ∀ i : Nat, r[i]? = f[i]?.bind fun
      | .undefined => a[i]?
      | .value v => some v
      | .replaced => none) :
    (recordMerge f ((a.map some).map .of)).map value? = r.map some := by
  refine ext_getElem? fun i => ?_
  rcases h.column i with ⟨-, ha, hr⟩ | ⟨c, u, v, -, ha, hr, -⟩
  · simp [recordMerge, List.getElem?_zipWith, ha, hr]
  · have hi := hf i
    rw [hr] at hi
    obtain ⟨φ, hφ, hval⟩ := bind_eq_some_iff.mp hi.symm
    have hau : ((a.map some).map of)[i]? = some (.value u) := by simp [ha, of]
    rw [List.getElem?_map, recordMerge, getElem?_zipWith₂ hφ hau, List.getElem?_map, hr]
    cases φ with
    | undefined =>
      obtain rfl := Option.mem_unique ha hval
      rfl
    | value w =>
      obtain rfl := some.inj hval
      rfl
    | replaced => cases hval

/-- An UPDATE over the record of a row that is not there any more. -/
theorem recordMerge_insert (h : Kin pk a b) (hr : Kin pk a r) :
    (recordMerge ((diffNew pk a b).map .of) (r.map .value)).map value? =
      (overlaid pk a b r).map some := by
  refine ext_getElem? fun i => ?_
  rw [List.getElem?_map, List.getElem?_map, getElem?_overlaid h hr, recordMerge]
  rcases h.column i with ⟨hb, ha, hv⟩ | ⟨c, u, v, hb, ha, hv, hkey⟩
  · rcases hr.column i with ⟨-, -, hw⟩ | ⟨_, _, _, hb', -⟩
    · simp [List.getElem?_zipWith, ha, hv, hw]
    · cases hb.symm.trans hb'
  · obtain ⟨-, w, -, hw, -⟩ := hr.column_of hb
    have hnew : ((diffNew pk a b).map of)[i]? =
        some (.of (if !c && u != v then some v else none)) := by
      rw [List.getElem?_map, getElem?_diffNew hb ha hv]
      rfl
    have hrow : (r.map value)[i]? = some (.value w) := by simp [hw]
    rw [getElem?_zipWith₂ hnew hrow, ha, hv, hw]
    cases c with
    | true => simp [hkey rfl, of, value?]
    | false => by_cases huv : u = v <;> simp [huv, of, value?]

theorem getElem?_partialOld (hb : pk[i]? = some c) (hg : old[i]? = some g) (hφ : f[i]? = some φ) :
    (partialOld pk f old)[i]? = some (if c || φ = .undefined then g
      else if g.isSome then φ.value? else none) := by
  rw [partialOld, List.getElem?_map, getElem?_zip₂ hb (getElem?_zip₂ hg hφ)]
  rfl

theorem getElem?_partialNew (hb : pk[i]? = some c) (hg : new[i]? = some g) (hφ : f[i]? = some φ) :
    (partialNew pk f new)[i]? = some (if c || φ ≠ .replaced then g else none) := by
  rw [partialNew, List.getElem?_map, getElem?_zip₂ hb (getElem?_zip₂ hg hφ)]
  rfl

section Landing

variable (ht : e.table.Exact A) (hpk : e.pk = e.table.pk) (hpatch : e.patchset = false)

include ht hpatch

omit [DecidableEq V] in
theorem insertMet_does (hcol : false ∈ e.pk) (hr : OnKey e.pk k (some r))
    (hb : OnKey e.pk k (some b)) (hA : Within A (some r)) :
    e.Does k ⟨.update, j, r.map some ++ b.map some⟩ (some r) (some b) := by
  obtain ⟨i, hi⟩ := mem_iff_getElem?.mp hcol
  obtain ⟨v, hv⟩ := exists_getElem? (hb b rfl).1 hi
  have hdoes : e.Does k ⟨.update, j, r.map some ++ b.map some⟩ (some r)
      (some (Table.assign e.pk (b.map some) r)) :=
    update_does ht hpatch (by simpa using (hr r rfl).1) (by simpa using (hb b rfl).1)
      (by rw [keyFields_map, (hr r rfl).2]) j ⟨i, v, hi, by simp [hv]⟩ (hr r rfl).1 (hA r rfl)
      (by simp)
  rwa [assign_row (hr.kin hb)] at hdoes

theorem updateOld_does (hne : a ≠ b) (ha : OnKey e.pk k (some a)) (hb : OnKey e.pk k (some b))
    (hr : OnKey e.pk k (some r)) (hA : Within A (some r))
    (hfit : ∀ i : Nat, a[i]? ≠ b[i]? → r[i]? = a[i]?) :
    e.Does k ⟨.update, j, diffOld e.pk a b ++ diffNew e.pk a b⟩ (some r)
      (some (overlaid e.pk a b r)) := by
  have hab : Kin e.pk a b := ha.kin hb
  refine update_does ht hpatch hab.length_diffOld hab.length_diffNew
    (by rw [keyFields_diffOld hab, (ha a rfl).2]) j ?_ (hr r rfl).1 (hA r rfl) ?_
  · obtain ⟨i, hi⟩ := exists_column_ne hne
    obtain ⟨hb, u, v, hu, hv, huv⟩ := hab.changed hi
    exact ⟨i, v, hb, by rw [getElem?_diffNew hb hu hv]; simp [huv]⟩
  · intro i w hb hw
    obtain ⟨u, v, hu, hv, -⟩ := hab.column_of hb
    rw [getElem?_diffOld hb hu hv] at hw
    by_cases huv : u = v
    · simp [huv] at hw
    · rw [hfit i (by simp [hu, hv, huv]), hu]
      simpa [huv] using hw

theorem updateMet_does (ha : OnKey e.pk k (some a)) (hb : OnKey e.pk k (some b))
    (hr : OnKey e.pk k (some r)) (hA : Within A (some r)) (hf : f.length = e.pk.length)
    (h : ∀ i : Nat, a[i]? ≠ b[i]? → Marks (O i) indirect a[i]? b[i]? r[i]? q[i]? f[i]?)
    (hE : partialUpdate e.pk f ⟨.update, j, diffOld e.pk a b ++ diffNew e.pk a b⟩ = some E') :
    ∃ z, e.Does k E' (some r) (some z) ∧
      ∀ i : Nat, a[i]? ≠ b[i]? → f[i]? ≠ some .replaced → z[i]? = b[i]? := by
  have hab : Kin e.pk a b := ha.kin hb
  simp only [partialUpdate, take_left' hab.length_diffOld, drop_left' hab.length_diffOld] at hE
  obtain ⟨hany, hE⟩ := ite_none_right_eq_some.mp hE
  obtain rfl := some.inj hE
  have hsome : ∀ i : Nat, a[i]? ≠ b[i]? → f[i]? ≠ some .replaced → ∃ v, e.pk[i]? = some false ∧
      b[i]? = some v ∧ (partialNew e.pk f (diffNew e.pk a b))[i]? = some (some v) := by
    intro i hi hφ
    obtain ⟨hb, u, v, hu, hv, huv⟩ := hab.changed hi
    obtain ⟨φ, hf⟩ := exists_getElem? hf hb
    refine ⟨v, hb, hv, ?_⟩
    rw [getElem?_partialNew hb (getElem?_diffNew hb hu hv) hf]
    have hne : φ ≠ .replaced := fun h => hφ (h ▸ hf)
    simp [huv, hne]
  refine ⟨_, update_does ht hpatch ?_ ?_ ?_ j ?_ (hr r rfl).1 (hA r rfl) ?_, fun i hi hφ => ?_⟩
  · simp [partialOld, hab.length_diffOld, hf]
  · simp [partialNew, hab.length_diffNew, hf]
  · have hkeys : keyFields e.pk (partialOld e.pk f (diffOld e.pk a b)) =
        keyFields e.pk (diffOld e.pk a b) := by
      refine keyFields_congr (by simp [partialOld, hab.length_diffOld, hf]) hab.length_diffOld
        fun i hi => ?_
      obtain ⟨g, hg⟩ := exists_getElem? hab.length_diffOld hi
      obtain ⟨φ, hφ⟩ := exists_getElem? hf hi
      rw [getElem?_partialOld hi hg hφ, hg]
      rfl
    rw [hkeys, keyFields_diffOld hab, (ha a rfl).2]
  · obtain ⟨i, hi, hφ⟩ := (any_kept_iff hab hf).mp hany
    obtain ⟨v, hb, -, hnew⟩ := hsome i hi hφ
    exact ⟨i, v, hb, hnew⟩
  · intro i w hb hw
    obtain ⟨u, v, hu, hv, -⟩ := hab.column_of hb
    obtain ⟨φ, hφ⟩ := exists_getElem? hf hb
    rw [getElem?_partialOld hb (getElem?_diffOld hb hu hv) hφ] at hw
    by_cases huv : u = v
    · simp [huv] at hw
    · have hi := h i (by simp [hu, hv, huv])
      rw [hφ] at hi
      cases φ with
      | undefined =>
        rw [hi.1, hu]
        simpa [huv] using hw
      | value w' =>
        rw [hi.2.1]
        simpa [huv, value?] using hw
      | replaced => simp [huv, value?] at hw
  · obtain ⟨v, hb, hv, hnew⟩ := hsome i hi hφ
    obtain ⟨w, hw⟩ := exists_getElem? (hr r rfl).1 hb
    rw [getElem?_assign hb hnew hw, hv]
    rfl

include hpk

theorem Describes.does (hx : OnKey e.pk k x) (hz : OnKey e.pk k z) (hA : Within A x)
    (hE : Describes e.pk false x z E) : e.Does k E x z := by
  obtain ⟨hread, hkey, hstep⟩ := Describes.effect ht hpk hx hz hA (hpatch ▸ hE)
  exact ⟨hread, hkey, hstep⟩

/-- The rebased local change can be applied to the remote row, and a column that it changes and that
was not overridden has its local value. -/
theorem Stand.rebase (h : Stand e.pk O E x₀ y₀ x y ρ) (hE : Describes e.pk false x₀ y₀ E)
    (hx₀ : OnKey e.pk k x₀) (hy₀ : OnKey e.pk k y₀) (hx : OnKey e.pk k x) (hA : Within A x)
    (hcol : ∀ c, ρ = some c → c.isDelete = false → c.indirect = false → false ∈ e.pk) :
    ∃ z, e.Rebased k x z (rebaseEntry e.pk E ρ) ∧
      ∀ i, cell x₀ i ≠ cell y₀ i → ¬O i → cell z i = cell y i := by
  have hnone : OnKey e.pk k (none : Option (Row V)) := nofun
  cases h with
  | dropped _ _ _ c h =>
    rw [h]
    exact ⟨x, rfl, fun _ _ _ => rfl⟩
  | insertNew b => exact ⟨some b, hE.does ht hpk hpatch hx₀ hy₀ hA, fun _ _ _ => rfl⟩
  | insertMet b r =>
    obtain ⟨_, j⟩ := hE
    have hrec : (r.map value).map value? = r.map some := by simp [value?]
    refine ⟨some b, ?_, fun _ _ _ => rfl⟩
    simp only [rebaseEntry, hrec]
    exact insertMet_does j ht hpatch (hcol _ rfl rfl rfl) hx hy₀ hA
  | insertAway b q hq =>
    have hsame : rebaseEntry e.pk E (some ⟨true, false, q.map .value⟩) = some E := by
      obtain ⟨_, j⟩ := hE
      rfl
    rw [hsame]
    exact ⟨some b, hE.does ht hpk hpatch hx₀ hy₀ hA, fun _ _ _ => rfl⟩
  | deleteOld a => exact ⟨none, hE.does ht hpk hpatch hx₀ hy₀ hA, fun _ _ _ => rfl⟩
  | deleteMet a r f h =>
    cases hE with
    | delete _ j =>
      refine ⟨none, ?_, fun _ _ _ => rfl⟩
      have hrebase : rebaseEntry e.pk ⟨.delete, j, a.map some⟩ (some ⟨false, false, f⟩) =
          some ⟨.delete, j, r.map some⟩ := by
        rw [← recordMerge_delete (hx₀.kin hx) h]
        rfl
      exact hrebase ▸ (Describes.delete r j).does ht hpk hpatch hx hnone hA
  | updateOld a b r q h hsame =>
    cases hE with
    | update _ _ j _ hne =>
      refine ⟨_, updateOld_does j ht hpatch hne hx₀ hy₀ hx hA fun i hi => (h i hi).1,
        fun i hi _ => ?_⟩
      exact (getElem?_overlaid_of_ne (hx₀.kin hy₀) (hx₀.kin hx) hi).trans (h i hi).2.symm
    | patch => contradiction
  | updateMet a b r q indirect f hf hclean h =>
    cases hE with
    | update _ _ j _ hne =>
      cases hp : rebaseEntry e.pk ⟨.update, j, diffOld e.pk a b ++ diffNew e.pk a b⟩
        (some ⟨false, indirect, f⟩) with
      | none =>
        refine ⟨some r, rfl, fun i hi hO => ?_⟩
        have hreplaced := (partialUpdate_eq_none_iff (hx₀.kin hy₀) hf).mp hp i hi
        exact absurd hreplaced ((h i hi).of_not hO).1
      | some E' =>
        obtain ⟨z, hdoes, hz⟩ := updateMet_does j ht hpatch hx₀ hy₀ hx hA hf h hp
        refine ⟨some z, hdoes, fun i hi hO => ?_⟩
        obtain ⟨hφ, hq⟩ := (h i hi).of_not hO
        exact (hz i hi hφ).trans hq.symm
    | patch => contradiction
  | updateAway a b r q hr h =>
    cases hE with
    | update _ _ j _ hne =>
      have hab : Kin e.pk a b := hx₀.kin hy₀
      have hrebase : rebaseEntry e.pk ⟨.update, j, diffOld e.pk a b ++ diffNew e.pk a b⟩
          (some ⟨true, false, r.map .value⟩) =
            some ⟨.insert, j, (overlaid e.pk a b r).map some⟩ := by
        rw [← recordMerge_insert hab hr]
        simp only [rebaseEntry, drop_left' hab.length_diffOld]
        rfl
      refine ⟨some (overlaid e.pk a b r), ?_, fun i hi _ => ?_⟩
      · rw [hrebase]
        have hover : OnKey e.pk k (some (overlaid e.pk a b r)) :=
          hx₀.of_kin (hr.trans (kin_overlaid hab hr))
        exact (Describes.insert _ j).does ht hpk hpatch hx hover hA
      · exact (getElem?_overlaid_of_ne hab hr hi).trans (h i hi).symm
    | patch => contradiction

end Landing

end Rebasing

end SqlCipher.Changeset
