import SqlCipher.Changeset.Apply

/-!
# The cache of UPDATE statements

`sessionUpdateFind` keeps the UPDATE statements of a table, with the values that were last bound to
them. It looks for one by the columns that the change sets, but the WHERE clause depends on the old
record too. That the column `idx` of `sqlite_stat1` is compared in another way is left out.
-/

namespace SqlCipher.Changeset.UpdateCache

open List

variable {V : Type}

/-- The columns of the SET list and of the WHERE clause. -/
structure Sql where
  set : List Nat
  conds : List Nat

structure SessionUpdate (V : Type) where
  stmt : Sql
  bound : Nat → Option V
  aMask : List Bool × Bool

/-- An UPDATE for `sessionApplyOneOp`, from a changeset or a patchset, the first time or again. -/
structure Update (V : Type) where
  oldRecord : List (Option V)
  newRecord : List (Option V)
  patchset : Bool
  retried : Bool

inductive Error
  | corrupt | range
  | failed (code : ErrorCode)

/-- What a statement selects and sets. A parameter without a value is NULL. -/
structure Effect (V : Type) where
  selects : List (Nat × Option V)
  sets : List (Nat × Option V)

def cacheSz : Nat := 12

def Sql.params (q : Sql) : List Nat :=
  q.set.map (fun i => 2 * i + 1) ++ q.conds.map fun i => 2 * i + 2

def Sql.effect (q : Sql) (bound : Nat → Option V) : Effect V where
  selects := q.conds.map fun i => (i, bound (2 * i + 2))
  sets := q.set.map fun i => (i, bound (2 * i + 1))

/-- `sqlite3_bind_value` for these parameters: the values that are bound at the end, and whether no
number was out of range. -/
def Sql.bind (q : Sql) : List (Nat × V) → (Nat → Option V) → Bool × (Nat → Option V)
  | [], bound => (true, bound)
  | (i, v) :: ps, bound =>
    if q.params.all (· < i) then (false, bound) else bind q ps (Function.update bound i (some v))

variable (pk : List Bool)

namespace Update

variable (u : Update V)

def bPatchset : Bool := u.retried || u.patchset

def new (i : Nat) : Option V := u.newRecord[i]?.join

/-- The iterator drops old values of a changeset that are neither in the key nor in the new
record. -/
def old (i : Nat) : Option V :=
  if u.patchset || pk[i]?.getD false || (u.new i).isSome then u.oldRecord[i]?.join else none

def mask : List Bool × Bool := ((range pk.length).map fun i => (u.new i).isSome, u.bPatchset)

def prepare : Sql where
  set := (range pk.length).filter fun i => !pk[i]?.getD false && (u.new i).isSome
  conds := (range pk.length).filter fun i =>
    pk[i]?.getD false || !u.bPatchset && (u.old pk i).isSome

/-- The values that are bound, in this order. -/
def values : List (Nat × V) :=
  (range pk.length).flatMap fun i =>
    (if pk[i]?.getD false || !u.bPatchset then (u.old pk i).toList.map (2 * i + 2, ·) else []) ++
      (u.new i).toList.map (2 * i + 1, ·)

/-- `sessionUpdateFind`: the statement found, or a new one unless `rc` is why it cannot be prepared,
and the other statements, the last of which may have to go. -/
def find (rc : Option ErrorCode) (pUp : List (SessionUpdate V)) :
    Except Error (SessionUpdate V) × List (SessionUpdate V) :=
  if (u.mask pk).1.all (! ·) then (.error .corrupt, pUp)
  else match pUp.find? (·.aMask = u.mask pk) with
    | some up => (.ok up, pUp.eraseP (·.aMask = u.mask pk))
    | none =>
      let new := match rc with
        | some rc => .error (.failed rc)
        | none => .ok ⟨u.prepare pk, fun _ => none, u.mask pk⟩
      (new, if cacheSz ≤ pUp.length then pUp.dropLast else pUp)

/-- The part of `sessionApplyOneOp` for an UPDATE, up to `sqlite3_step`. The statement goes to the
front of the list, and keeps the values that are bound to it. -/
def apply (rc : Option ErrorCode) (pUp : List (SessionUpdate V)) :
    Except Error (Effect V) × List (SessionUpdate V) :=
  match u.find pk rc pUp with
  | (.error e, rest) => (.error e, rest)
  | (.ok up, rest) =>
    let r := up.stmt.bind (u.values pk) up.bound
    (if r.1 then .ok (up.stmt.effect r.2) else .error .range, { up with bound := r.2 } :: rest)

/-- The old record has the key, and the columns that are set if they are to be compared. -/
def Whole : Prop :=
  ∀ i < pk.length, pk[i]?.getD false ∨ u.bPatchset = false ∧ (u.new i).isSome → (u.old pk i).isSome

instance : Decidable (u.Whole pk) :=
  inferInstanceAs (Decidable (∀ i < pk.length, _ → (u.old pk i).isSome))

end Update

/-- The statements that are in the cache after these changes. -/
def run (us : List (Update V × Option ErrorCode)) : List (SessionUpdate V) :=
  us.foldl (fun pUp u => (u.1.apply pk u.2 pUp).2) []

variable {pk} {u u' : Update V} {q : Sql} {ps : List (Nat × V)} {b b' : Nat → Option V}
  {pUp : List (SessionUpdate V)}

theorem bind_ok (h : ∀ p ∈ ps, ∃ j ∈ q.params, p.1 ≤ j) : (q.bind ps b).1 = true := by
  induction ps generalizing b with
  | nil => rfl
  | cons p ps ih =>
    obtain ⟨j, hj, hle⟩ := h p mem_cons_self
    have hin : ¬ q.params.all (· < p.1) := by
      rw [all_eq_true]
      exact fun hall => absurd (of_decide_eq_true (hall j hj)) (Nat.not_lt.mpr hle)
    rw [Sql.bind, if_neg hin]
    exact ih fun p hp => h p (mem_cons_of_mem _ hp)

/-- A parameter that is bound has no value of an earlier change. -/
theorem bind_congr (hok : ∀ p ∈ ps, ∃ j ∈ q.params, p.1 ≤ j)
    (h : b i = b' i ∨ ∃ p ∈ ps, p.1 = i) : (q.bind ps b).2 i = (q.bind ps b').2 i := by
  induction ps generalizing b b' with
  | nil => simpa [Sql.bind] using h
  | cons p ps ih =>
    have hin : ¬ q.params.all (· < p.1) := fun hall => by
      have := bind_ok (b := b) hok
      simp [Sql.bind, hall] at this
    rw [Sql.bind, if_neg hin, Sql.bind, if_neg hin]
    refine ih (fun p hp => hok p (mem_cons_of_mem _ hp)) ?_
    by_cases hp : p.1 = i
    · simp [← hp]
    · simpa [hp, Function.update_of_ne (Ne.symm hp)] using h

theorem mem_values {p : Nat × V} : p ∈ u.values pk ↔ ∃ i < pk.length,
    ((pk[i]?.getD false = true ∨ u.bPatchset = false) ∧
      ∃ v, u.old pk i = some v ∧ (2 * i + 2, v) = p) ∨
    ∃ v, u.new i = some v ∧ (2 * i + 1, v) = p := by
  simp only [Update.values, mem_flatMap, mem_range, mem_append]
  refine exists_congr fun i => and_congr_right fun _ => or_congr ?_ (by simp)
  split_ifs with h <;> simp only [Bool.or_eq_true, Bool.not_eq_true'] at h <;> simp [h]

theorem mem_params : j ∈ (u.prepare pk).params ↔ ∃ i < pk.length,
    (pk[i]?.getD false = false ∧ (u.new i).isSome) ∧ 2 * i + 1 = j ∨
      (pk[i]?.getD false = true ∨ u.bPatchset = false ∧ (u.old pk i).isSome) ∧ 2 * i + 2 = j := by
  simp [Sql.params, Update.prepare, and_assoc, ← exists_or, ← and_or_left]

theorem values_le : ∀ p ∈ u.values pk, ∃ j ∈ (u.prepare pk).params, p.1 ≤ j := by
  intro p hp
  obtain ⟨i, hi, ⟨hcmp, v, hv, rfl⟩ | ⟨v, hv, rfl⟩⟩ := mem_values.mp hp
  · exact ⟨2 * i + 2, mem_params.mpr ⟨i, hi, .inr ⟨by simpa [hv] using hcmp, rfl⟩⟩, Nat.le_refl _⟩
  · by_cases hkey : pk[i]?.getD false = true
    · exact ⟨2 * i + 2, mem_params.mpr ⟨i, hi, .inr ⟨.inl hkey, rfl⟩⟩, Nat.le_succ _⟩
    · exact ⟨2 * i + 1, mem_params.mpr ⟨i, hi, .inl ⟨by simpa [hv] using hkey, rfl⟩⟩, Nat.le_refl _⟩

namespace Update.Whole

theorem exists_value (h : u.Whole pk) (hj : j ∈ (u.prepare pk).params) :
    ∃ p ∈ u.values pk, p.1 = j := by
  obtain ⟨i, hi, ⟨⟨-, hnew⟩, rfl⟩ | ⟨hcmp, rfl⟩⟩ := mem_params.mp hj
  · obtain ⟨v, hv⟩ := Option.isSome_iff_exists.mp hnew
    exact ⟨_, mem_values.mpr ⟨i, hi, .inr ⟨v, hv, rfl⟩⟩, rfl⟩
  · have hold : (u.old pk i).isSome := hcmp.elim (fun hkey => h i hi (.inl hkey)) (·.2)
    obtain ⟨v, hv⟩ := Option.isSome_iff_exists.mp hold
    exact ⟨_, mem_values.mpr ⟨i, hi, .inl ⟨hcmp.imp_right (·.1), v, hv, rfl⟩⟩, rfl⟩

/-- The values of the change replace all that are bound. -/
theorem effect_bind (h : u.Whole pk) (b b' : Nat → Option V) :
    (u.prepare pk).effect ((u.prepare pk).bind (u.values pk) b).2 =
      (u.prepare pk).effect ((u.prepare pk).bind (u.values pk) b').2 := by
  have hparam (j : Nat) (hj : j ∈ (u.prepare pk).params) :
      ((u.prepare pk).bind (u.values pk) b).2 j =
        ((u.prepare pk).bind (u.values pk) b').2 j :=
    bind_congr values_le (.inr (h.exists_value hj))
  simp only [Sql.effect, Effect.mk.injEq]
  refine ⟨map_congr_left fun t ht => ?_, map_congr_left fun i hi => ?_⟩
  · rw [hparam _ (mem_append_right _ (mem_map_of_mem ht))]
  · rw [hparam _ (mem_append_left _ (mem_map_of_mem hi))]

theorem prepare_eq (h : u.Whole pk) (h' : u'.Whole pk) (hmask : u.mask pk = u'.mask pk) :
    u.prepare pk = u'.prepare pk := by
  simp only [mask, Prod.mk.injEq, map_inj_left, mem_range] at hmask
  simp only [prepare, Sql.mk.injEq]
  refine ⟨?_, ?_⟩
  · exact filter_congr fun i hi => by rw [hmask.1 i (mem_range.mp hi)]
  · refine filter_congr fun i hi => ?_
    have := h i (mem_range.mp hi)
    have := h' i (mem_range.mp hi)
    grind [Update.old, bPatchset]

end Update.Whole

/-- The statements in the cache are those of changes with a whole old record. -/
def Sound (pk : List Bool) (pUp : List (SessionUpdate V)) : Prop :=
  ∀ up ∈ pUp, ∃ u : Update V, u.Whole pk ∧ up.aMask = u.mask pk ∧ up.stmt = u.prepare pk

theorem find_sound (h : Sound pk pUp) (hu : u.Whole pk) (rc : Option ErrorCode) :
    Sound pk (u.find pk rc pUp).2 ∧ ∀ up, (u.find pk rc pUp).1 = .ok up →
      up.aMask = u.mask pk ∧ up.stmt = u.prepare pk := by
  unfold Update.find
  by_cases hnone : (u.mask pk).1.all (! ·) = true
  · rw [if_pos hnone]
    exact ⟨h, fun _ hup => by cases hup⟩
  rw [if_neg hnone]
  split
  · next up hfound =>
    refine ⟨fun up hup => h up (mem_of_mem_eraseP hup), ?_⟩
    rintro _ ⟨⟩
    have hmask : up.aMask = u.mask pk := by simpa using find?_some hfound
    obtain ⟨u', hu', hmask', hstmt⟩ := h up (mem_of_find?_eq_some hfound)
    exact ⟨hmask, hstmt.trans (hu'.prepare_eq hu (hmask'.symm.trans hmask))⟩
  · refine ⟨fun up hup => h up ?_, ?_⟩
    · dsimp only at hup
      split_ifs at hup
      · exact dropLast_subset _ hup
      · exact hup
    · cases rc with
      | some rc => exact fun _ hup => by cases hup
      | none =>
        rintro _ ⟨⟩
        exact ⟨rfl, rfl⟩

theorem apply_sound (h : Sound pk pUp) (hu : u.Whole pk) (rc : Option ErrorCode) :
    Sound pk (u.apply pk rc pUp).2 := by
  obtain ⟨hrest, hok⟩ := find_sound h hu rc
  unfold Update.apply
  generalize u.find pk rc pUp = r at hrest hok
  obtain ⟨e | up, rest⟩ := r
  · exact hrest
  · exact forall_mem_cons.mpr ⟨⟨u, hu, hok up rfl⟩, hrest⟩

theorem apply_eq (h : Sound pk pUp) (hu : u.Whole pk) :
    (u.apply pk none pUp).1 = if (u.mask pk).1.all (! ·) then .error .corrupt else
      .ok ((u.prepare pk).effect ((u.prepare pk).bind (u.values pk) fun _ => none).2) := by
  obtain ⟨-, hok⟩ := find_sound h hu none
  unfold Update.apply
  split_ifs with hnone
  · rw [Update.find, if_pos hnone]
  · obtain ⟨up, rest, hfind⟩ : ∃ up rest, u.find pk none pUp = (.ok up, rest) := by
      rw [Update.find, if_neg hnone]
      split <;> exact ⟨_, _, rfl⟩
    rw [hfind] at hok ⊢
    dsimp only
    rw [(hok up rfl).2, if_pos (bind_ok values_le), hu.effect_bind]

/-- As long as the old records are whole, the statement for a change does what one would that is
prepared for this change alone. -/
theorem cached_update_fresh (us : List (Update V × Option ErrorCode))
    (hus : ∀ u ∈ us, u.1.Whole pk) (hu : u.Whole pk) :
    (u.apply pk none (run pk us)).1 = (u.apply pk none []).1 := by
  have hnil : Sound pk ([] : List (SessionUpdate V)) := by simp [Sound]
  have hsound : Sound pk (run pk us) := foldlRecOn us _ hnil fun _ h x hx =>
    apply_sound h (hus x hx) x.2
  rw [apply_eq hsound hu, apply_eq hnil hu]

/-- Two changes of the column 1, of rows with the keys 1 and 2. -/
theorem cached_update_fresh_twice :
    ((⟨[some 2, some 8], [none, some 7], false, false⟩ : Update Nat).apply [true, false] none
      (run [true, false] [(⟨[some 1, some 5], [none, some 6], false, false⟩, none)])).1 =
      .ok ⟨[(0, some 2), (1, some 8)], [(1, some 7)]⟩ :=
  (cached_update_fresh [(⟨[some 1, some 5], [none, some 6], false, false⟩, none)] (by decide)
    (by decide)).trans rfl

/-- The second change has no old value of the column 1: it is compared with that of the first. -/
theorem cached_update_stale :
    ((⟨[some 2, none], [none, some 7], false, false⟩ : Update Nat).apply [true, false] none
      (run [true, false] [(⟨[some 1, some 5], [none, some 6], false, false⟩, none)])).1 =
      .ok ⟨[(0, some 2), (1, some 5)], [(1, some 7)]⟩ ∧
    ((⟨[some 2, none], [none, some 7], false, false⟩ : Update Nat).apply [true, false] none []).1 =
      .ok ⟨[(0, some 2)], [(1, some 7)]⟩ :=
  ⟨rfl, rfl⟩

end SqlCipher.Changeset.UpdateCache
