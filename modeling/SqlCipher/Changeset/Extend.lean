import Mathlib.Data.List.TakeWhile
import SqlCipher.Changeset.Describe

/-!
# Entries that are shorter than the table

A changeset may have been made before columns were added to the table. Its INSERTs leave the new
columns at their defaults and its UPDATEs leave them alone. `sessionChangesetExtendRecord` writes
that out: the extended entry does the same as the short one, and describes it. This does not hold
for the DELETE of a changeset, which when it is extended asks for the defaults in columns that the
short one does not look at.
-/

namespace SqlCipher.Changeset

open List Entry

variable {N V : Type} {pk : List Bool} {r : Row V}

def Table.full (t : Table V) (patchset : Bool) (nCol : Nat) (E : Entry V) : Entry V :=
  if nCol < t.pk.length then extendRecord patchset t.dflt nCol E else E

/-- The columns behind those of a group that matches are not in the key. -/
theorem drop_minColumns (h : minColumns pk ≤ n) : ∀ b ∈ pk.drop n, b = false := by
  have hsplit : pk = (pk.reverse.dropWhile (! ·)).reverse ++
      (pk.reverse.takeWhile (! ·)).reverse := by
    rw [← reverse_append, takeWhile_append_dropWhile, reverse_reverse]
  intro b hb
  rw [hsplit, drop_append, drop_eq_nil_of_le (by simpa [minColumns] using h), nil_append] at hb
  have hmem := mem_reverse.mp (mem_of_mem_drop hb)
  simpa using mem_takeWhile_imp hmem

theorem eq_append_of_match {t : Table V} (hmin : minColumns t.pk ≤ n) (htake : t.pk.take n = pk) :
    t.pk = pk ++ replicate (t.pk.length - n) false := by
  have hdrop : t.pk.drop n = replicate (t.pk.length - n) false :=
    eq_replicate_iff.mpr ⟨by simp, drop_minColumns hmin⟩
  rw [← htake, ← hdrop, take_append_drop]

section Columns

variable {m : Nat} {fields : List (Option V)}

theorem keyFields_replicate {α : Type} (l : List α) : keyFields (replicate m false) l = [] := by
  induction m generalizing l with
  | zero => rfl
  | succ m ih =>
    cases l with
    | nil => simp [keyFields]
    | cons x l => simpa [replicate_succ] using ih l

theorem keyFields_append_false {α : Type} {l : List α} (hlen : l.length = pk.length)
    (tail : List α) : keyFields (pk ++ replicate m false) (l ++ tail) = keyFields pk l := by
  induction l, pk, hlen using sameLength with
  | nil => exact keyFields_replicate tail
  | cons x l b pk hlen ih => cases b <;> simpa using ih

theorem nonKey_append_false (hlen : fields.length = pk.length) :
    nonKey (pk ++ replicate m false) (fields ++ replicate m none) =
      nonKey pk fields ++ replicate m none := by
  induction fields, pk, hlen using sameLength with
  | nil =>
    induction m with
    | zero => rfl
    | succ m ih => simpa [replicate_succ] using ih
  | cons f fields b pk hlen ih => simpa using ih

theorem holds_append_none (t : Table V) (fields : List (Option V)) (r : Row V) :
    t.holds (fields ++ replicate m none) r = t.holds fields r := by
  unfold Table.holds
  generalize 0 = n
  induction fields generalizing r n with
  | nil =>
    induction m generalizing r n with
    | zero => rfl
    | succ m ih =>
      cases r with
      | nil => rfl
      | cons v r => simpa [replicate_succ] using ih r (n + 1)
  | cons f fields ih =>
    cases r with
    | nil => rfl
    | cons v r =>
      simp only [cons_append, zip_cons_cons, zipIdx_cons, all_cons, ih r (n + 1)]

theorem assign_append_none (hlen : fields.length = pk.length) (r : Row V) :
    Table.assign (pk ++ replicate m false) (fields ++ replicate m none) r =
      Table.assign pk fields r := by
  induction fields, pk, hlen using sameLength generalizing r with
  | nil =>
    induction m generalizing r with
    | zero => rfl
    | succ m ih =>
      cases r with
      | nil => rfl
      | cons v r => simpa [replicate_succ, Table.assign] using ih r
  | cons f fields b pk hlen ih =>
    cases r with
    | nil => rfl
    | cons v r => simpa [Table.assign] using ih r

theorem all_append_none (l : List (Option V)) :
    (l ++ replicate m none).all (·.isNone) = l.all (·.isNone) := by
  rw [all_append]
  simp

theorem UpdateRecord.append (h : UpdateRecord pk old new) :
    UpdateRecord (pk ++ replicate m false) (old ++ replicate m none)
      (new ++ replicate m none) := by
  induction h with
  | nil =>
    induction m with
    | zero => exact .nil
    | succ m ih => exact .keep ih
  | key x _ ih => exact .key x ih
  | keep _ ih => exact .keep ih
  | set x y _ hne ih => exact .set x y ih hne

end Columns

section Extended

variable {e : Env N V} {E : Entry V} {m : Nat}

def Env.whole (e : Env N V) : Env N V := { e with pk := e.table.pk }

structure Extends (e : Env N V) (E : Entry V) (E' : Entry V) : Prop where
  proper : E'.Proper e.patchset e.table.pk
  key : e.whole.key (E'.change e.patchset e.table.pk) = e.key (E.change e.patchset e.pk)
  rowStep : ∀ x, e.whole.rowStep (E'.change e.patchset e.table.pk) x =
    e.rowStep (E.change e.patchset e.pk) x

section

variable (hwidth : e.table.dflt.length = e.table.pk.length)
  (hpk : e.table.pk = e.pk ++ replicate m false) (i : Bool)

include hpk

theorem extends_deleteKey (k : Key V) (hkind : e.patchset = true)
    (hlen : k.length = e.pk.count true) :
    Extends e ⟨.delete, i, k.map some⟩
      (extendRecord e.patchset e.table.dflt e.pk.length ⟨.delete, i, k.map some⟩) := by
  have hrec : extendRecord e.patchset e.table.dflt e.pk.length ⟨.delete, i, k.map some⟩ =
      ⟨.delete, i, k.map some⟩ := by
    simp [extendRecord, hkind]
  have hlen' : k.length = e.table.pk.count true := by
    rw [hpk, count_append, hlen, count_replicate]
    simp
  rw [hrec]
  refine ⟨.deleteKey k i hkind hlen', ?_, fun x => ?_⟩
  · simp [Env.key, Change.keyRecord, change, Env.whole, hkind, keyFields_spread k hlen,
      keyFields_spread k hlen']
  · cases x with
    | none => rw [rowStep_none (by simp [change]), rowStep_none (by simp [change])]
    | some r =>
      rw [rowStep_delete rfl, rowStep_delete rfl]
      simp [Env.whole, hkind]

include hwidth

theorem extends_insert (r : Row V) (hlen : r.length = e.pk.length) :
    Extends e ⟨.insert, i, r.map some⟩
      (extendRecord e.patchset e.table.dflt e.pk.length ⟨.insert, i, r.map some⟩) := by
  have hrec : extendRecord e.patchset e.table.dflt e.pk.length ⟨.insert, i, r.map some⟩ =
      ⟨.insert, i, (r ++ e.table.dflt.drop e.pk.length).map some⟩ := by
    simp [extendRecord]
  rw [hrec]
  refine ⟨.insert _ i ?_, ?_, fun x => ?_⟩
  · rw [length_append, length_drop, hlen, hwidth, hpk]
    simp
  · simp only [Env.key, Change.keyRecord, change, Env.whole, if_true, map_append]
    rw [hpk, keyFields_append_false (by simpa using hlen)]
  · cases x with
    | some _ => rw [rowStep_insert_some rfl, rowStep_insert_some rfl]
    | none =>
      have hrest : e.table.dflt.drop (r ++ e.table.dflt.drop e.pk.length).length = [] := by
        refine drop_eq_nil_of_le ?_
        rw [length_append, length_drop]
        omega
      rw [rowStep_insert_none rfl, rowStep_insert_none rfl]
      simp only [change, defined_map_some, Option.map_some, Env.whole, hrest, hlen, append_nil]

theorem length_dflt_sub : e.table.dflt.length - e.pk.length = m := by
  rw [hwidth, hpk]
  simp

theorem extends_update (old new : List (Option V)) (hkind : e.patchset = false)
    (h : UpdateRecord e.pk old new) (hset : new.all (·.isNone) = false) :
    Extends e ⟨.update, i, old ++ new⟩
      (extendRecord e.patchset e.table.dflt e.pk.length ⟨.update, i, old ++ new⟩) := by
  have hrec : extendRecord e.patchset e.table.dflt e.pk.length ⟨.update, i, old ++ new⟩ =
      ⟨.update, i, (old ++ replicate m none) ++ (new ++ replicate m none)⟩ := by
    simp only [extendRecord, hkind, length_dflt_sub hwidth hpk, take_left' h.length_eq.1,
      drop_left' h.length_eq.1, Bool.false_eq_true, if_false]
  have hext := hpk ▸ h.append
  rw [hrec]
  refine ⟨.update _ _ i hkind hext ((all_append_none new).trans hset), ?_, fun x => ?_⟩
  · simp only [Env.key, Change.keyRecord, change, hkind, h.oldRecord_eq, hext.oldRecord_eq,
      Env.whole, Bool.false_eq_true, if_false, reduceCtorEq]
    rw [hpk, keyFields_append_false h.length_eq.1]
  · rw [h.change_eq hkind, hext.change_eq hkind]
    cases x with
    | none => rw [rowStep_none (by simp), rowStep_none (by simp)]
    | some r =>
      rw [rowStep_update rfl, rowStep_update rfl]
      simp only [Env.whole, hpk, nonKey_append_false h.length_eq.1,
        nonKey_append_false h.length_eq.2, all_append_none, holds_append_none,
        assign_append_none h.length_eq.2]

theorem extends_patch (fields : List (Option V)) (hkind : e.patchset = true)
    (hlen : fields.length = e.pk.length) (hkey : ∀ f ∈ keyFields e.pk fields, f ≠ none)
    (hset : (nonKey e.pk fields).all (·.isNone) = false) :
    Extends e ⟨.update, i, fields⟩
      (extendRecord e.patchset e.table.dflt e.pk.length ⟨.update, i, fields⟩) := by
  have hrec : extendRecord e.patchset e.table.dflt e.pk.length ⟨.update, i, fields⟩ =
      ⟨.update, i, fields ++ replicate m none⟩ := by
    simp only [extendRecord, hkind, length_dflt_sub hwidth hpk, if_true]
  have hlen' : (fields ++ replicate m none).length = e.table.pk.length := by
    rw [hpk]
    simp [hlen]
  have hkeys : keyFields e.table.pk (fields ++ replicate m none) = keyFields e.pk fields := by
    rw [hpk, keyFields_append_false hlen]
  have hnon : nonKey e.table.pk (fields ++ replicate m none) =
      nonKey e.pk fields ++ replicate m none := by
    rw [hpk, nonKey_append_false hlen]
  rw [hrec]
  refine ⟨.patch _ i hkind hlen' ?_ ?_, ?_, fun x => ?_⟩
  · rwa [hkeys]
  · rwa [hnon, all_append_none]
  · simp [Env.key, Change.keyRecord, change, hkind, Env.whole, keyFields_keyOnly hlen,
      keyFields_keyOnly hlen', hkeys]
  · rw [change_patch hkind, change_patch hkind]
    cases x with
    | none => rw [rowStep_none (by simp), rowStep_none (by simp)]
    | some r =>
      have hlen'' : (nonKey e.pk fields).length = e.pk.length := by simp [nonKey, hlen]
      rw [rowStep_update rfl, rowStep_update rfl]
      simp only [Env.whole, hnon, hkind, Bool.true_or]
      rw [hpk, assign_append_none hlen'', nonKey_append_false hlen'', all_append_none]

theorem Entry.Proper.extends (hE : E.Proper e.patchset e.pk)
    (hdelete : E.op = .delete → e.patchset = true) :
    Extends e E (extendRecord e.patchset e.table.dflt e.pk.length E) := by
  cases hE with
  | insert r i hlen => exact extends_insert hwidth hpk i r hlen
  | delete r i hkind hlen => exact absurd (hdelete rfl) (by simp [hkind])
  | deleteKey k i hkind hlen => exact extends_deleteKey hpk i k hkind hlen
  | update old new i hkind h hset => exact extends_update hwidth hpk i old new hkind h hset
  | patch fields i hkind hlen hkey hset =>
    exact extends_patch hwidth hpk i fields hkind hlen hkey hset

end

theorem mem_extendRecord (h : some v ∈ (extendRecord patchset dflt n E).record) :
    some v ∈ E.record ∨ v ∈ dflt := by
  have hdrop : v ∈ dflt.drop n → v ∈ dflt := mem_of_mem_drop
  cases hop : E.op with
  | insert =>
    simp only [extendRecord, hop, mem_append, mem_map, Option.some.injEq, exists_eq_right] at h
    exact h.imp_right hdrop
  | delete =>
    cases patchset with
    | true => exact .inl (by simpa [extendRecord, hop] using h)
    | false =>
      simp only [extendRecord, hop, Bool.false_eq_true, if_false, mem_append, mem_map,
        Option.some.injEq, exists_eq_right] at h
      exact h.imp_right hdrop
  | update =>
    cases patchset with
    | true => exact .inl (by simpa [extendRecord, hop] using h)
    | false =>
      simp only [extendRecord, hop, Bool.false_eq_true, if_false, mem_append,
        mem_replicate, reduceCtorEq, and_false, or_false] at h
      exact .inl (h.elim mem_of_mem_take mem_of_mem_drop)

variable [DecidableEq V] {A : V → Prop} {rows : Content V} {κ : Key V} {y : Option (Row V)}

/-- An entry that was applied to a row says with all columns what it did. -/
theorem Entry.Proper.explains_full (ht : e.table.Exact A) (hrows : e.table.Sound A rows)
    (hlen : e.pk.length ≤ e.table.pk.length) (hmin : minColumns e.table.pk ≤ e.pk.length)
    (htake : e.table.pk.take e.pk.length = e.pk) (hE : E.Proper e.patchset e.pk)
    (hA : ∀ v, some v ∈ E.record → A v)
    (hdelete : E.op = .delete → e.patchset = false → e.pk = e.table.pk)
    (hkey : e.key (E.change e.patchset e.pk) = some κ)
    (hstep : e.rowStep (E.change e.patchset e.pk) (rows κ) = some y) :
    ∃ k, κ = e.table.norm k ∧ Explains e.table.pk e.patchset A k (rows κ) y
      (e.table.full e.patchset e.pk.length E) := by
  rcases Nat.lt_or_eq_of_le hlen with hlt | heq
  · have hkind : E.op = .delete → e.patchset = true := by
      intro hop
      by_contra hp
      rw [hdelete hop (Bool.eq_false_iff.mpr hp)] at hlt
      exact Nat.lt_irrefl _ hlt
    have hext := Proper.extends ht.width (eq_append_of_match hmin htake) hE hkind
    rw [Table.full, if_pos hlt]
    refine Proper.explains (e := e.whole) ht rfl hrows hext.proper ?_ (hext.key.trans hkey)
      ((hext.rowStep _).trans hstep)
    intro v hv
    exact (mem_extendRecord hv).elim (hA v) (ht.dflt v)
  · have hpk : e.pk = e.table.pk := by rw [← htake, heq, take_length]
    rw [Table.full, if_neg (by omega), ← hpk]
    exact hE.explains ht hpk hrows hA hkey hstep

end Extended

end SqlCipher.Changeset
