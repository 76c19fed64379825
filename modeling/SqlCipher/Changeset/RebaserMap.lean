import SqlCipher.Changeset.RebaseStand
import SqlCipher.Changeset.Steps

/-!
# Rebasers as maps

A rebaser that was configured with rebase buffers has, for each row, what becomes of the records of
the row when they are merged one after the other.
-/

namespace SqlCipher.Changeset

open List Option

variable {N V : Type}

def RebaseEntry.row (e : RebaseEntry N V) : N × List (Option V) :=
  (e.header.tab, keyFields e.header.pk e.record)

section Shapes

variable {pk : List Bool} {k : Key V} {record : List (Option V)} {e : RebaseEntry N V}
  {exist : Option (RebaseChange V)} {c : RebaseChange V}

theorem exists_key_field (hlen : record.length = pk.length)
    (hkey : keyFields pk record = k.map some) {i : Nat} (hi : pk[i]? = some true) :
    ∃ v, record[i]? = some (some v) := by
  obtain ⟨f, hf⟩ := exists_getElem? hlen hi
  have hmem : f ∈ keyFields pk record := by
    rw [keyFields, List.mem_map]
    exact ⟨(true, f), mem_filter.mpr ⟨mem_of_getElem? (getElem?_zip₂ hi hf), rfl⟩, rfl⟩
  rw [hkey] at hmem
  obtain ⟨v, -, rfl⟩ := mem_map.mp hmem
  exact ⟨v, hf⟩

structure RebaseChange.Shape (pk : List Bool) (k : Key V) (c : RebaseChange V) : Prop where
  length : c.record.length = pk.length
  key : c.key pk = k.map some

theorem RebaseChange.key_eq (c : RebaseChange V) :
    c.key pk = keyFields pk (c.record.map Field.value?) := (keyFields_map ..).symm

theorem rebaseMerge_shape (hlen : e.record.length = pk.length)
    (hkey : keyFields pk e.record = k.map some) (hexist : ∀ c, exist = some c → c.Shape pk k)
    (h : rebaseMerge pk exist e = some c) : c.Shape pk k := by
  have hfields : c.record.length = pk.length ∧ ∀ i : Nat, pk[i]? = some true →
      (c.record.map Field.value?)[i]? = e.record[i]? := by
    cases exist with
    | none =>
      obtain rfl := some.inj h
      refine ⟨length_firstRecord hlen, fun i hi => ?_⟩
      obtain ⟨v, hv⟩ := exists_key_field hlen hkey hi
      simp only [getElem?_map, getElem?_firstRecord hi hv, hv]
      rfl
    | some c₀ =>
      obtain ⟨hlen₀, hkey₀⟩ := hexist c₀ rfl
      rw [RebaseChange.key_eq] at hkey₀
      simp only [rebaseMerge] at h
      split at h
      · cases h
      · obtain rfl := some.inj h
        refine ⟨length_nextRecord hlen₀ hlen, fun i hi => ?_⟩
        obtain ⟨v, hv⟩ := exists_key_field hlen hkey hi
        obtain ⟨φ, hφ⟩ := exists_getElem? hlen₀ hi
        obtain ⟨w, hw⟩ := exists_key_field (by simpa using hlen₀) hkey₀ hi
        simp only [getElem?_map, getElem?_nextRecord hi hφ hv, hv]
        rw [getElem?_map, hφ] at hw
        cases φ with
        | value u => rfl
        | undefined => cases hw
        | replaced => cases hw
  refine ⟨hfields.1, ?_⟩
  rw [RebaseChange.key_eq, ← hkey]
  exact keyFields_congr (by simpa using hfields.1) hlen hfields.2

def mergeRecords (pk : List Bool) (l : List (RebaseEntry N V)) : Option (RebaseChange V) :=
  l.foldl (rebaseMerge pk) none

theorem mergeRecords_concat (l : List (RebaseEntry N V)) :
    mergeRecords pk (l ++ [e]) = rebaseMerge pk (mergeRecords pk l) e := by
  rw [mergeRecords, foldl_append]
  rfl

theorem rebaseMerge_congr {N' : Type} {e' : RebaseEntry N' V} (hdelete : e.isDelete = e'.isDelete)
    (hreplace : e.replace = e'.replace) (hrecord : e.record = e'.record) :
    rebaseMerge pk exist e = rebaseMerge pk exist e' := by
  cases exist <;> simp [rebaseMerge, hdelete, hreplace, hrecord]

theorem exists_last_record (h : mergeRecords pk l = some c) :
    ∃ e ∈ l, e.isDelete = c.isDelete ∧ (c.indirect = false → e.replace = false) := by
  rcases eq_nil_or_concat l with rfl | ⟨l, e, rfl⟩
  · cases h
  · rw [concat_eq_append, mergeRecords_concat] at h
    refine ⟨e, by simp, ?_⟩
    cases hexist : mergeRecords pk l with
    | none =>
      rw [hexist] at h
      obtain rfl := some.inj h
      exact ⟨rfl, id⟩
    | some c₀ =>
      rw [hexist, rebaseMerge] at h
      split at h
      · cases h
      · obtain rfl := some.inj h
        exact ⟨rfl, fun h => (Bool.or_eq_false_iff.mp h).1⟩

/-- A change is indirect because of a conflict that was answered REPLACE. -/
theorem exists_replaced (h : mergeRecords pk l = some c)
    (hind : c.indirect = true) : ∃ e ∈ l, e.replace = true := by
  by_contra hnone
  have hfold : ∀ exist : Option (RebaseChange V), (∀ c, exist = some c → c.indirect = false) →
      ∀ c, l.foldl (rebaseMerge pk) exist = some c → c.indirect = false := by
    clear h
    induction l with
    | nil => exact fun _ hexist => hexist
    | cons e l ih =>
      intro exist hexist
      refine ih (fun h => hnone (h.imp fun _ he' => ⟨mem_cons_of_mem e he'.1, he'.2⟩))
        _ fun c hc => ?_
      have he : e.replace = false := Bool.eq_false_iff.mpr fun hr => hnone ⟨e, mem_cons_self, hr⟩
      cases exist with
      | none =>
        obtain rfl := some.inj hc
        exact he
      | some c₀ =>
        rw [rebaseMerge] at hc
        split at hc
        · cases hc
        · obtain rfl := some.inj hc
          simp [he, hexist c₀ rfl]
  exact absurd (hind.symm.trans (hfold none (by simp) c h)) (by simp)

theorem mergeRecords_shape {l : List (RebaseEntry N V)}
    (hl : ∀ e ∈ l, e.record.length = pk.length ∧ keyFields pk e.record = k.map some)
    (h : mergeRecords pk l = some c) : c.Shape pk k := by
  have hfold : ∀ exist : Option (RebaseChange V), (∀ c, exist = some c → c.Shape pk k) →
      ∀ c, l.foldl (rebaseMerge pk) exist = some c → c.Shape pk k := by
    clear h
    induction l with
    | nil => exact fun _ hexist => hexist
    | cons e l ih =>
      intro exist hexist
      obtain ⟨hlen, hkey⟩ := hl e mem_cons_self
      exact ih (fun e he => hl e (mem_cons_of_mem _ he)) _
        fun _ => rebaseMerge_shape hlen hkey hexist
  exact hfold none nofun c h

end Shapes

section Configure

variable [DecidableEq N] [DecidableEq V] {w : World N V} (T : ExactTables w false)
  (hash : List (Option V) → Nat)

omit [DecidableEq N] [DecidableEq V] in
structure ExactTables.Books (e : RebaseEntry N V) (t : Table V) (k : Key V) : Prop where
  table : T.table e.header.tab = some t
  pk : e.header.pk = t.pk
  length : e.record.length = t.pk.length
  key : keyFields t.pk e.record = k.map some

def changeUnder (n : N) (K : List (Option V)) (ts : List (RebaseTable N V)) :
    Option (RebaseChange V) :=
  (ts.find? (·.tab = n)).bind fun u => u.changes.find (RebaseChange.key u.pk) hash K

structure InOrder (ts : List (RebaseTable N V)) : Prop where
  names : (ts.map (·.tab)).Nodup
  tables : ∀ u ∈ ts, ∃ t, T.table u.tab = some t ∧ u.pk = t.pk ∧
    u.changes.Wf (RebaseChange.key t.pk) hash

structure Configured (l : List (RebaseEntry N V)) (ts : List (RebaseTable N V)) : Prop
    extends InOrder T hash ts where
  books : ∀ e ∈ l, ∃ t k, T.Books e t k
  find_eq : ∀ n t K, T.table n = some t →
    changeUnder hash n K ts = mergeRecords t.pk (l.filter fun e => e.row = (n, K))

variable {T hash} {e : RebaseEntry N V} {t : Table V} {k : Key V} {ts : List (RebaseTable N V)}
  {l l' : List (RebaseEntry N V)}

theorem configured_nil : Configured T hash [] [] :=
  ⟨⟨nodup_nil, nofun⟩, nofun, fun _ _ _ _ => rfl⟩

theorem changeUnder_cons (n : N) (K : List (Option V)) (u : RebaseTable N V) :
    changeUnder hash n K (u :: ts) =
      if u.tab = n then u.changes.find (RebaseChange.key u.pk) hash K
      else changeUnder hash n K ts := by
  by_cases h : u.tab = n <;> simp [changeUnder, h]

omit [DecidableEq N] in
theorem RebaseTable.add_spec {u : RebaseTable N V} (he : T.Books e t k) (hpk : u.pk = t.pk)
    (hwf : u.changes.Wf (RebaseChange.key t.pk) hash)
    (hkey : ∀ a, rebaseMerge t.pk (u.changes.find (RebaseChange.key t.pk) hash (k.map some)) e =
      some a → a.key t.pk = k.map some) :
    (u.add hash e).changes.Wf (RebaseChange.key t.pk) hash ∧
      ∀ K, (u.add hash e).changes.find (RebaseChange.key t.pk) hash K =
        if k.map some = K then
          rebaseMerge t.pk (u.changes.find (RebaseChange.key t.pk) hash K) e
        else u.changes.find (RebaseChange.key t.pk) hash K := by
  obtain ⟨hwf', hfind⟩ := hwf.alter (f := fun exist => rebaseMerge t.pk exist e) hkey
  have hadd : (u.add hash e).changes = u.changes.alter (RebaseChange.key t.pk) hash (k.map some)
      fun exist => rebaseMerge t.pk exist e := by
    rw [RebaseTable.add, hpk, he.key]
  rw [hadd]
  refine ⟨hwf', fun K => ?_⟩
  rw [hfind]
  by_cases hK : k.map some = K
  · rw [if_pos hK, if_pos hK.symm, hK]
  · rw [if_neg hK, if_neg (Ne.symm hK)]

/-- A record is merged with those under its key, and the others stay. -/
theorem addRecord_spec (he : T.Books e t k) (h : InOrder T hash ts)
    (hkey : ∀ a, rebaseMerge t.pk (changeUnder hash e.header.tab (k.map some) ts) e = some a →
      a.key t.pk = k.map some) :
    ∃ ts', addRecord hash e ts = .ok ts' ∧ InOrder T hash ts' ∧
      (∀ n ∈ ts'.map (·.tab), n ∈ ts.map (·.tab) ∨ n = e.header.tab) ∧
      ∀ n K, changeUnder hash n K ts' =
        if e.header.tab = n ∧ k.map some = K then rebaseMerge t.pk (changeUnder hash n K ts) e
        else changeUnder hash n K ts := by
  induction ts with
  | nil =>
    obtain ⟨hwf, hfind⟩ := RebaseTable.add_spec (u := { e.header with changes := .empty }) he he.pk
      HashTable.wf_empty (fun a ha => hkey a ha)
    refine ⟨_, rfl, ⟨by simp, ?_⟩, ?_, fun n K => ?_⟩
    · simp only [forall_mem_singleton]
      exact ⟨t, he.table, he.pk, hwf⟩
    · simp [RebaseTable.add]
    · have htab : (RebaseTable.add hash { e.header with changes := .empty } e).tab =
          e.header.tab := rfl
      have hpk : (RebaseTable.add hash { e.header with changes := .empty } e).pk = t.pk := he.pk
      rw [changeUnder_cons, htab, hpk, hfind]
      by_cases hn : e.header.tab = n
      · rw [if_pos hn]
        simp only [hn, true_and]
        rfl
      · rw [if_neg hn, if_neg fun h => hn h.1]
  | cons u ts ih =>
    obtain ⟨t', ht', hpk, hwf⟩ := h.tables u mem_cons_self
    obtain ⟨hnot, hnames⟩ := nodup_cons.mp h.names
    rw [changeUnder_cons] at hkey
    by_cases hu : u.tab = e.header.tab
    · obtain rfl : t = t' := some.inj (he.table.symm.trans (hu ▸ ht'))
      rw [if_pos hu, hpk] at hkey
      obtain ⟨hwf', hfind⟩ := RebaseTable.add_spec he hpk hwf hkey
      refine ⟨u.add hash e :: ts, ?_, ⟨h.names, ?_⟩, ?_, fun n K => ?_⟩
      · rw [addRecord, if_pos hu, if_pos (hpk.trans he.pk.symm)]
      · exact forall_mem_cons.mpr ⟨⟨t, ht', hpk, hwf'⟩, fun u' hu' =>
          h.tables u' (mem_cons_of_mem u hu')⟩
      · exact fun n hn => .inl hn
      · have hpk' : (u.add hash e).pk = t.pk := hpk
        rw [changeUnder_cons, changeUnder_cons, hpk', hpk, hfind, ← hu]
        by_cases hn : u.tab = n
        · simp only [hn, true_and, if_true]
          rw [if_pos (show (u.add hash e).tab = n from hn)]
        · rw [if_neg (show ¬(u.add hash e).tab = n from hn), if_neg hn, if_neg fun h => hn h.1]
    · rw [if_neg hu] at hkey
      obtain ⟨ts', hts', horder, hsub, hfind⟩ := ih
        ⟨hnames, fun u' hu' => h.tables u' (mem_cons_of_mem u hu')⟩ hkey
      refine ⟨u :: ts', ?_, ⟨?_, ?_⟩, ?_, fun n K => ?_⟩
      · rw [addRecord, if_neg hu, hts']
        rfl
      · refine nodup_cons.mpr ⟨fun hmem => ?_, horder.names⟩
        exact (hsub _ hmem).elim hnot hu
      · exact forall_mem_cons.mpr ⟨⟨t', ht', hpk, hwf⟩, horder.tables⟩
      · intro n hn
        rcases mem_cons.mp hn with rfl | hn
        · exact .inl mem_cons_self
        · exact (hsub n hn).imp_left (mem_cons_of_mem _)
      · rw [changeUnder_cons, changeUnder_cons, hfind]
        by_cases hn : u.tab = n
        · rw [if_pos hn, if_pos hn, if_neg fun h => hu (hn.trans h.1.symm)]
        · rw [if_neg hn, if_neg hn]

theorem Configured.add (he : T.Books e t k) (h : Configured T hash l ts) :
    ∃ ts', addRecord hash e ts = .ok ts' ∧ Configured T hash (l ++ [e]) ts' := by
  have hrow : e.row = (e.header.tab, k.map some) := by rw [RebaseEntry.row, he.pk, he.key]
  have hshape : ∀ c, changeUnder hash e.header.tab (k.map some) ts = some c → c.Shape t.pk k := by
    intro c hc
    rw [h.find_eq _ t _ he.table] at hc
    refine mergeRecords_shape (fun e' he' => ?_) hc
    obtain ⟨hmem, hrow'⟩ := mem_filter.mp he'
    obtain ⟨t', k', ht', hpk', hlen', hkey'⟩ := h.books e' hmem
    have hrow' : e'.row = (e.header.tab, k.map some) := by simpa using hrow'
    simp only [RebaseEntry.row, Prod.mk.injEq] at hrow'
    rw [hrow'.1] at ht'
    obtain rfl := Option.mem_unique he.table ht'
    exact ⟨hlen', hpk' ▸ hrow'.2⟩
  obtain ⟨ts', hadd, horder, -, hfind⟩ := addRecord_spec he h.toInOrder fun a ha =>
    (rebaseMerge_shape he.length he.key hshape ha).key
  refine ⟨ts', hadd, horder, ?_, fun n t' K ht' => ?_⟩
  · simpa [or_imp, forall_and] using ⟨h.books, t, k, he⟩
  · rw [hfind, h.find_eq n t' K ht', filter_append, filter_singleton, hrow]
    by_cases hloc : e.header.tab = n ∧ k.map some = K
    · obtain ⟨rfl, rfl⟩ := hloc
      obtain rfl := Option.mem_unique he.table ht'
      simp [mergeRecords_concat]
    · rw [if_neg hloc]
      simp [hloc]

theorem exists_configured (hl' : ∀ e ∈ l', ∃ t k, T.Books e t k) (h : Configured T hash l ts) :
    ∃ r, Rebaser.configure hash l' ⟨ts⟩ = .ok r ∧ Configured T hash (l ++ l') r.tables := by
  suffices hfold : ∃ ts', l'.foldlM (fun ts e => addRecord hash e ts) ts = .ok ts' ∧
      Configured T hash (l ++ l') ts' by
    obtain ⟨ts', hts', hconf⟩ := hfold
    exact ⟨⟨ts'⟩, by rw [Rebaser.configure, hts']; rfl, hconf⟩
  induction l' generalizing l ts with
  | nil => exact ⟨ts, rfl, by simpa using h⟩
  | cons e l' ih =>
    obtain ⟨t, k, he⟩ := hl' e mem_cons_self
    obtain ⟨ts₁, hts₁, hconf₁⟩ := h.add he
    obtain ⟨ts', hts', hconf'⟩ := ih (fun e he => hl' e (mem_cons_of_mem _ he)) hconf₁
    refine ⟨ts', ?_, by simpa using hconf'⟩
    rw [foldlM_cons, hts₁]
    exact hts'

theorem Configured.find {r : Rebaser N V} (h : Configured T hash l r.tables)
    (ht : T.table n = some t) (E : Entry V) : r.find hash n E =
      mergeRecords t.pk (l.filter fun e => e.row = (n, keyFields t.pk E.record)) := by
  rw [← h.find_eq n t _ ht, Rebaser.find, changeUnder]
  cases hu : r.tables.find? (·.tab = n) with
  | none => rfl
  | some u =>
    obtain ⟨t', ht', hpk, -⟩ := h.tables u (mem_of_find?_eq_some hu)
    obtain rfl : u.tab = n := by simpa using find?_some hu
    obtain rfl := Option.mem_unique ht ht'
    simp only [bind_some, hpk]

end Configure

end SqlCipher.Changeset
