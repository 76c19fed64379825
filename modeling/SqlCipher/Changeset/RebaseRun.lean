import SqlCipher.Changeset.RebaserMap

/-!
# Remote changesets, applied one after the other

Remote changesets were recorded one after the other, and are applied to the local database. Seen
from one row, each call is a `Meeting` or leaves the row as it is, so what the rebaser knows about a
row that the local changeset changes is a `Stand`.
-/

namespace SqlCipher.Changeset

open Proc Function List Option

variable {N V : Type}

theorem Blob.pairs_decode {R : Blob N V} (h : ∀ c ∈ R.changes, c.2.Readable R.patchset c.1.pk) :
    R.decode.1.groups.flatMap Group.pairs =
      R.changes.map fun c => (c.1, c.2.change R.patchset c.1.pk) := by
  rw [Blob.decode_of_readable h, Blob.changes, map_flatMap, flatMap_map]
  refine flatMap_congr fun b _ => ?_
  simp [Group.pairs, Block.group]

section Entries

variable [DecidableEq V] {pk : List Bool} {k : Key V} {x x' : Option (Row V)} {E : Entry V}

theorem Describes.conflict_spec (hx : OnKey pk k x) (hx' : OnKey pk k x')
    (h : Describes pk false x x' E) :
    (E.conflict pk).2.length = pk.length ∧ keyFields pk (E.conflict pk).2 = k.map some := by
  cases h with
  | insert r i =>
    exact ⟨by simpa [Entry.conflict, RebaseEntry.of, Entry.change] using (hx' r rfl).1,
      by simp [Entry.conflict, RebaseEntry.of, Entry.change, keyFields_map, (hx' r rfl).2]⟩
  | delete r i =>
    exact ⟨by simpa [Entry.conflict, RebaseEntry.of, Entry.change] using (hx r rfl).1,
      by simp [Entry.conflict, RebaseEntry.of, Entry.change, keyFields_map, (hx r rfl).2]⟩
  | update r r' i hkind hne =>
    have hkin : Kin pk r r' := hx.kin hx'
    have hlen := length_conflictRecord hkin
    rw [conflict_update hkin]
    refine ⟨hlen, ?_⟩
    rw [← (hx r rfl).2, ← keyFields_map]
    refine keyFields_congr hlen (by simpa using (hx r rfl).1) fun i hi => ?_
    rcases hkin.column i with ⟨hb, -⟩ | ⟨b, u, v, hb, hu, hv, -⟩
    · cases hi.symm.trans hb
    · cases Option.mem_unique hi hb
      rw [getElem?_conflictRecord hb hu hv, getElem?_map, hu]
      rfl
  | patch => contradiction

theorem Describes.eq_none (h : Describes pk false x x' E) (hop : E.op = .delete) : x' = none := by
  cases h with
  | insert r i => cases hop
  | delete r i => rfl
  | update r r' i _ _ => cases hop
  | patch r r' i fields _ _ _ => cases hop

end Entries

variable [DecidableEq N] [DecidableEq V]

def rowOf (c : Header N × Entry V) : N × List (Option V) :=
  (c.1.tab, entryKey false c.1.pk c.2)

def Table.env (t : Table V) (w : World N V) (flags : Flags) (h : Header N) : Env N V :=
  { h with world := w, flags, patchset := false, table := t }

section Rows

variable {w : World N V} {flags : Flags} {T : ExactTables w false} {l : List (Header N × Entry V)}
  {c : Header N × Entry V} {x x' y y' : N → Content V} {n : N} {t : Table V} {k : Key V}
  {rb : List (RebaseEntry N V)}

omit [DecidableEq N] [DecidableEq V] in
theorem ExactTables.Sound.within (hx : T.Sound x) (ht : T.table n = some t) :
    Within (T.values n) (x n κ) := fun r hr => (hx n t ht κ r hr).2.2

omit [DecidableEq N] [DecidableEq V] in
theorem ExactTables.row_inj (T : ExactTables w false)
    (ht : T.table c.1.tab = some t) (hrow : rowOf c = (c.1.tab, k.map some))
    (ht' : T.table n = some t') (hrow' : rowOf c = (n, k'.map some)) :
    c.1.tab = n ∧ t = t' ∧ k = k' := by
  obtain ⟨rfl, hkey⟩ := Prod.mk.inj (hrow.symm.trans hrow')
  exact ⟨rfl, Option.mem_unique ht ht', eq_of_map_some hkey⟩

theorem ExactTables.update_other (T : ExactTables w false)
    (ht' : T.table n' = some t') (hk' : ∀ v ∈ k', T.values n' v)
    (ht : T.table n = some t) (hk : ∀ v ∈ k, T.values n v)
    (hne : (n', k'.map some) ≠ (n, k.map some)) (y : N → Content V) :
    update y n' (update (y n') (t'.norm k') z) n (t.norm k) =
      y n (t.norm k) := by
  by_cases hn : n' = n
  · subst hn
    obtain rfl := Option.mem_unique ht' ht
    rw [update_self, update_of_ne]
    intro heq
    obtain rfl : k = k' := (T.exact _ t' ht).norm _ _ hk hk' heq
    exact hne rfl
  · rw [update_of_ne (Ne.symm hn)]

theorem ExactTables.Recorded.row (h : T.Recorded l x x') (ht : T.table n = some t)
    (hk : ∀ v ∈ k, T.values n v) :
    (∃ c ∈ l, rowOf c = (n, k.map some) ∧ c.1.pk = t.pk ∧
      Explains t.pk false (T.values n) k (x n (t.norm k)) (x' n (t.norm k)) c.2) ∨
    ((n, k.map some) ∉ l.map rowOf ∧ x' n (t.norm k) = x n (t.norm k)) := by
  by_cases hmem : (n, k.map some) ∈ l.map rowOf
  · obtain ⟨c, hc, hrow⟩ := mem_map.mp hmem
    obtain ⟨rfl, hkey⟩ := Prod.mk.inj hrow
    obtain ⟨t', k', ht', hpk, hexplains⟩ := h.explains c hc
    obtain rfl := Option.mem_unique ht ht'
    rw [hpk] at hkey
    obtain rfl : k' = k := eq_of_map_some (hexplains.key.symm.trans hkey)
    exact .inl ⟨c, hc, hrow, hpk, hexplains⟩
  · refine .inr ⟨hmem, h.rest n _ fun c hc t' k' ht' hkey hn heq => ?_⟩
    subst hn
    obtain rfl := Option.mem_unique ht ht'
    obtain ⟨t'', k'', ht'', hpk, hexplains⟩ := h.explains c hc
    obtain rfl := Option.mem_unique ht ht''
    obtain rfl : k'' = k' := eq_of_map_some (hexplains.key.symm.trans hkey)
    obtain rfl : k = k'' := (T.exact _ t ht).norm _ _ hk hexplains.within heq
    exact hmem (mem_map.mpr ⟨c, hc, by rw [rowOf, hpk, hkey]⟩)

/-- A change with all columns to the row with the key `k` of the table `t`. -/
structure ExactTables.Aims (T : ExactTables w false) (flags : Flags) (c : Header N × Entry V)
    (t : Table V) (k : Key V) : Prop where
  table : T.table c.1.tab = some t
  pk : c.1.pk = t.pk
  within : ∀ v ∈ k, T.values c.1.tab v
  row : rowOf c = (c.1.tab, k.map some)
  key : (t.env w flags c.1).key (c.2.change false c.1.pk) = some (t.norm k)
  length : (c.2.conflict t.pk).2.length = t.pk.length
  record : keyFields t.pk (c.2.conflict t.pk).2 = k.map some

omit [DecidableEq N] in
theorem ExactTables.Recorded.aims (h : T.Recorded l x x') (hx : T.Sound x) (flags : Flags)
    (hc : c ∈ l) : ∃ t k, T.Aims flags c t k := by
  obtain ⟨t, k, ht, hpk, hexplains⟩ := h.explains c hc
  obtain ⟨hlen, hrecord⟩ := hexplains.describes.conflict_spec hexplains.before hexplains.after
  obtain ⟨-, -, hbefore, hafter, -, hdescribes⟩ := hpk.symm ▸ hexplains
  obtain ⟨-, hkey, -⟩ := Describes.effect (e := t.env w flags c.1) (T.exact _ t ht) hpk hbefore
    hafter (hx.within ht) hdescribes
  exact ⟨t, k, ht, hpk, hexplains.within, by rw [rowOf, hpk, hexplains.key], hkey, hlen, hrecord⟩

omit [DecidableEq N] [DecidableEq V] in
/-- The record that a conflict of the change leaves. -/
theorem ExactTables.Aims.of_mem_booked (h : T.Aims flags c t k)
    (he : e ∈ (t.env w flags c.1).booked (c.2.change false c.1.pk) o) :
    T.Books e t k ∧ e.row = (c.1.tab, k.map some) ∧ o = some e.replace ∧
      e.isDelete = (c.2.conflict t.pk).1 ∧ e.record = (c.2.conflict t.pk).2 := by
  obtain ⟨replace, rfl, rfl⟩ := map_eq_some_iff.mp (mem_toList.mp he)
  have hrecord : (RebaseEntry.of (t.env w flags c.1).toHeader replace
      (c.2.change false c.1.pk)).record = (c.2.conflict t.pk).2 := by
    rw [← h.pk]
    rfl
  refine ⟨⟨h.table, h.pk, ?_, ?_⟩, ?_, rfl, ?_, hrecord⟩
  · rw [hrecord, h.length]
  · rw [hrecord, h.record]
  · rw [RebaseEntry.row, hrecord]
    refine Prod.ext rfl ?_
    exact (congrArg (keyFields · _) h.pk).trans h.record
  · rw [← h.pk]
    rfl

theorem Settles.uncons (haims : T.Aims flags c t k)
    (h : Settles w flags false ((c :: l).map fun c => (c.1, c.2.change false c.1.pk)) y rb y') :
    ∃ z o rb', rb = (t.env w flags c.1).booked (c.2.change false c.1.pk) o ++ rb' ∧
      (t.env w flags c.1).Lands (c.2.change false c.1.pk) (y c.1.tab (t.norm k)) z o ∧
      Settles w flags false (l.map fun c => (c.1, c.2.change false c.1.pk))
        (update y c.1.tab (update (y c.1.tab) (t.norm k) z)) rb' y' := by
  have hmatch := ExactTables.match_of_pk haims.table haims.pk flags
  rw [map_cons] at h
  cases h with
  | skip hm _ => exact absurd (hm.symm.trans hmatch) nofun
  | @cons _ _ rb' _ _ _ e κ z o hm hκ hland hl =>
    obtain rfl := Option.mem_unique hmatch hm
    obtain rfl := Option.mem_unique haims.key hκ
    exact ⟨z, o, rb', rfl, hland, hl⟩

/-- The rows and the rebase records that changes leave which land one after the other. -/
theorem Settles.row (hnodup : (l.map rowOf).Nodup) (hmem : ∀ c ∈ l, ∃ t k, T.Aims flags c t k)
    (h : Settles w flags false (l.map fun c => (c.1, c.2.change false c.1.pk)) y rb y')
    (ht : T.table n = some t) (hk : ∀ v ∈ k, T.values n v) :
    (∃ c ∈ l, rowOf c = (n, k.map some) ∧ ∃ o, (t.env w flags c.1).Lands (c.2.change false c.1.pk)
      (y n (t.norm k)) (y' n (t.norm k)) o ∧
      rb.filter (fun e => e.row = (n, k.map some)) =
        (t.env w flags c.1).booked (c.2.change false c.1.pk) o) ∨
    ((n, k.map some) ∉ l.map rowOf ∧ y' n (t.norm k) = y n (t.norm k) ∧
      rb.filter (fun e => e.row = (n, k.map some)) = []) := by
  induction l generalizing y rb with
  | nil =>
    cases h
    exact .inr ⟨by simp, rfl, rfl⟩
  | cons c l ih =>
    obtain ⟨hnot, hnodup⟩ := nodup_cons.mp hnodup
    obtain ⟨t₁, k₁, haims⟩ := hmem c mem_cons_self
    have hmem' : ∀ c ∈ l, ∃ t k, T.Aims flags c t k := fun c hc =>
      hmem c (mem_cons_of_mem _ hc)
    obtain ⟨z, o, rb, rfl, hland, hl⟩ := h.uncons haims
    have hrest := ih hnodup hmem' hl
    rw [filter_append]
    by_cases hrow : rowOf c = (n, k.map some)
    · -- the other changes are for other rows
      obtain ⟨rfl, rfl, rfl⟩ := T.row_inj haims.table haims.row ht hrow
      rcases hrest with ⟨c', hc', hrow', -⟩ | ⟨-, hsame, hnone⟩
      · exact absurd (mem_map.mpr ⟨c', hc', hrow'.trans hrow.symm⟩) hnot
      · refine .inl ⟨c, mem_cons_self, hrow, o, ?_, ?_⟩
        · simpa [hsame] using hland
        · rw [hnone, append_nil, filter_eq_self]
          exact fun e he => by simp [(haims.of_mem_booked he).2.1]
    · have hother := T.update_other (z := z) haims.table haims.within ht hk (haims.row ▸ hrow) y
      have hbooked : ((t₁.env w flags c.1).booked (c.2.change false c.1.pk) o).filter
          (fun e => e.row = (n, k.map some)) = [] := by
        rw [filter_eq_nil_iff]
        intro e he
        rw [(haims.of_mem_booked he).2.1, ← haims.row]
        simpa using hrow
      rw [hbooked, nil_append]
      rw [hother] at hrest
      rcases hrest with ⟨c', hc', hrow', hland'⟩ | ⟨hnone, hsame⟩
      · exact .inl ⟨c', mem_cons_of_mem c hc', hrow', hland'⟩
      · refine .inr ⟨?_, hsame⟩
        rw [map_cons, mem_cons, not_or]
        exact ⟨Ne.symm hrow, hnone⟩

theorem Settles.books (hmem : ∀ c ∈ l, ∃ t k, T.Aims flags c t k)
    (h : Settles w flags false (l.map fun c => (c.1, c.2.change false c.1.pk)) y rb y') :
    ∀ e ∈ rb, ∃ t k, T.Books e t k := by
  induction l generalizing y rb with
  | nil =>
    cases h
    exact nofun
  | cons c l ih =>
    obtain ⟨t, k, haims⟩ := hmem c mem_cons_self
    obtain ⟨z, o, rb, rfl, -, hl⟩ := h.uncons haims
    intro e he
    rcases mem_append.mp he with he | he
    · exact ⟨t, k, (haims.of_mem_booked he).1⟩
    · exact ih (fun c hc => hmem c (mem_cons_of_mem _ hc)) hl e he

theorem Settles.other (hmem : ∀ c ∈ l, ∃ t k, T.Aims flags c t k)
    (h : Settles w flags false (l.map fun c => (c.1, c.2.change false c.1.pk)) y rb y')
    (hκ : ∀ c ∈ l, ∀ t k, T.Aims flags c t k → n = c.1.tab → κ ≠ t.norm k) : y' n κ = y n κ := by
  induction l generalizing y rb with
  | nil =>
    cases h
    rfl
  | cons c l ih =>
    obtain ⟨t, k, haims⟩ := hmem c mem_cons_self
    obtain ⟨z, o, rb, rfl, -, hl⟩ := h.uncons haims
    rw [ih (fun c hc => hmem c (mem_cons_of_mem _ hc)) hl fun c hc =>
      hκ c (mem_cons_of_mem _ hc)]
    by_cases hn : n = c.1.tab
    · rw [hn, update_self, update_of_ne (hκ c mem_cons_self t k haims hn)]
    · rw [update_of_ne hn]

/-- A call, seen from one row. -/
theorem Settles.meeting (hR : T.Recorded l x x') (hx : T.Sound x) (hy : T.Sound y)
    (h : Settles w flags false (l.map fun c => (c.1, c.2.change false c.1.pk)) y rb y')
    (ht : T.table n = some t) (hk : ∀ v ∈ k, T.values n v) :
    (∃ c ∈ l, rowOf c = (n, k.map some) ∧ T.Aims flags c t k ∧ ∃ o,
      Meeting t.pk (x n (t.norm k)) (x' n (t.norm k)) (y n (t.norm k)) (y' n (t.norm k))
        (c.2.conflict t.pk).1 (c.2.conflict t.pk).2 o ∧
      rb.filter (fun e => e.row = (n, k.map some)) =
        (t.env w flags c.1).booked (c.2.change false c.1.pk) o) ∨
    (x' n (t.norm k) = x n (t.norm k) ∧ y' n (t.norm k) = y n (t.norm k) ∧
      rb.filter (fun e => e.row = (n, k.map some)) = []) := by
  rcases h.row hR.nodup (fun c hc => hR.aims hx flags hc) ht hk with
    ⟨c, hc, hrow, o, hland, hrb⟩ | ⟨hnot, hsame, hrb⟩
  · rcases hR.row ht hk with ⟨c', hc', hrow', hpk, hexplains⟩ | ⟨hnot, -⟩
    · obtain rfl : c = c' := inj_on_of_nodup_map hR.nodup hc hc' (hrow.trans hrow'.symm)
      obtain ⟨t', k', haims⟩ := hR.aims hx flags hc
      obtain ⟨rfl, rfl, rfl⟩ := T.row_inj haims.table haims.row ht hrow
      refine .inl ⟨c, hc, hrow, haims, o, ?_, hrb⟩
      obtain ⟨-, -, hbefore, hafter, -, hdescribes⟩ := hpk.symm ▸ hexplains
      have hlocal := (hy _ t' ht).onKey (T.exact _ t' ht) hk
      rw [← hpk] at hlocal ⊢
      exact hdescribes.meeting (e := t'.env w flags c.1) (T.exact _ t' ht) hpk rfl hbefore hafter
        hlocal (hx.within ht) (hy.within ht) hland
    · exact absurd (mem_map.mpr ⟨c, hc, hrow⟩) hnot
  · rcases hR.row ht hk with ⟨c, hc, hrow, -⟩ | ⟨-, hsame'⟩
    · exact absurd (mem_map.mpr ⟨c, hc, hrow⟩) hnot
    · exact .inr ⟨hsame', hsame, hrb⟩

theorem Settles.sound (hR : T.Recorded l x x') (hx : T.Sound x) (hy : T.Sound y)
    (h : Settles w flags false (l.map fun c => (c.1, c.2.change false c.1.pk)) y rb y') :
    T.Sound y' := by
  intro n t ht κ r hr
  by_cases hκ : ∃ k, (∀ v ∈ k, T.values n v) ∧ t.norm k = κ
  · obtain ⟨k, hk, rfl⟩ := hκ
    have hx' := hR.steps.sound hx
    rcases h.meeting hR hx hy ht hk with ⟨c, hc, -, -, o, hmeeting, -⟩ | ⟨-, hsame, -⟩
    · have honKey := fun {z : N → Content V} (hz : T.Sound z) =>
        (hz n t ht).onKey (T.exact n t ht) hk
      obtain ⟨hlen, hkey⟩ := hmeeting.onKey (honKey hx) (honKey hx') (honKey hy) r hr
      exact ⟨hlen, by rw [hkey], hmeeting.within (hx'.within ht) (hy.within ht) r hr⟩
    · exact hy n t ht _ r (hsame ▸ hr)
  · refine hy n t ht κ r (h.other (fun c hc => hR.aims hx flags hc) ?_ ▸ hr)
    rintro c hc t' k haims rfl rfl
    obtain rfl := Option.mem_unique ht haims.table
    exact hκ ⟨k, haims.within, rfl⟩

end Rows

/-! ## The calls -/

def records (l : List (Blob N V × List (RebaseEntry N V))) : List (RebaseEntry N V) :=
  l.flatMap (·.2)

/-- A column of a row that was overridden by an answer REPLACE. -/
def Overridden (l : List (Blob N V × List (RebaseEntry N V))) (row : N × List (Option V))
    (i : Nat) : Prop :=
  ∃ e ∈ records l, e.row = row ∧ e.replace = true ∧
    (e.isDelete = true ∨ ∃ v, e.record[i]? = some (some v))

/-- What rebasing can deal with. A row has no conflicts after one answered REPLACE. After one
answered OMIT, all later changes to the row conflict and are answered OMIT, unless the local
changeset deleted it. And a row that is not taken over has a column outside its key. -/
structure Tidy (L : List (Header N × Entry V)) (l : List (Blob N V × List (RebaseEntry N V))) :
    Prop where
  columns : ∀ e ∈ records l, e.isDelete = false → e.replace = false → false ∈ e.header.pk
  replaced : l.Pairwise fun p q => ∀ e ∈ p.2, e.replace = true → ∀ e' ∈ q.2, e'.row ≠ e.row
  omitted : l.Pairwise fun p q => ∀ e ∈ p.2, e.replace = false → ∀ c ∈ q.1.changes,
    rowOf c = e.row → (∃ d ∈ L, rowOf d = e.row ∧ d.2.op = .delete) ∨
      ∃ e' ∈ q.2, e'.row = e.row ∧ e'.replace = false

section Calls

variable {w : World N V} (T : ExactTables w false) (flags : Flags)

/-- Remote changesets recorded one after the other are applied to a local database, each with its
rebase buffer. -/
inductive Pulled (x₀ : N → Content V) (s₀ : State N V) :
    List (Blob N V × List (RebaseEntry N V)) → (N → Content V) → State N V → Prop
  | nil : Pulled x₀ s₀ [] x₀ s₀
  | snoc {l : List (Blob N V × List (RebaseEntry N V))} {x x' : N → Content V} {s s' : State N V}
      {R : Blob N V} (hl : Pulled x₀ s₀ l x s) (hkind : R.patchset = false)
      (hR : T.Recorded R.changes x x')
      (happly : changesetApply w flags R.decode.1 R.decode.2 s = some (.ok (), s')) :
      Pulled x₀ s₀ (l ++ [(R, s'.rebase)]) x' s'

structure Standing (L : List (Header N × Entry V)) (x₀ y₀ : N → Content V)
    (l : List (Blob N V × List (RebaseEntry N V))) (x y : N → Content V) : Prop where
  sound_remote : T.Sound x
  sound_local : T.Sound y
  books : ∀ e ∈ records l, ∃ t k, T.Books e t k
  stand : ∀ c ∈ L, ∀ t k, T.table c.1.tab = some t → rowOf c = (c.1.tab, k.map some) →
    Explains t.pk false (T.values c.1.tab) k (x₀ c.1.tab (t.norm k)) (y₀ c.1.tab (t.norm k)) c.2 →
    Stand t.pk (Overridden l (rowOf c)) c.2 (x₀ c.1.tab (t.norm k)) (y₀ c.1.tab (t.norm k))
      (x c.1.tab (t.norm k)) (y c.1.tab (t.norm k))
      (mergeRecords t.pk ((records l).filter fun e => e.row = rowOf c))

variable {T flags} {L : List (Header N × Entry V)} {x₀ y₀ x x' y y' : N → Content V}
  {l : List (Blob N V × List (RebaseEntry N V))} {R : Blob N V} {rb : List (RebaseEntry N V)}
  {c : Header N × Entry V} {t : Table V} {k : Key V} {o : Option Bool}

omit [DecidableEq N] [DecidableEq V] in
theorem records_concat : records (l ++ [(R, rb)]) = records l ++ rb := by
  simp [records]

omit [DecidableEq N] [DecidableEq V] in
theorem ExactTables.Aims.mergeRecords_booked (h : T.Aims flags c t k)
    (es : List (RebaseEntry N V)) :
    mergeRecords t.pk (es ++ (t.env w flags c.1).booked (c.2.change false c.1.pk) o) =
      book t.pk (mergeRecords t.pk es) (c.2.conflict t.pk).1 (c.2.conflict t.pk).2 o := by
  cases o with
  | none => simp [Env.booked, book]
  | some b =>
    have hmem : RebaseEntry.of (t.env w flags c.1).toHeader b (c.2.change false c.1.pk) ∈
        (t.env w flags c.1).booked (c.2.change false c.1.pk) (some b) := mem_singleton_self _
    obtain ⟨-, -, -, hdelete, hrecord⟩ := h.of_mem_booked hmem
    exact (mergeRecords_concat es).trans (rebaseMerge_congr hdelete rfl hrecord)

omit [DecidableEq N] [DecidableEq V] in
theorem Tidy.of_concat (h : Tidy L (l ++ [(R, rb)])) : Tidy L l where
  columns e he := h.columns e (by simp [records_concat, he])
  replaced := (pairwise_append.mp h.replaced).1
  omitted := (pairwise_append.mp h.omitted).1

/-- The conflicts of a row that the local changeset did not delete come in order. -/
theorem Tidy.orderly (htidy : Tidy L (l ++ [(R, rb)])) (hL : T.Recorded L x₀ y₀)
    (hd : d ∈ L) (hop : d.2.op ≠ .delete) (hc : c ∈ R.changes)
    (hrow : rowOf c = rowOf d) (haims : T.Aims flags c t k)
    (hrb : rb.filter (fun e => e.row = rowOf d) =
      (t.env w flags c.1).booked (c.2.change false c.1.pk) o) :
    Orderly (mergeRecords t.pk ((records l).filter fun e => e.row = rowOf d)) o := by
  intro ρ hρ
  have hmem : ∀ e ∈ (records l).filter (fun e => e.row = rowOf d),
      e.row = rowOf d ∧ ∃ p ∈ l, e ∈ p.2 := by
    intro e he
    obtain ⟨he, her⟩ := mem_filter.mp he
    exact ⟨by simpa using her, mem_flatMap.mp he⟩
  cases hind : ρ.indirect with
  | true =>
    obtain ⟨e, he, hrep⟩ := exists_replaced hρ hind
    obtain ⟨her, p, hp, hep⟩ := hmem e he
    have hother := (pairwise_append.mp htidy.replaced).2.2 p hp (R, rb) (by simp) e hep hrep
    have hnone : rb.filter (fun e => e.row = rowOf d) = [] := by
      rw [filter_eq_nil_iff]
      intro e' he'
      rw [← her]
      simpa using hother e' he'
    rw [hnone] at hrb
    cases o with
    | none => rfl
    | some b => cases hrb
  | false =>
    obtain ⟨e, he, -, hrep⟩ := exists_last_record hρ
    obtain ⟨her, p, hp, hep⟩ := hmem e he
    rcases (pairwise_append.mp htidy.omitted).2.2 p hp (R, rb) (by simp) e hep (hrep hind) c hc
      (hrow.trans her.symm) with ⟨d', hd', hrow', hop'⟩ | ⟨e', he', hrow', hrep'⟩
    · obtain rfl : d' = d := inj_on_of_nodup_map hL.nodup hd' hd (hrow'.trans her)
      exact absurd hop' hop
    · have hbooked : e' ∈ (t.env w flags c.1).booked (c.2.change false c.1.pk) o := by
        rw [← hrb, mem_filter]
        exact ⟨he', by simpa using hrow'.trans her⟩
      obtain ⟨-, -, ho, -, -⟩ := haims.of_mem_booked hbooked
      rw [ho, hrep']
      rfl

theorem Standing.step (hL : T.Recorded L x₀ y₀) (h : Standing T L x₀ y₀ l x y)
    (hR : T.Recorded R.changes x x')
    (hS : Settles w flags false (R.changes.map fun c => (c.1, c.2.change false c.1.pk)) y rb y')
    (htidy : Tidy L (l ++ [(R, rb)])) : Standing T L x₀ y₀ (l ++ [(R, rb)]) x' y' := by
  have hx' := hR.steps.sound h.sound_remote
  refine ⟨hx', hS.sound hR h.sound_remote h.sound_local, ?_, fun d hd t k ht hrow hexplains => ?_⟩
  · intro e he
    rw [records_concat, mem_append] at he
    exact he.elim (h.books e) (hS.books (fun c hc => hR.aims h.sound_remote flags hc) e)
  have hstand := h.stand d hd t k ht hrow hexplains
  have hmono : ∀ i, Overridden l (rowOf d) i → Overridden (l ++ [(R, rb)]) (rowOf d) i := by
    rintro i ⟨e, he, hrest⟩
    exact ⟨e, by simp [records_concat, he], hrest⟩
  rw [records_concat, filter_append]
  rcases hS.meeting hR h.sound_remote h.sound_local ht hexplains.within with
    ⟨c, hc, hrow', haims, o, hmeeting, hrb⟩ | ⟨hsame, hsame', hrb⟩
  · rw [← hrow] at hrow' hrb
    have honKey := fun {z : N → Content V} (hz : T.Sound z) =>
      (hz _ t ht).onKey (T.exact _ t ht) hexplains.within
    rw [hrb, haims.mergeRecords_booked]
    refine hstand.step hexplains.describes hexplains.before hexplains.after
      (honKey h.sound_remote) (honKey hx') (honKey h.sound_local) hmeeting (fun hy₀ => ?_) hmono ?_
    · have hop : d.2.op ≠ .delete := fun hop => hy₀ (hexplains.describes.eq_none hop)
      exact htidy.orderly hL hd hop hc hrow' haims hrb
    · rintro rfl i hi
      obtain ⟨e, he⟩ : ∃ e, e ∈ (t.env w flags c.1).booked (c.2.change false c.1.pk) (some true) :=
        ⟨_, mem_singleton_self _⟩
      obtain ⟨-, -, hreplace, hdelete, hrecord⟩ := haims.of_mem_booked he
      rw [← hdelete, ← hrecord] at hi
      obtain ⟨hmem, hrow⟩ := mem_filter.mp (hrb ▸ he)
      exact ⟨e, by simp [records_concat, hmem], by simpa using hrow, (some.inj hreplace).symm, hi⟩
  · rw [hrow, hrb, ← hrow, append_nil, hsame, hsame']
    exact hstand.mono hmono

theorem Standing.rebase (h : Standing T L x₀ y₀ l x y) (htidy : Tidy L l) (hc : c ∈ L)
    (ht : T.table c.1.tab = some t) (hpk : c.1.pk = t.pk) (hrow : rowOf c = (c.1.tab, k.map some))
    (hexplains : Explains t.pk false (T.values c.1.tab) k (x₀ c.1.tab (t.norm k))
      (y₀ c.1.tab (t.norm k)) c.2) (flags : Flags) :
    ∃ z, (t.env w flags c.1).Rebased k (x c.1.tab (t.norm k)) z (rebaseEntry c.1.pk c.2
        (mergeRecords t.pk ((records l).filter fun e => e.row = rowOf c))) ∧
      ∀ i, cell (x₀ c.1.tab (t.norm k)) i ≠ cell (y₀ c.1.tab (t.norm k)) i →
        ¬Overridden l (rowOf c) i → cell z i = cell (y c.1.tab (t.norm k)) i := by
  have hstand := h.stand c hc t k ht hrow hexplains
  have hremote := (h.sound_remote _ t ht).onKey (T.exact _ t ht) hexplains.within
  have hcol : ∀ ρ, mergeRecords t.pk ((records l).filter fun e => e.row = rowOf c) = some ρ →
      ρ.isDelete = false → ρ.indirect = false → false ∈ t.pk := by
    intro ρ hρ hdelete hind
    obtain ⟨e, he, hdelete', hreplace⟩ := exists_last_record hρ
    obtain ⟨hmem, her⟩ := mem_filter.mp he
    obtain ⟨t', k', hbooks⟩ := h.books e hmem
    have her : e.row = rowOf c := by simpa using her
    have htab : e.header.tab = c.1.tab := congrArg Prod.fst her
    obtain rfl : t' = t := some.inj ((htab ▸ hbooks.table).symm.trans ht)
    exact hbooks.pk ▸ htidy.columns e hmem (hdelete'.trans hdelete) (hreplace hind)
  obtain ⟨-, -, hbefore, hafter, -, hdescribes⟩ := hpk.symm ▸ hexplains
  generalize mergeRecords t.pk _ = ρ at hstand hcol ⊢
  rw [← hpk] at hstand hremote hcol
  exact hstand.rebase (e := t.env w flags c.1) (T.exact _ t ht) hpk rfl hdescribes hbefore hafter
    hremote (h.sound_remote.within ht) hcol

/-- The invariant of the calls. -/
theorem Pulled.standing (hw : w.Plain) (hflag : flags.rebase = true)
    (hx₀ : T.Sound x₀) (hL : T.Recorded L x₀ s₀.db) (h : Pulled T flags x₀ s₀ l x s)
    (htidy : Tidy L l) : Standing T L x₀ s₀.db l x s.db := by
  induction h with
  | nil =>
    exact ⟨hx₀, hL.steps.sound hx₀, nofun, fun c _ t k _ _ hexplains => hexplains.describes.stand⟩
  | @snoc l x x' s s' R _ hkind hR happly ih =>
    have hstanding := ih htidy.of_concat
    have hread : ∀ c ∈ R.changes, c.2.Readable R.patchset c.1.pk := by
      rw [hkind]
      exact (hR.runEntries hstanding.sound_remote flags).1
    have hsettles := of_wp_ok (changesetApply_settles hw hflag R.decode.1 R.decode.2 s) happly
    rw [Blob.pairs_decode hread, Blob.decode_of_readable hread, hkind] at hsettles
    exact hstanding.step hL hR hsettles htidy

end Calls

end SqlCipher.Changeset
