import SqlCipher.Changeset.RebaseSpec

/-!
# Changesets as differences

A changeset with one change for each row says how two contents differ. The contents determine it up
to the order of its changes, and `sqlite3changeset_invert()` makes of it the changeset of the way
back.
-/

namespace SqlCipher.Changeset

open List

variable {N V : Type}

def Entry.invert (pk : List Bool) (e : Entry V) : Entry V :=
  match e.op with
  | .insert => { e with op := .delete }
  | .delete => { e with op := .insert }
  | .update =>
    let columns := pk.zip ((e.record.take pk.length).zip (e.record.drop pk.length))
    -- the key stays with the old values
    { e with
      record := columns.map (fun c => if c.1 then c.2.1 else c.2.2) ++
        columns.map (fun c => if c.1 then none else c.2.1) }

def Blob.inverse (b : Blob N V) : Blob N V :=
  { b with blocks := b.blocks.map fun k => { k with entries := k.entries.map (·.invert k.pk) } }

/-- `sessionChangesetInvert`, to which the table headers of a patchset are unknown. -/
def changesetInvert (b : Blob N V) : Except ErrorCode (Blob N V) :=
  if b.patchset && !b.blocks.isEmpty then .error .corrupt else .ok b.inverse

section Differences

variable [DecidableEq V] {pk : List Bool} {r r' : Row V} {A : V → Prop} {E : Entry V}

theorem invert_update (h : Kin pk r r') (i : Bool) :
    Entry.invert pk ⟨.update, i, diffOld pk r r' ++ diffNew pk r r'⟩ =
      ⟨.update, i, diffOld pk r' r ++ diffNew pk r' r⟩ := by
  simp only [Entry.invert, take_left' h.length_diffOld, drop_left' h.length_diffOld]
  congr 2 <;> induction h with
  | nil => rfl
  | key x _ ih => simpa using ih
  | other x y _ ih => by_cases hxy : x = y <;> simpa [hxy, Ne.symm] using ih

theorem Explains.invert (h : Explains pk false A k x y E) (hx : Within A x) :
    Explains pk false A k y x (E.invert pk) := by
  obtain ⟨-, hk, hbefore, hafter, -, hE⟩ := h
  have hinv : Describes pk false y x (E.invert pk) := by
    cases hE with
    | insert r i => exact .delete r i
    | delete r i => exact .insert r i
    | update r r' i _ hne =>
      rw [invert_update (hbefore.kin hafter)]
      exact .update r' r i rfl hne.symm
    | patch => contradiction
  exact ⟨hinv.entryKey_eq hafter hbefore, hk, hafter, hbefore, hx, hinv⟩

variable {w : World N V} {patchset : Bool} {b b' : Blob N V} {db db' : N → Content V}

theorem ExactTables.Recorded.inverse {T : ExactTables w false} (h : T.Recorded b.changes db db')
    (hdb : T.Sound db) : T.Recorded b.inverse.changes db' db := by
  have hinv : ∀ c ∈ b.changes, ∃ t k, T.table c.1.tab = some t ∧ c.1.pk = t.pk ∧
      entryKey false t.pk c.2 = k.map some ∧ Explains t.pk false (T.values c.1.tab) k
        (db' c.1.tab (t.norm k)) (db c.1.tab (t.norm k)) (c.2.invert c.1.pk) := by
    intro c hc
    obtain ⟨t, k, ht, hpk, hE⟩ := h.explains c hc
    exact ⟨t, k, ht, hpk, hE.key, hpk ▸ hE.invert fun r hr => (hdb _ t ht _ r hr).2.2⟩
  have hchanges : b.inverse.changes = b.changes.map fun c => (c.1, c.2.invert c.1.pk) := by
    simp [Blob.inverse, Blob.changes, map_flatMap, flatMap_map, Function.comp_def]
  rw [hchanges]
  refine ⟨?_, forall_mem_map.mpr fun c hc => ?_, fun n κ hrest => ?_⟩
  · rw [map_map, map_congr_left fun c hc => ?_]
    · exact h.nodup
    · obtain ⟨t, k, -, hpk, hkey, hE⟩ := hinv c hc
      simp [hpk, hkey, ← hE.key]
  · obtain ⟨t, k, ht, hpk, -, hE⟩ := hinv c hc
    exact ⟨t, k, ht, hpk, hE⟩
  · refine (h.rest n κ fun c hc t k ht hkey => ?_).symm
    obtain ⟨t', k', ht', -, hkey', hE⟩ := hinv c hc
    obtain rfl := Option.mem_unique ht ht'
    exact hrest _ (mem_map_of_mem hc) t k ht (hE.key.trans (hkey'.symm.trans hkey))

theorem ExactTables.Recorded.subset {T : ExactTables w false} (h : T.Recorded l db db')
    (h' : T.Recorded l' db db') (hi : ∀ c ∈ l ++ l', c.2.indirect = i) : l ⊆ l' := by
  intro c hc
  obtain ⟨t, k, ht, hpk, hE⟩ := h.explains c hc
  -- without a change in `l'` the row would be as it was
  by_contra hnot
  refine hE.describes.ne (h'.rest _ _ fun c' hc' t' k' ht' hkey htab hk => hnot ?_).symm
  obtain ⟨t'', k'', ht'', hpk', hE'⟩ := h'.explains c' hc'
  obtain ⟨⟨n, pk⟩, E⟩ := c
  obtain ⟨⟨n', pk'⟩, E'⟩ := c'
  obtain rfl : n = n' := htab
  obtain rfl := Option.mem_unique ht ht'
  obtain rfl := Option.mem_unique ht ht''
  obtain rfl : k'' = k' := eq_of_map_some (hE'.key.symm.trans hkey)
  obtain rfl := (T.exact _ t ht).norm _ _ hE.within hE'.within hk
  have hflag {E : Entry V} (h : E.indirect = i) : Flagged i (some E) := by rintro _ ⟨⟩; exact h
  have heq : some E = some E' := Rel.unique hE.describes hE'.describes
    (hflag (hi _ (mem_append_left _ hc))) (hflag (hi _ (mem_append_right _ hc')))
  obtain rfl := Option.some.inj heq
  obtain rfl : pk = pk' := hpk.trans hpk'.symm
  exact hc'

theorem ExactTables.Recorded.perm {T : ExactTables w false} (h : T.Recorded l db db')
    (h' : T.Recorded l' db db') (hi : ∀ c ∈ l ++ l', c.2.indirect = i) : l.Perm l' :=
  (perm_ext_iff_of_nodup h.nodup.of_map h'.nodup.of_map).mpr fun _ =>
    ⟨fun hc => h.subset h' hi hc,
      fun hc => h'.subset h (fun c hc => hi c (by simpa [or_comm] using hc)) hc⟩

variable [DecidableEq N]

/-- Changesets that make up the way from one content to another are combined, up to the order, to
the changes of every changeset with one change for each row that leads there. -/
theorem changegroupOutput_perm (T : ExactTables w false) (hash : List (Option V) → Nat)
    (schema : Option (N → Option (SchemaTable V))) (hdb : T.Sound db)
    (hbs : T.Steps db (bs.flatMap Blob.changes) db') (haccepts : ∀ b ∈ bs, T.Accepts schema b)
    (h : T.Recorded b.changes db db') (i : Bool)
    (hi : ∀ c ∈ (b :: bs).flatMap Blob.changes, c.2.indirect = i) :
    ∃ g, changegroupAddAll hash bs (.new schema) = some (.ok (), g) ∧
      (changegroupOutput g).changes.Perm b.changes := by
  rw [flatMap_cons, forall_mem_append] at hi
  obtain ⟨g, hrun, hg⟩ := exists_gathered hash nofun hdb hbs haccepts
  refine ⟨g, hrun, (hg.recorded_output nofun hbs hdb).perm h (i := i) ?_⟩
  refine forall_mem_append.mpr ⟨fun c hc => ?_, hi.1⟩
  obtain ⟨t, ht, -, hfind⟩ := hg.mem_output_iff.mp hc
  rw [hg.find_eq _ t _ ht] at hfind
  refine mergeAll_flagged (by rintro _ ⟨⟩) (fun E hE => ?_) c.2 hfind
  simp only [Table.entriesAt, mem_filter, mem_map] at hE
  obtain ⟨⟨c', ⟨hc', -⟩, rfl⟩, -⟩ := hE
  rw [← hi.2 c' hc', Table.full]
  split <;> rfl

theorem changegroupOutput_perm_set : ∃ g,
    changegroupAddAll (fun _ => 0) [.set 1 10 11, .set 1 11 12] (.new none) = some (.ok (), g) ∧
      (changegroupOutput g).changes.Perm (Blob.set 1 10 12).changes := by
  have h₁ : ExactTables.toy.Recorded (Blob.set 1 10 11).changes State.toy.db _ :=
    ExactTables.toy_recorded (by decide) rfl
  have h₂ : ExactTables.toy.Recorded (Blob.set 1 11 12).changes (withRow State.toy.db 1 11) _ :=
    ExactTables.toy_recorded (by decide) (Function.update_self ..)
  have h : ExactTables.toy.Recorded (Blob.set 1 10 12).changes State.toy.db _ :=
    ExactTables.toy_recorded (by decide) rfl
  have hdb : withRow State.toy.db 1 12 = withRow (withRow State.toy.db 1 11) 1 12 :=
    funext fun _ => (Function.update_idem ..).symm
  refine changegroupOutput_perm ExactTables.toy (fun _ => 0) none ?_
    (by simpa using h₁.steps.append h₂.steps) ?_ (hdb ▸ h) false (by decide)
  · exact fun n t ht => Option.some.inj ht ▸ Table.plain_sound
  · simp only [forall_mem_cons]
    refine ⟨⟨fun _ => rfl, ?_⟩, ⟨fun _ => rfl, ?_⟩, forall_mem_nil _⟩ <;> rintro _ hc _ ⟨⟩ <;>
      cases mem_singleton.mp hc <;> exact ⟨rfl, rfl⟩

variable {s : State N V} (hw : w.Plain)

include hw

theorem ExactTables.Recorded.applies {T : ExactTables w patchset}
    (h : T.Recorded b.changes s.db db) (hkind : b.patchset = patchset) (hs : T.Sound s.db)
    (flags : Flags) : ∃ s', Applies w flags b.decode.1 b.decode.2 s s' ∧ s'.db = db := by
  subst hkind
  obtain ⟨hread, hrun⟩ := h.runEntries hs flags
  exact exists_applies hw ((runTo_decode hread s.db).trans hrun)

/-- The inverse of a changeset leads back to the content before. -/
theorem changesetInvert_undoes (T : ExactTables w false) (flags : Flags)
    (hkind : b.patchset = false) (hdb : T.Sound db) (h : T.Recorded b.changes db s.db) :
    ∃ b' s', changesetInvert b = .ok b' ∧ Applies w flags b'.decode.1 b'.decode.2 s s' ∧
      s'.db = db := by
  obtain ⟨s', hs'⟩ := (h.inverse hdb).applies hw hkind (h.steps.sound hdb) flags
  exact ⟨b.inverse, s', by simp [changesetInvert, hkind], hs'⟩

end Differences

theorem changesetInvert_undoes_set : ∃ b' s', changesetInvert (.set 1 10 12) = .ok b' ∧
    Applies (World.plain .plain) Flags.none b'.decode.1 b'.decode.2
      { State.toy with db := withRow State.toy.db 1 12 } s' ∧ s'.db = State.toy.db :=
  changesetInvert_undoes (World.plain_plain (t := .plain) fun _ _ _ => rfl) ExactTables.toy
    Flags.none rfl (fun n t ht => Option.some.inj ht ▸ Table.plain_sound)
    (ExactTables.toy_recorded (by decide) rfl)

end SqlCipher.Changeset
