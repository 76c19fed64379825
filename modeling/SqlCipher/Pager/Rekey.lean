import SqlCipher.Codec.NewKey
import SqlCipher.Pager.TransactionSpec

/-!
# Rekeying a database

`sqlite3_rekey_v2` sets a new passphrase for the write context, opens a write transaction, fetches
every page and marks it as changed, commits, and copies the write context over the read context.
`sqlite3RekeyV2_wp` describes every run of it, whatever fails on the way.
-/

namespace SqlCipher

open Buffer UndoJournal Proc SealedPage

section

variable (p : Provider) (g : Globals) (w : World)

/-- The body of the loop: fetch a page and mark it as changed. The page of the lock bytes is left
out. -/
def rekeyPage (pgno : Nat) : PagerM Unit := do
  let pg ← get
  if pgno = lckPgno g pg.codec.pageSz then return ()
  else do
    pagerGet p g w pgno
    pagerWrite p g w pgno

/-- The passphrase of the write context is replaced before the transaction begins. -/
def Pager.rekeying (pg : Pager) (zKey : Bytes) : Pager :=
  { pg with codec := pg.codec.setPass zKey .write }

/-- `sqlcipher_codec_key_copy` from the write context. -/
def Pager.keyCopied (pg : Pager) : Pager := { pg with codec := pg.codec.keyCopy }

/-- `sqlite3_rekey_v2` with a codec. A failure to begin the transaction is returned; the results of
commit and rollback are ignored. -/
def sqlite3RekeyV2 (zKey : Bytes) : PagerM Unit := do
  require (zKey != []) .misuse
  modify fun pg => pg.rekeying zKey
  btreeBeginTrans p g w
  let pg ← get
  match ← attempt (forEach (rekeyPage p g w) (List.range' 1 pg.dbSize)) with
  | .ok () => do
    let _ ← attempt (btreeCommit p g w)
    modify Pager.keyCopied
  | .error rc => do
    let _ ← attempt (btreeRollback p g w)
    fail rc

end

variable {p : Provider} {g : Globals} {w : World} {start pg : Pager} {D : Nat → Bytes} {F : Prop}
  {n : Nat}

theorem Pager.Prepared.working (hp : start.Prepared p g w D F) : start.Working p g D F start := by
  have hfalse (m : Nat) : start.inJournal m = false := by
    rw [Pager.inJournal, hp.journal]
    rfl
  have hfollows : start.codec.Follows p g (start.disk.file 1) F start.codec := hp.codec.follows
  refine ⟨⟨hfollows.toFramed, ?_, ?_⟩, hfollows, ?_, hp.errCode, rfl, ?_,
    fun hsome => absurd hp.journal hsome, ?_, ?_, fun _ _ => rfl, ?_, ?_⟩
  · rw [hp.log]
    rfl
  · rw [hp.log]
    trivial
  · intro m hm
    exact absurd ((hfalse m).symm.trans hm) (by decide)
  · exact fun hs => absurd hp.state hs
  · exact fun hs => absurd hp.state hs
  · exact .inl ⟨.inl hp.state, hp.journal⟩
  · intro m q hq
    obtain ⟨hm, hlen, huse, hd, hw⟩ := hp.cached m q hq
    exact ⟨hm, hlen, fun _ => .inl huse, fun _ _ => huse,
      fun h => absurd (hd.symm.trans h) (by decide),
      fun h => absurd (hw.symm.trans h) (by decide), fun h => absurd (hd.symm.trans h) (by decide)⟩
  · intro m _ hm
    exact absurd ((hfalse m).symm.trans hm) (by decide)

section

variable (hp : start.Prepared p g w D F)
include hp

theorem btreeBeginTrans_wp : wp (btreeBeginTrans p g w)
    (fun _ pg' => start.Working p g D F pg' ∧ pg'.state ≠ .reader ∧ ∀ m, pg'.inJournal m = false)
    (fun _ pg' => start.Halted p g D pg' ∧ F) start := by
  have h := hp.working
  have hfalse (m : Nat) : start.inJournal m = false := by
    rw [Pager.inJournal, hp.journal]
    rfl
  simp only [btreeBeginTrans, wp_bind, wp_request, wp_modify]
  refine ⟨fun _ => ?_, fun hbad => ⟨h.tick.halted, hp.rc_fault hbad⟩⟩
  refine .post (pagerGet_wp hp h.tick hp.pageOne (.inr (hfalse 1))) ?_
  rintro - pg₁ ⟨h₁, hst, hone⟩
  have hnone : pg₁.disk.journal = none := hst.journal.trans hp.journal
  refine ⟨fun _ => ⟨?_, (by simp), fun m => ?_⟩, fun hbad => ⟨h₁.tick.halted, hp.rc_fault hbad⟩⟩
  · exact { h₁ with
      codec := h₁.toTraced.codec, run := h₁.run, guarded := h₁.guarded
      dbOrigSize := fun _ => h₁.dbSize
      synced := fun hsome => absurd hnone hsome
      pageOne := fun _ => hone
      journal := .inl ⟨.inr rfl, hnone⟩
      page := fun m q hq => { h₁.page m q hq with synced := fun _ _ hdb => by cases hdb } }
  · exact (hst.inJournal m).trans (hfalse m)

theorem rekeyPage_wp (h : start.Working p g D F pg) (hs : pg.state ≠ .reader) (h1 : 1 ≤ n)
    (hn : n ≤ start.dbSize) (hj : pg.inJournal n = false) :
    wp (rekeyPage p g w n)
      (fun _ pg' => start.Working p g D F pg' ∧ pg'.state ≠ .reader ∧
        (start.HasPage g n → pg'.inJournal n = true) ∧
        ∀ m, m ≠ n → pg'.inJournal m = pg.inJournal m)
      (fun _ pg' => start.Halted p g D pg' ∧ F) pg := by
  simp only [rekeyPage, wp_bind, wp_get, wp_ite, wp_pure]
  rw [h.follows.format.pageSz]
  refine ⟨fun hlock => ⟨h, hs, fun hn => absurd hlock hn.2.2, fun _ _ => trivial⟩, fun hlock => ?_⟩
  refine .post (pagerGet_wp hp h ⟨h1, hn, hlock⟩ (.inr hj)) ?_
  rintro - pg₁ ⟨h₁, hst, hcached⟩
  have hs₁ : pg₁.state ≠ .reader := fun hr => hs (hst.reader.mp hr)
  refine .post (pagerWrite_wp hp h₁ hcached hs₁) ?_
  rintro - pg₂ ⟨h₂, hs₂, hj₂⟩
  refine ⟨h₂, hs₂, fun _ => ?_, fun m hm => ?_⟩
  · rw [hj₂, beq_self_eq_true, Bool.or_true]
  · rw [hj₂, hst.inJournal, beq_eq_false_iff_ne.mpr (Ne.symm hm), Bool.or_false]

theorem rekeyPages_wp (h : start.Working p g D F pg) (hs : pg.state ≠ .reader)
    (hj : ∀ m, pg.inJournal m = false) :
    wp (forEach (rekeyPage p g w) (List.range' 1 pg.dbSize))
      (fun _ pg' => start.Working p g D F pg' ∧ pg'.state ≠ .reader ∧
        ∀ m, start.HasPage g m → pg'.inJournal m = true)
      (fun _ pg' => start.Halted p g D pg' ∧ F) pg := by
  -- pages that remain have not been journalled, all others have
  let I (rest : List Nat) (s : Pager) : Prop := start.Working p g D F s ∧ s.state ≠ .reader ∧
    (∀ m ∈ rest, s.inJournal m = false) ∧
    ∀ m, start.HasPage g m → m ∉ rest → s.inJournal m = true
  have hmem (m : Nat) : m ∈ List.range' 1 pg.dbSize ↔ 1 ≤ m ∧ m ≤ start.dbSize := by
    have := h.dbSize
    rw [List.mem_range'_1]
    omega
  have hstart : I (List.range' 1 pg.dbSize) pg :=
    ⟨h, hs, fun m _ => hj m, fun m hm hnot => absurd ((hmem m).mpr ⟨hm.1, hm.2.1⟩) hnot⟩
  refine .post (.forEach (I := I) (fun b rest s hsuf hI => ?_) hstart)
    fun _ s hI => ⟨hI.1, hI.2.1, fun m hm => hI.2.2.2 m hm List.not_mem_nil⟩
  obtain ⟨hw, hsw, hrest, hdone⟩ := hI
  obtain ⟨h1, hb⟩ := (hmem b).mp (hsuf.subset List.mem_cons_self)
  have hnodup : b ∉ rest := (List.nodup_cons.mp (hsuf.sublist.nodup List.nodup_range')).1
  refine .post (rekeyPage_wp hp hw hsw h1 hb (hrest b List.mem_cons_self)) ?_
  rintro - s' ⟨hw', hsw', hb', hother⟩
  refine ⟨hw', hsw', fun m hm => ?_, fun m hm hnot => ?_⟩
  · have hmb : m ≠ b := fun heq => hnodup (heq ▸ hm)
    rw [hother m hmb]
    exact hrest m (List.mem_cons_of_mem b hm)
  · by_cases hmb : m = b
    · subst hmb
      exact hb' hm
    · rw [hother m hmb]
      exact hdone m hm (by simp [hmb, hnot])

end

/-- A rekey rewrites every page and succeeds, or there is a reason why not and the file is as it
was, or can be restored. -/
theorem sqlite3RekeyV2_wp (hz : zKey ≠ []) (hp : (pg.rekeying zKey).Prepared p g w D F) :
    wp (sqlite3RekeyV2 p g w zKey)
      (fun _ pg' => ∃ pg₁, pg' = pg₁.keyCopied ∧
        ((pg.rekeying zKey).Undone p g D pg₁ ∧ F ∨ (pg.rekeying zKey).Rewrote p g D F pg₁))
      (fun _ pg' => (pg.rekeying zKey).Undone p g D pg' ∧ F) pg := by
  have hz' : (zKey != []) = true := bne_iff_ne.mpr hz
  simp only [sqlite3RekeyV2, wp_bind, wp_require, hz', true_imp_iff, Bool.true_eq_false,
    false_imp_iff, and_true, wp_modify, wp_get, wp_attempt]
  refine .mono (btreeBeginTrans_wp hp) ?_ fun _ _ h => ⟨h.1.toUndone, h.2⟩
  rintro - pg₁ ⟨h₁, hs₁, hj₁⟩
  refine .mono (rekeyPages_wp hp h₁ hs₁ hj₁) ?_ ?_
  · rintro - pg₂ ⟨h₂, hs₂, hall⟩
    refine .mono (btreeCommit_wp hp h₂ hs₂ hall) ?_ ?_
    · exact fun _ pg₃ h₃ => ⟨pg₃, rfl, .inr h₃⟩
    · exact fun _ pg₃ h => ⟨pg₃, rfl, .inl h⟩
  · rintro rc pg₂ ⟨h₂, hF⟩
    simp only [wp_fail]
    exact .mono (btreeRollback_wp hp h₂) (fun _ _ h₃ => ⟨h₃, hF⟩) fun _ _ h₃ => ⟨h₃, hF⟩

end SqlCipher
