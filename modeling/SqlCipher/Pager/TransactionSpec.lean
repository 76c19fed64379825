import SqlCipher.Pager.Transaction

/-!
# The procedures of the pager keep the invariant

One theorem for each procedure of `Pager.lean` that a rewriting transaction goes through, from the
ones that write pages out to commit and rollback.
-/

namespace SqlCipher

open Buffer UndoJournal Proc SealedPage Function

variable {p : Provider} {g : Globals} {w : World} {start pg pg' : Pager}
  {D : Nat → Bytes} {F : Prop}
  {n : Nat}

structure Pager.Steady (pg pg' : Pager) : Prop where
  journal : pg'.disk.journal = pg.disk.journal
  reader : pg'.state = .reader ↔ pg.state = .reader

structure Pager.Rewrote (p : Provider) (g : Globals) (start : Pager) (D : Nat → Bytes) (F : Prop)
    (pg : Pager) : Prop extends start.Traced p g D pg where
  follows : start.codec.Follows p g (start.disk.file 1) F pg.codec
  keyed : (start.unlocked p g).Keyed 1 pg.codec
  dbSize : pg.dbSize = start.dbSize
  all : ∀ n, start.HasPage g n → start.Rewritten p g D n (pg.disk.file n)

theorem Pager.exists_journal (h : pg.inJournal n = true) : ∃ js, pg.disk.journal = some js := by
  cases hjs : pg.disk.journal with
  | none => simp [Pager.inJournal, hjs] at h
  | some js => exact ⟨js, rfl⟩

theorem Pager.Steady.trans (h : pg.Steady pg') (h' : pg'.Steady pg'') : pg.Steady pg'' :=
  ⟨h'.journal.trans h.journal, h'.reader.trans h.reader⟩

theorem Pager.Steady.inJournal (h : pg.Steady pg') (n : Nat) :
    pg'.inJournal n = pg.inJournal n := by
  rw [Pager.inJournal, h.journal, Pager.inJournal]

section

variable (hp : start.Prepared p g w D F) (h : start.Working p g D F pg)
include hp h

/-! ## Writing pages out -/

omit h in
theorem Pager.Prepared.rc_fault (hbad : (w t).rc ≠ .ok) : F :=
  hp.fault t fun hfine => hbad hfine.rc

theorem syncJournal_wp (hjs : pg.disk.journal = some js) :
    wp (syncJournal w)
      (fun _ pg' => start.Working p g D F pg' ∧ pg.Steady pg' ∧ pg'.state = .writerDbmod ∧
        pg'.cache = fun n => (pg.cache n).map fun page => { page with needSync := false })
      (fun _ pg' => start.Working p g D F pg' ∧ pg.Steady pg' ∧ F) pg := by
  have hstep : pg.disk.step .sync = some { pg.disk with synced := js.length } := by
    simp [Disk.step, hjs]
  have hreader := h.ne_reader hjs
  simp only [syncJournal, wp_bind, wp_request, wp_emit, wp_mapCache, wp_setState]
  refine ⟨fun _ => ⟨fun _ => ⟨_, hstep, h.tick.tick.emitSync hjs, ⟨rfl, ?_⟩, trivial, rfl⟩, ?_⟩, ?_⟩
  · exact ⟨(by simp), fun hr => absurd hr hreader⟩
  · exact fun hbad => ⟨h.tick.tick, ⟨rfl, Iff.rfl⟩, hp.rc_fault hbad⟩
  · exact fun hbad => ⟨h.tick, ⟨rfl, Iff.rfl⟩, hp.rc_fault hbad⟩

theorem writePage_wp (hpage : pg.cache n = some page) (hs : pg.Synced n) :
    wp (writePage p g w n)
      (fun _ pg' => start.Working p g D F pg' ∧ pg.Steady pg' ∧
        (start.unlocked p g).Keyed 1 pg'.codec ∧
        (∃ data, pg'.cache = update pg.cache n (some { page with data := data })) ∧
        (∃ img, start.Rewritten p g D n img ∧
          pg'.disk = { pg.disk with file := update pg.disk.file n img }))
      (fun _ pg' => start.Working p g D F pg' ∧ pg.Steady pg' ∧ F) pg := by
  have hok := h.page n page hpage
  have hle : ¬ pg.dbSize < n := by
    rw [h.dbSize]
    exact Nat.not_lt.mpr hok.hasPage.2.1
  simp only [writePage, wp_bind, wp_lookup, wp_get, wp_ite, wp_pure, hle, false_imp_iff, true_and,
    not_false_eq_true, true_imp_iff]
  refine ⟨page, hpage, ?_⟩
  -- the counter goes into the cached page, whether or not the page gets written
  generalize hdata : (if n = 1 then writeChangecounter pg.dbFileVers page.data
    else page.data) = data
  have hdlen : data.length = start.codec.pageSz := by
    have := hp.codec.wf.pageSz_ge
    rw [← hdata]
    split
    · rw [length_writeChangecounter (by rw [hok.length]; omega), hok.length]
    · exact hok.length
  have hcontent (herr : pg.codec.error = .ok) : start.Content D n data := by
    rw [← hdata]
    split
    · next h1 =>
      subst h1
      exact hp.content_writeChangecounter hok.length (hok.content herr) _
    · exact hok.content herr
  have h₁ := h.withData hpage hs.inJournal hdlen hcontent
  have hrole : CodecOp.role? .write = some .write := rfl
  refine wp_setPage.mpr ?_
  refine wp_encrypt hp (h₁.codecReady hp) hrole hdlen (fun c hf hbad hF => ?_)
    fun c img L hf herr hk hstores => ?_
  · exact ⟨h₁.withCodec hf fun hok => absurd hok hbad, ⟨rfl, Iff.rfl⟩, hF⟩
  · have h₂ := ((h₁.withCodec hf fun _ => ⟨herr, hk⟩).tick).withFileVers
      (if n = 1 then slice img 24 16 else pg.dbFileVers)
    have hrew : start.Rewritten p g D n img := ⟨data, L, hstores, hdlen, hcontent herr⟩
    simp only [wp_ask, wp_noteFileVers, wp_require, wp_emit]
    refine ⟨fun _ => ⟨_, rfl, h₂.emitWrite hs hrew, ⟨rfl, Iff.rfl⟩, hk, ⟨data, rfl⟩, img, hrew,
      rfl⟩,
      fun hbad => ⟨h₂, ⟨rfl, Iff.rfl⟩, hp.rc_fault (beq_eq_false_iff_ne.mp hbad)⟩⟩

/-- Making room writes one page out, or changes nothing. Only a persistent failure harms the
transaction. -/
theorem pagerStress_wp (m : Nat) : wp (pagerStress p g w m)
    (fun _ pg' => start.Working p g D F pg' ∧ pg.Steady pg')
    (fun rc pg' => start.Halted p g D pg' ∧ F ∧
      (rc = .busy → start.Working p g D F pg' ∧ pg.Steady pg')) pg := by
  simp only [pagerStress, wp_bind, wp_get]
  cases hm : pg.cache m with
  | none => exact ⟨h, rfl, Iff.rfl⟩
  | some page =>
    refine .ite ⟨fun _ => ⟨h, rfl, Iff.rfl⟩, fun hcond => wp_pagerError.mpr ?_⟩
    simp only [not_or, Bool.not_eq_false] at hcond
    obtain ⟨-, hdirty, hm1⟩ := hcond
    have hok := h.page m page hm
    obtain ⟨js, hjs⟩ := Pager.exists_journal (hok.dirty hdirty)
    -- a failure of either part keeps the invariant, until it is recorded
    have hfail (rc : ResultCode) (pg' : Pager)
        (hw : start.Working p g D F pg' ∧ pg.Steady pg' ∧ F) :
        start.Halted p g D (pg'.failed rc) ∧ F ∧
        (rc = .busy → start.Working p g D F (pg'.failed rc) ∧ pg.Steady (pg'.failed rc)) := by
      refine ⟨hw.1.halted.failed rc, hw.2.2, ?_⟩
      rintro rfl
      exact ⟨hw.1, hw.2.1⟩
    refine .bind (.mono (Q := fun _ pg₁ => start.Working p g D F pg₁ ∧ pg.Steady pg₁ ∧
      pg₁.Synced m ∧ ∃ q, pg₁.cache m = some q) (E := fun _ pg' => start.Working p g D F pg' ∧
      pg.Steady pg' ∧ F) ?_ ?_ hfail)
    · refine .when ⟨fun _ => ?_, fun hno => ?_⟩
      · refine .post (syncJournal_wp hp h hjs) fun _ pg₁ hpost => ?_
        obtain ⟨h₁, hst, hdb, hcache⟩ := hpost
        have hq : pg₁.cache m = some { page with needSync := false } := by simp [hcache, hm]
        exact ⟨h₁, hst, (h₁.page m _ hq).synced hdirty rfl hdb, _, hq⟩
      · simp only [not_or, Bool.not_eq_true] at hno
        have hdb := (h.state_of_journal hjs).resolve_left hno.2
        exact ⟨h, ⟨rfl, Iff.rfl⟩, hok.synced hdirty hno.1 hdb, page, hm⟩
    · rintro - pg₁ ⟨h₁, hst, hsync, q, hq⟩
      simp only [pagerWritePagelist, forEach, wp_bind]
      refine .mono (writePage_wp hp h₁ hq hsync) ?_ fun rc pg₂ hpost =>
        hfail rc pg₂ ⟨hpost.1, hst.trans hpost.2.1, hpost.2.2⟩
      rintro - pg₂ ⟨h₂, hst₂, -, -, img, hrew, hdisk⟩
      have hsync₂ : pg₂.Synced m := by
        obtain ⟨js', b, hjs', hmem⟩ := hsync
        exact ⟨js', b, by rw [hdisk]; exact hjs', by rw [hdisk]; exact hmem⟩
      refine ⟨h₂.withPage (by simp) (fun _ h1 => absurd h1 hm1) fun _ _ => .inr ⟨hm1, hsync₂, ?_⟩,
        (hst.trans hst₂).journal, (hst.trans hst₂).reader⟩
      rw [hdisk]
      simpa using hrew

theorem fetchStress_wp : wp (fetchStress p g w)
    (fun _ pg' => start.Working p g D F pg' ∧ pg.Steady pg')
    (fun _ pg' => start.Halted p g D pg' ∧ F) pg := by
  simp only [fetchStress, wp_bind, wp_ask]
  cases (w pg.clock).spill with
  | none => exact ⟨h.tick, rfl, Iff.rfl⟩
  | some m =>
    simp only [wp_bind, wp_attempt]
    refine .mono (pagerStress_wp hp h.tick m) ?_ ?_
    · rintro - pg' ⟨h', hst⟩
      exact ⟨h', hst.journal, hst.reader⟩
    · rintro rc pg' ⟨ht, hF, hbusy⟩
      simp only [wp_require, beq_iff_eq, beq_eq_false_iff_ne, ne_eq]
      refine ⟨fun hrc => ?_, fun _ => ⟨ht, hF⟩⟩
      obtain ⟨h', hst⟩ := hbusy hrc
      exact ⟨h', hst.journal, hst.reader⟩

/-! ## Fetching pages -/

theorem readDbPage_wp (hn : start.HasPage g n) (hj : pg.inJournal n = false) :
    wp (readDbPage p g w n)
      (fun data pg' => start.Working p g D F pg' ∧ pg.Steady pg' ∧ pg'.cache = pg.cache ∧
        data.length = start.codec.pageSz ∧
        (pg'.codec.error = .ok → start.codec.usable data = start.codec.usable (D n)))
      (fun _ pg' => start.Halted p g D pg' ∧ F) pg := by
  simp only [readDbPage, wp_bind, wp_ask, wp_get, wp_noteFileVers, wp_require, wp_pure]
  by_cases hrc : (w pg.clock).rc = .ok
  · obtain ⟨stand, hkeep⟩ := hp.kept n hn
    have h₁ := h.tick.withFileVers (if n = 1 then slice (pg.disk.file n) 24 16 else pg.dbFileVers)
    have hfile : pg.tick.disk.file n = start.disk.file n := h.file n hj
    simp only [hrc, if_true]
    refine wp_decrypt hp (h₁.codecReady hp) (hfile ▸ hkeep) (fun c hf hF => ?_)
      fun c page hf hlen hgood => ⟨fun _ => ⟨?_, ⟨rfl, Iff.rfl⟩, rfl, hlen, ?_⟩,
        (by simp)⟩
    · exact ⟨{ h₁.halted with codec := hf.toFramed }, hF⟩
    · exact h₁.withCodec hf fun herr => ⟨(hgood herr).1, (hgood herr).2.1⟩
    · exact fun herr => (hgood herr).2.2
  · have hF := hp.rc_fault hrc
    simp only [hrc, if_false]
    refine wp_codec_framed hp h.toTraced.codec ?_ (fun c hc => ⟨{ h.halted with codec := hc }, hF⟩)
      fun c out hc => ⟨fun hok => absurd (beq_iff_eq.mp hok) hrc, fun _ => ?_⟩
    · rw [length_stream]
      exact h.follows.format.pageSz
    · exact ⟨{ h.halted with codec := hc }, hF⟩

/-- Fetching a page: one that has been journalled is still in the cache. -/
theorem pagerGet_wp (hn : start.HasPage g n) (hnew : (pg.cache n).isSome ∨ pg.inJournal n = false) :
    wp (pagerGet p g w n)
      (fun _ pg' => start.Working p g D F pg' ∧ pg.Steady pg' ∧ (pg'.cache n).isSome)
      (fun _ pg' => start.Halted p g D pg' ∧ F) pg := by
  have hlock : (n != lckPgno g pg.codec.pageSz) = true := by
    rw [h.follows.format.pageSz]
    exact bne_iff_ne.mpr hn.2.2
  have hzero : (n != 0) = true := bne_iff_ne.mpr (Nat.one_le_iff_ne_zero.mp hn.1)
  simp only [pagerGet, wp_bind, wp_get, wp_require, h.errCode, hzero, hlock, beq_self_eq_true,
    true_imp_iff, Bool.true_eq_false, false_imp_iff, and_true, wp_ite, wp_pure, wp_setPage]
  refine ⟨fun hcached => ⟨h, ⟨rfl, Iff.rfl⟩, hcached⟩, fun hmiss => ?_⟩
  have hj := hnew.resolve_left hmiss
  refine .post (fetchStress_wp hp h) ?_
  rintro - pg₁ ⟨h₁, hst₁⟩
  have hj₁ : pg₁.inJournal n = false := (hst₁.inJournal n).trans hj
  have hsize : ¬ pg₁.dbSize < n := by
    rw [h₁.dbSize]
    exact Nat.not_lt.mpr hn.2.1
  simp only [pageContent, wp_bind, wp_get, wp_ite, hsize, false_imp_iff, true_and,
    not_false_eq_true, true_imp_iff]
  refine .post (readDbPage_wp hp h₁ hn hj₁) ?_
  rintro data pg₂ ⟨h₂, hst₂, -, hlen, hgood⟩
  have hj₂ : pg₂.inJournal n = false := (hst₂.inJournal n).trans hj₁
  refine ⟨h₂.withPage (fun q hq => ?_) (fun _ _ => rfl) (fun _ hj => ?_),
    ⟨(hst₁.trans hst₂).journal, (hst₁.trans hst₂).reader⟩, ?_⟩
  · cases hq
    exact ⟨hn, hlen, fun herr => .inl (hgood herr), fun herr _ => hgood herr, (by simp),
      (by simp), (by simp)⟩
  · exact absurd (hj₂.symm.trans hj) (by decide)
  · rw [Pager.withPage_self]
    rfl

/-! ## Changing pages -/

theorem openJournal_wp (hs : pg.state ≠ .reader) :
    wp (when (pg.state = .writerLocked) (pagerOpenJournal w))
      (fun _ pg' => start.Working p g D F pg' ∧ pg'.cache = pg.cache ∧ pg'.state ≠ .reader ∧
        (∀ m, pg'.inJournal m = pg.inJournal m) ∧ ∃ js, pg'.disk.journal = some js)
      (fun _ pg' => start.Halted p g D pg' ∧ F) pg := by
  simp only [pagerOpenJournal, wp_when, wp_bind, wp_request, wp_emit, wp_setState]
  refine ⟨fun hlocked => ⟨fun _ => ⟨_, rfl, h.tick.emitOpenJournal hlocked, rfl, (by simp),
    fun m => ?_,
    [], rfl⟩, fun hbad => ⟨h.tick.halted, hp.rc_fault hbad⟩⟩, fun hno => ?_⟩
  · rw [Pager.inJournal, Pager.inJournal, h.journal_eq_none hlocked]
    rfl
  · obtain ⟨hs' | hs', -⟩ | ⟨-, hsome⟩ := h.journal
    · exact absurd hs' hs
    · exact absurd hs' hno
    · exact ⟨h, trivial, hs, fun _ => trivial, Option.isSome_iff_exists.mp hsome⟩

theorem pagerWriteNew_wp (hpage : pg.cache n = some page) (hs : pg.state ≠ .reader) :
    wp (pagerWriteNew p g w n page)
      (fun _ pg' => start.Working p g D F pg' ∧ pg'.state ≠ .reader ∧
        ∀ m, pg'.inJournal m = (pg.inJournal m || n == m))
      (fun _ pg' => start.Halted p g D pg' ∧ F) pg := by
  simp only [pagerWriteNew, wp_bind, wp_get]
  refine .post (openJournal_wp hp h hs) ?_
  rintro - pg₁ ⟨h₁, hcache, hs₁, hj, js, hjs⟩
  rw [← hcache] at hpage
  have hok := h₁.page n page hpage
  have hle : n ≤ pg₁.dbSize := h₁.dbSize.symm ▸ hok.hasPage.2.1
  simp only [journalPage, wp_setPage, wp_bind, wp_get, wp_ite, wp_pure, wp_lookup, wp_modify]
  refine ⟨fun hrec => ⟨_, Pager.withPage_self .., ?_⟩, fun hrec => ⟨fun _ => ?_, fun horig => ?_⟩⟩
  · -- the page has a record already
    replace hrec : pg₁.inJournal n = true := hrec
    have hgrown (q : Option CachedPage) : (pg₁.withPage n q).grown n = pg₁.withPage n q :=
      Pager.grown_of_le hle
    rw [Pager.withPage_withPage, hgrown]
    refine ⟨h₁.withPage (fun q hq => ?_) (fun _ _ => rfl) fun _ _ => .inl ⟨_, rfl, rfl⟩, hs₁,
      fun m => ?_⟩
    · cases hq
      refine ⟨hok.hasPage, hok.length, hok.content, hok.original, fun _ => hrec, fun _ => rfl,
        fun _ hn hdb => ?_⟩
      obtain ⟨q, hq, hd⟩ | ⟨-, hsync, -⟩ := h₁.rewritten n hok.hasPage hrec
      · cases hpage.symm.trans hq
        exact hok.synced hd hn hdb
      · exact hsync
    · by_cases hm : n = m
      · subst hm
        rw [beq_self_eq_true, Bool.or_true]
        exact hrec
      · rw [← hj, beq_eq_false_iff_ne.mpr hm, Bool.or_false]
        rfl
  · replace hrec : pg₁.inJournal n = false := Bool.eq_false_iff.mpr hrec
    simp only [pagerAddPageToRollbackJournal, wp_bind, wp_setPage, wp_request, wp_emit]
    have hc := h₁.codecReady hp
    have hrole : CodecOp.role? .journal = some .read := rfl
    refine wp_encrypt hp ⟨hc.follows, hc.early⟩ hrole hok.length
      (fun c hf _ hF => ⟨{ h₁.halted with codec := hf.toFramed }, hF⟩)
      fun c img L hf herr hk hstores => ⟨fun _ => ?_, fun hbad => ?_⟩
    · have hstep : pg₁.disk.step (.record n img) =
          some { pg₁.disk with journal := some (js ++ [(n, img)]) } := by
        simp [Disk.step, hjs]
      have himg := hp.restores hok.hasPage hok.length (hok.original herr hrec) hstores
      refine ⟨_, hstep, _, update_self .., ?_, hs₁, fun m => ?_⟩
      · refine h₁.record (q := { page with dirty := true, writeable := true, needSync := true })
          (t := pg₁.clock + 2) hpage hjs hf hk herr himg ⟨rfl, rfl, rfl⟩ ?_
        simp [Pager.grown, Pager.emitted, Pager.withPage, Pager.called, Pager.tick, hle]
      · rw [← hj]
        simp [Pager.grown, Pager.emitted, Pager.withPage, Pager.inJournal, hjs]
    · exact ⟨{ h₁.halted with codec := hf.toFramed }, hp.rc_fault hbad⟩
  · exact absurd ((h₁.dbOrigSize hs₁).symm ▸ hok.hasPage.2.1) horig

/-- A page of the cache is journalled, if it is not in the journal yet, and may be changed. -/
theorem pagerWrite_wp (hcached : (pg.cache n).isSome) (hs : pg.state ≠ .reader) :
    wp (pagerWrite p g w n)
      (fun _ pg' => start.Working p g D F pg' ∧ pg'.state ≠ .reader ∧
        ∀ m, pg'.inJournal m = (pg.inJournal m || n == m))
      (fun _ pg' => start.Halted p g D pg' ∧ F) pg := by
  obtain ⟨page, hpage⟩ := Option.isSome_iff_exists.mp hcached
  have hok := h.page n page hpage
  simp only [pagerWrite, wp_bind, wp_lookup, wp_get, wp_ite, wp_pure, wp_require, h.errCode,
    beq_self_eq_true, true_imp_iff, Bool.true_eq_false, false_imp_iff, and_true]
  refine ⟨page, hpage, fun hw => ⟨h, hs, fun m => ?_⟩, fun _ => pagerWriteNew_wp hp h hpage hs⟩
  by_cases hm : n = m
  · subst hm
    rw [beq_self_eq_true, Bool.or_true]
    exact hok.dirty (hok.writeable hw.1)
  · rw [beq_eq_false_iff_ne.mpr hm, Bool.or_false]

/-! ## Commit -/

theorem pagerIncrChangecounter_wp (hs : pg.state ≠ .reader) :
    wp (pagerIncrChangecounter p g w)
      (fun _ pg' => start.Working p g D F pg' ∧ pg'.state ≠ .reader ∧
        ∀ m, pg.inJournal m = true → pg'.inJournal m = true)
      (fun _ pg' => start.Halted p g D pg' ∧ F) pg := by
  obtain ⟨page, hpage⟩ := Option.isSome_iff_exists.mp (h.pageOne hs)
  have hone := (h.page 1 page hpage).hasPage
  simp only [pagerIncrChangecounter, wp_bind, wp_get, wp_ite, wp_pure]
  refine ⟨fun _ => ⟨h, hs, fun _ => id⟩, fun _ => ?_⟩
  refine .post (pagerGet_wp hp h hone (.inl (h.pageOne hs))) ?_
  rintro - pg₁ ⟨h₁, hst, hcached⟩
  have hs₁ : pg₁.state ≠ .reader := fun hr => hs (hst.reader.mp hr)
  refine .post (pagerWrite_wp hp h₁ hcached hs₁) ?_
  rintro - pg₂ ⟨h₂, hs₂, hj⟩
  have hj₁ : pg₂.inJournal 1 = true := by rw [hj, beq_self_eq_true, Bool.or_true]
  obtain ⟨page₂, hpage₂⟩ := Option.isSome_iff_exists.mp (h₂.pageOne hs₂)
  have hok := h₂.page 1 page₂ hpage₂
  have h512 := hp.codec.wf.pageSz_ge
  have hdata := h₂.withData hpage₂ hj₁
    ((length_writeChangecounter (by rw [hok.length]; omega)).trans hok.length)
    fun herr => hp.content_writeChangecounter hok.length (hok.content herr) pg₂.dbFileVers
  simp only [wp_lookup, wp_setPage, wp_modify]
  refine ⟨page₂, hpage₂, { hdata with codec := hdata.toTraced.codec }, hs₂, fun m hm => ?_⟩
  have hm₂ : pg₂.inJournal m = true := by rw [hj, hst.inJournal, hm, Bool.true_or]
  exact hm₂

omit hp in
theorem Pager.Working.mem_dirtyList {page : CachedPage} (hpage : pg.cache n = some page)
    (hd : page.dirty = true) : n ∈ pg.dirtyList := by
  have hn := (h.page n page hpage).hasPage
  refine List.mem_filter.mpr ⟨List.mem_range'_1.mpr ⟨hn.1, ?_⟩, by simp [hpage, hd]⟩
  have := h.dbSize
  have := hn.2.1
  omega

theorem pagerWritePagelist_wp
    (hsync : ∀ m page, pg.cache m = some page → page.dirty = true → pg.Synced m) :
    wp (pagerWritePagelist p g w pg.dirtyList)
      (fun _ pg' => start.Working p g D F pg' ∧ pg.Steady pg' ∧
        (pg.dirtyList = [] ∨ (start.unlocked p g).Keyed 1 pg'.codec) ∧
        ∀ m, start.HasPage g m → pg'.inJournal m = true →
          start.Rewritten p g D m (pg'.disk.file m))
      (fun _ pg' => start.Halted p g D pg' ∧ F) pg := by
  -- the pages that remain to be written are in the cache, with a synced record
  let I (rest : List Nat) (s : Pager) : Prop := start.Working p g D F s ∧ pg.Steady s ∧
    (pg.dirtyList = rest ∨ (start.unlocked p g).Keyed 1 s.codec) ∧
    (∀ m ∈ rest, s.Synced m ∧ ∃ q, s.cache m = some q) ∧
    ∀ m q, s.cache m = some q → q.dirty = true → m ∉ rest →
      start.Rewritten p g D m (s.disk.file m)
  have hstart : I pg.dirtyList pg := by
    refine ⟨h, ⟨rfl, Iff.rfl⟩, .inl rfl, fun m hm => ?_, fun m q hq hd hm => ?_⟩
    · obtain ⟨-, hany⟩ := List.mem_filter.mp hm
      cases hq : pg.cache m with
      | none => simp [hq] at hany
      | some q => exact ⟨hsync m q hq (by simpa [hq] using hany), q, rfl⟩
    · exact absurd (h.mem_dirtyList hq hd) hm
  have hstep (b : Nat) (rest : List Nat) (s : Pager) (_ : b :: rest <:+ pg.dirtyList)
      (hI : I (b :: rest) s) :
      wp (writePage p g w b) (fun _ => I rest) (fun _ pg' => start.Halted p g D pg' ∧ F) s := by
    obtain ⟨hw, hst, -, hrest, hdone⟩ := hI
    obtain ⟨hsb, q, hq⟩ := hrest b List.mem_cons_self
    refine .mono (writePage_wp hp hw hq hsb) ?_ fun _ _ hpost => ⟨hpost.1.halted, hpost.2.2⟩
    rintro - s' ⟨hw', hst', hk, ⟨data, hcache⟩, img, hrew, hdisk⟩
    have hfile : s'.disk.file = update s.disk.file b img := by rw [hdisk]
    refine ⟨hw', hst.trans hst', .inr hk, fun m hm => ?_, fun m q' hq' hd hm => ?_⟩
    · obtain ⟨⟨js, b', hjs, hmem⟩, q', hq'⟩ := hrest m (List.mem_cons_of_mem b hm)
      refine ⟨⟨js, b', by rw [hdisk]; exact hjs, by rw [hdisk]; exact hmem⟩, ?_⟩
      rw [hcache]
      by_cases hmb : m = b
      · subst hmb
        exact ⟨_, update_self ..⟩
      · exact ⟨q', by rw [update_of_ne hmb, hq']⟩
    · rw [hfile]
      by_cases hmb : m = b
      · subst hmb
        rw [update_self]
        exact hrew
      · rw [update_of_ne hmb]
        rw [hcache, update_of_ne hmb] at hq'
        exact hdone m q' hq' hd (by simp [hmb, hm])
  refine .post (.forEach hstep hstart) ?_
  rintro - s ⟨hw, hst, hk, -, hdone⟩
  refine ⟨hw, hst, hk, fun m hm hj => ?_⟩
  obtain ⟨q, hq, hd⟩ | ⟨-, -, hr⟩ := hw.rewritten m hm hj
  · exact hdone m q hq hd List.not_mem_nil
  · exact hr

theorem pagerCommitPhaseOne_wp (hs : pg.state ≠ .reader)
    (hall : ∀ m, start.HasPage g m → pg.inJournal m = true) :
    wp (pagerCommitPhaseOne p g w)
      (fun _ pg' => start.Rewrote p g D F pg' ∧ pg'.errCode = .ok)
      (fun _ pg' => start.Halted p g D pg' ∧ F) pg := by
  obtain ⟨page, hpage⟩ := Option.isSome_iff_exists.mp (h.pageOne hs)
  have hone := (h.page 1 page hpage).hasPage
  simp only [pagerCommitPhaseOne, wp_bind, wp_get, wp_require, h.errCode, beq_self_eq_true,
    true_imp_iff, Bool.true_eq_false, false_imp_iff, and_true, wp_ite, wp_pure, cleanAll,
    wp_mapCache, wp_request, wp_setState]
  refine ⟨fun hlow => ?_, fun _ => ?_⟩
  · obtain ⟨js, hjs⟩ := Pager.exists_journal (hall 1 hone)
    have hs' := h.state_of_journal hjs
    obtain hlow | hlow := hlow <;> obtain hs' | hs' := hs' <;> cases hlow.symm.trans hs'
  refine .post (pagerIncrChangecounter_wp hp h hs) ?_
  rintro - pg₁ ⟨h₁, -, hj₁⟩
  obtain ⟨js, hjs⟩ := Pager.exists_journal (hj₁ 1 (hall 1 hone))
  refine .mono (syncJournal_wp hp h₁ hjs) ?_ fun _ _ hpost => ⟨hpost.1.halted, hpost.2.2⟩
  rintro - pg₂ ⟨h₂, hst₂, hdb, hcache⟩
  have hsync (m : Nat) (q : CachedPage) (hq : pg₂.cache m = some q) (hd : q.dirty = true) :
      pg₂.Synced m := by
    refine (h₂.page m q hq).synced hd ?_ hdb
    simp only [hcache, Option.map_eq_some_iff] at hq
    obtain ⟨q', -, rfl⟩ := hq
    rfl
  refine .post (pagerWritePagelist_wp hp h₂ hsync) ?_
  rintro - pg₃ ⟨h₃, hst₃, hk₃, hdone⟩
  have hj₃ (m : Nat) (hm : start.HasPage g m) : pg₃.inJournal m = true := by
    rw [hst₃.inJournal, hst₂.inJournal]
    exact hj₁ m (hall m hm)
  refine ⟨fun _ => ⟨⟨⟨h₃.toTraced.codec, h₃.run, h₃.guarded⟩, h₃.follows, ?_, h₃.dbSize, ?_⟩,
    h₃.errCode⟩, fun hbad => ⟨{ h₃.halted with }, hp.rc_fault hbad⟩⟩
  · -- page 1 is never written out before
    refine hk₃.resolve_left fun hnil => ?_
    have hj₂ : pg₂.inJournal 1 = true := (hst₂.inJournal 1).trans (hj₁ 1 (hall 1 hone))
    obtain ⟨q, hq, hd⟩ := (h₂.rewritten 1 hone hj₂).resolve_right fun hno => hno.1 rfl
    exact absurd (hnil ▸ h₂.mem_dirtyList hq hd) List.not_mem_nil
  · exact fun m hm => hdone m hm (hj₃ m hm)

end

/-! ## The end of a transaction -/

section

variable (hp : start.Prepared p g w D F)
include hp

section

variable (h : start.Traced p g D pg)
include h

theorem pagerEndTransaction_wp : wp (pagerEndTransaction w)
    (fun _ pg' => start.Traced p g D pg' ∧ pg'.codec = pg.codec ∧ pg'.dbSize = pg.dbSize ∧
      pg'.disk.file = pg.disk.file)
    (fun _ pg' => start.Undone p g D pg' ∧ F) pg := by
  simp only [pagerEndTransaction, wp_bind, wp_ask, wp_get, wp_modify, wp_when, wp_require, wp_emit,
    cleanAll, truncateCache, wp_mapCache]
  refine ⟨fun hsome => ⟨fun _ => ⟨_, rfl, ?_, rfl, rfl, rfl⟩, fun hbad => ⟨⟨?_, ?_⟩, ?_⟩⟩,
    fun _ => ⟨?_, rfl, rfl, rfl⟩⟩
  · have ht := h.emitted .closeJournal trivial rfl
    exact { ht with }
  · exact { h with }
  · exact fun hnone => absurd hsome (by simpa using hnone)
  · exact hp.rc_fault (beq_eq_false_iff_ne.mp hbad)
  · exact { h with }

theorem restorePage_wp (hlen : img.length = start.codec.pageSz) :
    wp (restorePage p g w n img)
      (fun _ pg' => start.Traced p g D pg' ∧ pg'.disk = pg.disk ∧ pg'.state = pg.state ∧
        pg'.dbSize = pg.dbSize)
      (fun _ pg' => start.Traced p g D pg' ∧ pg'.disk = pg.disk) pg := by
  simp only [restorePage, wp_bind, wp_get]
  cases pg.cache n with
  | none => exact ⟨h, rfl, rfl, rfl⟩
  | some page =>
    simp only [wp_bind, wp_noteFileVers, wp_setPage]
    refine wp_codec_framed hp h.codec hlen (fun c hc => ⟨⟨hc, h.run, h.guarded⟩, rfl⟩)
      fun c out hc => ⟨⟨hc, h.run, h.guarded⟩, rfl, rfl, rfl⟩

/-- Playing back a record: only a page with a synced record is written, and it is once the file can
have been changed. -/
theorem pagerPlaybackOnePage_wp (hlen : img.length = start.codec.pageSz)
    (hs : isSynced = true → pg.Synced n) :
    wp (pagerPlaybackOnePage p g w isSynced n img)
      (fun _ pg' => start.Traced p g D pg' ∧ pg'.state = pg.state ∧ pg'.dbSize = pg.dbSize ∧
        (pg'.disk = { pg.disk with file := update pg.disk.file n img } ∨ pg'.disk = pg.disk ∧
          ¬ (isSynced = true ∧ pg.state = .writerDbmod ∧ n ≤ pg.dbSize)))
      (fun _ pg' => start.Traced p g D pg' ∧ pg'.disk.journal = pg.disk.journal) pg := by
  simp only [pagerPlaybackOnePage, wp_bind, wp_get, wp_ite, wp_pure, wp_when, wp_request, wp_emit]
  refine ⟨fun hlt => ⟨h, trivial, trivial, .inr ⟨trivial, fun hc => Nat.not_le.mpr hlt hc.2.2⟩⟩,
    fun _ => ⟨fun hw => ⟨fun _ => ⟨_, rfl, ?_⟩, fun _ => ?_⟩, fun hw => ?_⟩⟩
  · have htick : start.Traced p g D pg.tick := { h with }
    refine .mono (restorePage_wp hp (htick.emitted (.write n img) (hs hw.1) rfl) hlen) ?_ ?_
    · rintro - pg' ⟨ht', hdisk, hstate, hsize⟩
      exact ⟨ht', hstate, hsize, .inl hdisk⟩
    · rintro - pg' ⟨ht', hdisk⟩
      exact ⟨ht', by rw [hdisk]; rfl⟩
  · exact ⟨{ h with }, rfl⟩
  · refine .mono (restorePage_wp hp h hlen) ?_ ?_
    · rintro - pg' ⟨ht', hdisk, hstate, hsize⟩
      exact ⟨ht', hstate, hsize, .inr ⟨hdisk, fun hc => hw ⟨hc.1, .inl hc.2.1⟩⟩⟩
    · rintro - pg' ⟨ht', hdisk⟩
      exact ⟨ht', by rw [hdisk]⟩

end

variable (h : start.Halted p g D pg) (hs : pg.state ≠ .error)
include h hs

/-- Playing back the journal restores every page, or leaves the journal. -/
theorem pagerPlayback_wp : wp (pagerPlayback p g w)
    (fun _ pg' => start.Undone p g D pg') (fun _ pg' => start.Undone p g D pg') pg := by
  have hformat : start.codec.SameFormat 1 (start.unlocked p g) := unlocked_sameFormat _ _ 1
  -- every record is an image of a page
  have hrec (r : Nat × Bytes) (hr : r ∈ pg.disk.journal.getD []) :
      pg.disk.journal ≠ none ∧ start.Restores p g D r.1 r.2 := by
    cases hjs : pg.disk.journal with
    | none => simp [hjs] at hr
    | some js =>
      rw [hjs] at hr
      exact ⟨nofun, (h.protected hp.journal js hjs).1 r hr⟩
  have hsynced (r : Nat × Bytes) (hr : r ∈ (pg.disk.journal.getD []).take pg.disk.synced) :
      pg.Synced r.1 := by
    cases hjs : pg.disk.journal with
    | none => simp [hjs] at hr
    | some js => exact ⟨js, r.2, hjs, by rwa [hjs] at hr⟩
  -- pages that are not as they were have a record among those that remain
  let I (isSynced : Bool) (rest : List (Nat × Bytes)) (s : Pager) : Prop :=
    start.Traced p g D s ∧ s.disk.journal = pg.disk.journal ∧ s.disk.synced = pg.disk.synced ∧
    ((∀ n, start.Old p g D n (s.disk.file n)) ∨ isSynced = true ∧ s.state = .writerDbmod ∧
      s.dbSize = start.dbSize ∧
      ∀ n, start.Old p g D n (s.disk.file n) ∨ ∃ b, (n, b) ∈ rest)
  have hone (isSynced : Bool) (rs : List (Nat × Bytes)) (hrs : ∀ r ∈ rs,
      r ∈ pg.disk.journal.getD [] ∧ (isSynced = true → pg.Synced r.1)) (s : Pager)
      (hI : I isSynced rs s) :
      wp (forEach (fun r => pagerPlaybackOnePage p g w isSynced r.1 r.2) rs)
        (fun _ => I isSynced []) (fun _ pg' => start.Undone p g D pg') s := by
    refine .forEach (fun r rest s hsuf hI => ?_) hI
    obtain ⟨ht, hj, hsy, hold⟩ := hI
    obtain ⟨hmem, hsyn⟩ := hrs r (hsuf.subset List.mem_cons_self)
    obtain ⟨hsome, hres⟩ := hrec r hmem
    have hsyn' (hs : isSynced = true) : s.Synced r.1 := by
      obtain ⟨js, b, hjs, hb⟩ := hsyn hs
      exact ⟨js, b, hj.trans hjs, by rwa [hsy]⟩
    refine .mono (pagerPlaybackOnePage_wp hp ht (hres.2.length.trans hformat.pageSz) hsyn') ?_
      fun _ s' hpost => ⟨hpost.1, fun hnone => absurd (hj ▸ hpost.2 ▸ hnone) hsome⟩
    rintro - s' ⟨ht', hstate, hsize, hdisk | ⟨hdisk, hno⟩⟩
    · have hold' (m : Nat) (hm : start.Old p g D m (s.disk.file m) ∨ m = r.1) :
          start.Old p g D m (s'.disk.file m) := by
        rw [hdisk]
        by_cases heq : m = r.1
        · subst heq
          simpa using .inr hres
        · simpa [heq] using hm
      refine ⟨ht', by rw [hdisk]; exact hj, by rw [hdisk]; exact hsy, hold.imp
        (fun hold m => hold' m (.inl (hold m))) fun ⟨hi, hdb, hle, hold⟩ =>
          ⟨hi, hstate.trans hdb, hsize.trans hle, fun m => ?_⟩⟩
      obtain hm | ⟨b, hb⟩ := hold m
      · exact .inl (hold' m (.inl hm))
      · obtain rfl | hb := List.mem_cons.mp hb
        · exact .inl (hold' m (.inr rfl))
        · exact .inr ⟨b, hb⟩
    · have hall := hold.resolve_right fun ⟨hi, hdb, hle, _⟩ =>
        hno ⟨hi, hdb, hle ▸ hres.1.2.1⟩
      exact ⟨ht', by rw [hdisk]; exact hj, by rw [hdisk]; exact hsy, .inl (by rwa [hdisk])⟩
  simp only [pagerPlayback, wp_bind, wp_get, wp_modify]
  refine .post (hone true _ (fun r hr => ⟨List.mem_of_mem_take hr, fun _ => hsynced r hr⟩) _
    ⟨{ h with }, rfl, rfl, (h.file_cases hp.journal hs).imp_right fun hr => ⟨rfl, hr⟩⟩) ?_
  rintro - pg₁ ⟨ht₁, hj₁, hsy₁, hold₁⟩
  have hall₁ : ∀ n, start.Old p g D n (pg₁.disk.file n) :=
    hold₁.elim id fun hr n => (hr.2.2.2 n).resolve_right (by simp)
  refine .post (hone false _ (fun r hr => ⟨List.mem_of_mem_drop hr, (by simp)⟩) _
    ⟨ht₁, hj₁, hsy₁, .inl hall₁⟩) ?_
  rintro - pg₂ ⟨ht₂, -, -, hold₂⟩
  have hall₂ := hold₂.resolve_right fun hr => by cases hr.1
  have htick : start.Traced p g D pg₂.tick := { ht₂ with }
  refine wp_request.mpr ⟨fun _ => ?_, fun _ => ⟨htick, fun _ => hall₂⟩⟩
  refine .mono (pagerEndTransaction_wp hp htick) ?_ fun _ _ hpost => hpost.1
  exact fun _ pg' hpost => ⟨hpost.1, fun _ n => hpost.2.2.2 ▸ hall₂ n⟩

omit hs in
theorem btreeRollback_wp : wp (btreeRollback p g w)
    (fun _ pg' => start.Undone p g D pg') (fun _ pg' => start.Undone p g D pg') pg := by
  simp only [btreeRollback, pagerRollback, wp_bind, wp_get, wp_ite, wp_fail, wp_pure, wp_pagerError]
  refine ⟨fun _ => h.toUndone, fun hs => ⟨fun _ => h.toUndone, fun _ => ⟨fun hlock => ?_,
    fun _ => ?_⟩⟩⟩
  · have hall := (h.file_cases hp.journal hs).resolve_right fun hr => by cases hlock.symm.trans hr.1
    refine .mono (pagerEndTransaction_wp hp h.toTraced) ?_ fun rc _ hpost => hpost.1.failed rc
    exact fun _ pg' hpost => ⟨hpost.1, fun _ n => hpost.2.2.2 ▸ hall n⟩
  · exact .mono (pagerPlayback_wp hp h hs) (fun _ _ => id) fun rc _ hpost => hpost.failed rc

end

/-- A commit that succeeds has rewritten every page. -/
theorem btreeCommit_wp (hp : start.Prepared p g w D F) (h : start.Working p g D F pg)
    (hs : pg.state ≠ .reader) (hall : ∀ m, start.HasPage g m → pg.inJournal m = true) :
    wp (btreeCommit p g w) (fun _ pg' => start.Rewrote p g D F pg')
      (fun _ pg' => start.Undone p g D pg' ∧ F) pg := by
  simp only [btreeCommit, wp_bind, pagerCommitPhaseTwo, wp_get, wp_require, wp_pagerError]
  refine .mono (pagerCommitPhaseOne_wp hp h hs hall) ?_
    fun _ _ hpost => ⟨hpost.1.toUndone, hpost.2⟩
  rintro - pg₁ ⟨h₁, herr⟩
  refine ⟨fun _ => ?_, fun hbad => absurd herr (beq_eq_false_iff_ne.mp hbad)⟩
  refine .mono (pagerEndTransaction_wp hp h₁.toTraced) ?_
    fun rc _ hpost => ⟨hpost.1.failed rc, hpost.2⟩
  rintro - pg₂ ⟨ht, hcodec, hsize, hfile⟩
  exact ⟨ht, hcodec ▸ h₁.follows, hcodec ▸ h₁.keyed, hsize.trans h₁.dbSize,
    fun n hn => hfile ▸ h₁.all n hn⟩

end SqlCipher
