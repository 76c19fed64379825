import SqlCipher.PageIo.Transaction

/-!
# Inside a write transaction

What the functions of the pager preserve between the start of a write transaction and its end: page
size and reserve stay, the journal is open with the size of the database at the start, and before
the first page is changed there is nothing to roll back.

The parameter of `State.Inside` says how much is known: `Scope.changed` and `Scope.alive` exclude
the states in which nothing has changed and in which an error has occurred.
-/

namespace SqlCipher.PageIo

open Proc Buffer Function State

set_option synthInstance.maxSize 10000

variable {κ : Type} {C : XCodec κ} {cfg : Config} {w : Nat → Answer}

structure Geometry where
  nReserve : Nat
  pageSize : Nat
  dbSize : Nat
  deriving DecidableEq, Repr

@[reducible] def State.geometry (pg : State κ) : Geometry := ⟨pg.nReserve, pg.pageSize, pg.dbSize⟩

/-- What is known of a part of a run: the geometry at the start of the transaction, the sizes at
savepoints that remain open, and what holds of size and state. -/
structure Scope where
  start : Geometry
  origs : List Nat
  size : Nat → Prop
  changed : Prop
  alive : Prop

structure Insiding (S : Scope) (nReserve pageSize dbSize dbOrigSize : Nat) (eState : EState)
    (errCode : ResultCode) (useWal : Bool) (journalMode : JournalMode) (jfd : Handle)
    (hdrSize hdrPage : Nat) (origs : List Nat) (cache : Nat → Option Cached)
    (inJournal : Option (List Nat)) (subJournal : List Image) : Prop where
  reserve : nReserve = S.start.nReserve
  page : pageSize = S.start.pageSize
  size : S.size dbSize
  orig : dbOrigSize = S.start.dbSize
  writer : EState.rank .writerLocked ≤ eState.rank
  failed : eState = .error → errCode ≠ .ok
  changed : S.changed → eState ≠ .writerLocked
  alive : S.alive → eState ≠ .error
  fresh : eState = .writerLocked → dbSize = S.start.dbSize ∧
    (∀ n ∈ origs, n = S.start.dbSize) ∧ inJournal = none ∧ subJournal = [] ∧
    ∀ n q, cache n = some q → q.dirty = false ∧ q.writeable = false
  journal : useWal = false → journalMode ≠ .off → eState ≠ .writerLocked →
    eState ≠ .error → jfd ≠ .closed ∧ hdrSize = S.start.dbSize ∧ hdrPage = S.start.pageSize
  saved : S.origs <+: origs

abbrev State.Inside (S : Scope) (pg : State κ) : Prop :=
  Insiding S pg.nReserve pg.pageSize pg.dbSize pg.dbOrigSize pg.eState pg.errCode pg.useWal
    pg.journalMode pg.jfd pg.header.dbSize pg.header.pageSize (pg.savepoints.map Savepoint.nOrig)
    pg.cache pg.inJournal pg.subJournal

/-- As long as the state is WRITER_LOCKED, nothing is known of the journal. -/
abbrev State.Locked (S : Scope) (pg : State κ) : Prop := pg.Inside S ∧ pg.eState = .writerLocked

def Scope.modified (S : Scope) : Scope := { S with changed := True }

def Scope.after (S : Scope) (c : Prop) : Scope := { S with changed := c }

def Scope.sane (S : Scope) : Scope := { S with alive := True }

variable {S : Scope} {pg : State κ} {n : Nat}

theorem Insiding.modified (h : pg.Inside S) (he : pg.eState ≠ .writerLocked) :
    pg.Inside S.modified :=
  { h with changed := fun _ => he }

theorem Insiding.sane (h : pg.Inside S) (he : pg.eState ≠ .error) : pg.Inside S.sane :=
  { h with alive := fun _ => he }

theorem Insiding.of_modified (h : pg.Inside S.modified) : pg.Inside S :=
  { h with changed := fun _ => h.changed trivial }

theorem Insiding.of_sane (h : pg.Inside S.sane) : pg.Inside S :=
  { h with alive := fun _ => h.alive trivial }

/-- What holds once a page is writeable holds in particular if one is. -/
theorem wlp_of_modified {α : Type} {x : M κ α} (h : pg.Inside S) (he : pg.eState ≠ .writerLocked)
    (hx : Keeps (Inside S.modified) x) : wlp x (fun _ => Inside S) (fun _ => Inside S) pg :=
  .mono (hx pg (h.modified he)) (fun _ _ hs => hs.of_modified) fun _ _ hs => hs.of_modified

/-- Whether something has changed may not be known before. -/
theorem wlp_of_after {α : Type} {x : M κ α} (h : pg.Inside S)
    (hx : ∀ c, (pg.eState ≠ .writerLocked → c) → pg.Inside (S.after c) →
      wlp x (fun _ => Inside (S.after c)) (fun _ => Inside (S.after c)) pg) :
    wlp x (fun _ => Inside S) (fun _ => Inside S) pg := by
  by_cases he : pg.eState = .writerLocked
  · exact hx S.changed (absurd he) h
  · exact .mono (hx True (fun _ => trivial) (h.modified he)) (fun _ _ hs => hs.of_modified)
      fun _ _ hs => hs.of_modified

theorem wlp_of_sane {α : Type} {x : M κ α} (h : pg.Inside S.sane) (hx : Keeps (Inside S.sane) x) :
    wlp x (fun _ => Inside S.sane) (fun _ => Inside S) pg :=
  .mono (hx pg h) (fun _ _ => id) fun _ _ hs => hs.of_sane

theorem Insiding.clean_or {c : Prop} (h : pg.Inside S) (hc : pg.eState ≠ .writerLocked → c)
    (hq : pg.cache n = some q) : q.dirty = false ∧ q.writeable = false ∨ c := by
  by_cases he : pg.eState = .writerLocked
  · exact .inl ((h.fresh he).2.2.2.2 n q hq)
  · exact .inr (hc he)

theorem Insiding.setState (h : pg.Inside S.sane) (hc : S.changed) {e : EState}
    (hrank : EState.rank .writerLocked < e.rank) (he : e ≠ .error) :
    ({ pg with eState := e } : State κ).Inside S.sane := by
  have hne : e ≠ .writerLocked := by
    rintro rfl
    exact absurd hrank (by decide)
  exact { h with
    writer := hrank.le
    failed := fun herr => absurd herr he
    changed := fun _ => hne
    alive := fun _ => he
    fresh := fun hlocked => absurd hlocked hne
    journal := fun hwal hmode _ _ => h.journal hwal hmode (h.changed hc) (h.alive trivial) }

theorem Insiding.setPage (h : pg.Inside S) {page : Option Cached}
    (hpage : ∀ q ∈ page, q.dirty = false ∧ q.writeable = false ∨ (S.changed)) :
    ({ pg with cache := update pg.cache n page } : State κ).Inside S := by
  refine { h with fresh := fun he => ?_ }
  obtain ⟨hsize, horigs, hin, hsub, hclean⟩ := h.fresh he
  refine ⟨hsize, horigs, hin, hsub, fun m q hq => ?_⟩
  by_cases hmn : m = n
  · subst hmn
    have hmem : page = some q := (update_self m page pg.cache).symm.trans hq
    exact (hpage q hmem).resolve_right fun hc => h.changed hc he
  · exact hclean m q ((update_of_ne hmn page pg.cache).symm.trans hq)

theorem Insiding.mapCache (h : pg.Inside S) {f : Nat → Cached → Cached}
    (hf : ∀ n q, q.dirty = false ∧ q.writeable = false →
      (f n q).dirty = false ∧ (f n q).writeable = false) :
    ({ pg with cache := fun n => (pg.cache n).map (f n) } : State κ).Inside S := by
  refine { h with fresh := fun he => ?_ }
  obtain ⟨hsize, horigs, hin, hsub, hclean⟩ := h.fresh he
  refine ⟨hsize, horigs, hin, hsub, fun m q hq => ?_⟩
  obtain ⟨page, hpage, rfl⟩ := Option.map_eq_some_iff.mp hq
  exact hf m page (hclean m page hpage)

section

variable [hc : Fact S.changed] [ha : Fact ¬S.alive]

instance : Fact S.modified.changed := ⟨trivial⟩

instance : Fact S.sane.changed := hc

instance : Fact ¬S.modified.alive := ha

instance {c : Prop} : Fact ¬(S.after c).alive := ha

/-- A page in a transaction that has changed something, or outside of one. -/
instance {page : Option Cached} : Kept (Inside S) (setPage n page : M κ Unit) :=
  ⟨.modify fun _ h => h.setPage fun _ _ => .inr hc.out⟩

instance {rc : ResultCode} : Kept (Inside S) (when (rc = .full ∨ rc = .ioerr)
    (modify fun pg => { pg with errCode := rc, eState := .error }) : M κ Unit) := by
  refine ⟨fun pg h => .when ⟨fun hrc => ?_, fun _ => h⟩⟩
  have hne : rc ≠ .ok := by
    rintro rfl
    exact hrc.elim nofun nofun
  exact { h with
    writer := (by decide : EState.rank .writerLocked ≤ EState.rank .error)
    failed := fun _ => hne
    changed := fun _ => nofun
    alive := fun halive => absurd halive ha.out
    fresh := nofun
    journal := fun _ _ _ he => absurd rfl he }

end

/-! ## The sub-journal -/

instance {img : Option Image} : Kept (Inside S) (subJournalFileWrite w img : M κ Unit) := by
  cases img <;> (unfold subJournalFileWrite; infer_instance)

instance {iOfst iAmt : Nat} {img : Option Image} :
    Kept (Inside S) (subJournalWrite w iOfst iAmt img : M κ Unit) := by
  refine ⟨.bind .get fun pg => ?_⟩
  unfold subJournalCreateFile
  cases pg.sjfd <;> exact Kept.keeps

theorem nOrig_addToSavepoints (pgno : Nat) (ps : List Savepoint) :
    (ps.map fun p => if pgno ≤ p.nOrig then
      { p with inSavepoint := pgno :: p.inSavepoint } else p).map
      Savepoint.nOrig = ps.map Savepoint.nOrig := by
  rw [List.map_map]
  refine List.map_congr_left fun p _ => ?_
  rw [comp_apply]
  split <;> rfl

instance : Kept (Inside S) (addToSavepointBitvecs n : M κ Unit) := by
  refine ⟨.modify fun pg h => ?_⟩
  rw [Inside, nOrig_addToSavepoints]
  exact h

theorem nOrig_requiresPage {pgno : Nat} (h : requiresPage pgno ps = some ps') :
    ps'.map Savepoint.nOrig = ps.map Savepoint.nOrig := by
  induction ps generalizing ps' with
  | nil => cases h
  | cons p ps ih =>
    unfold requiresPage at h
    split at h
    · cases h
      simp [comp_def]
    · obtain ⟨qs, hqs, rfl⟩ := Option.map_eq_some_iff.mp h
      rw [List.map_cons, List.map_cons, ih hqs]

variable {page : Cached}

section

variable [hc : Fact S.changed]

instance : Kept (Inside S) (subjournalPage C cfg w n page) := by
  have {img : Image} : Kept (Inside S)
      (modify fun pg => { pg with subJournal := pg.subJournal ++ [img] } : M κ Unit) :=
    ⟨.modify fun _ h => { h with fresh := fun he => absurd he (h.changed hc.out) }⟩
  unfold subjournalPage openSubJournal subjournalImage
  infer_instance

instance : Kept (Inside S) (subjournalPageIfRequired C cfg w n page) := by
  refine ⟨.get_bind fun pg h => ?_⟩
  cases hps : requiresPage n pg.savepoints with
  | none => exact h
  | some ps =>
    refine .write (Kept.wlp ?_)
    rw [Inside, nOrig_requiresPage hps]
    exact h

end

/-! ## Files -/

instance {inPlace : Bool} {iFrame : Nat} :
    Kept (Inside S) (walWriteFrame C w inPlace iFrame n page) := by
  unfold walWriteFrame
  infer_instance

section

variable [hc : Fact S.changed]

instance {pgnos : List Nat} {nTruncate : Nat} {isCommit : Bool} :
    Kept (Inside S) (pagerWalFrames C w pgnos nTruncate isCommit) := by
  unfold pagerWalFrames walFrames
  infer_instance

instance {pgnos : List Nat} : Kept (Inside S) (pagerWritePagelist C w pgnos) := by
  unfold pagerWritePagelist writePage writeDatabase
  infer_instance

end

instance {nPage : Nat} : Kept (Inside S) (pagerTruncate w nPage : M κ Unit) := by
  unfold pagerTruncate extendDatabase
  infer_instance

/-- The pager is in a state without errors after it has taken the exclusive lock. -/
theorem pagerExclusiveLock_wlp (h : pg.Inside S) :
    wlp (pagerExclusiveLock w : M κ Unit) (fun _ => Inside S.sane)
      (fun _ => Inside S) pg := by
  refine .read (.bind (.ite ⟨fun hok => ?_, fun _ => h⟩))
  have hsane : pg.Inside S.sane := h.sane fun he => h.failed he hok
  exact .pure (wlp_of_sane hsane Kept.keeps)

theorem syncJournal_wlp (h : pg.Inside S) (hc : S.changed) :
    wlp (syncJournal cfg w : M κ Unit) (fun _ => Inside S.sane) (fun _ => Inside S) pg := by
  refine .seq (pagerExclusiveLock_wlp h) fun _ s hs => wlp_of_sane hs ?_
  exact .bind Kept.keeps fun _ => .bind (.modify fun _ h => h.mapCache fun _ _ hq => hq) fun _ =>
    .modify fun s h => h.setState hc (by decide) nofun

instance [hc : Fact S.changed] : Kept (Inside S) (syncJournal cfg w : M κ Unit) :=
  ⟨fun _ h => .post (syncJournal_wlp h hc.out) fun _ _ hs => hs.of_sane⟩

/-- A page that is dirty is evidence that something has changed. -/
theorem Insiding.not_locked (h : pg.Inside S) {page : Cached} (hpage : pg.cache n = some page)
    (hd : page.dirty = true ∨ page.writeable = true) : pg.eState ≠ .writerLocked := fun he => by
  obtain ⟨-, -, -, -, hclean⟩ := h.fresh he
  have := hclean n page hpage
  rcases hd with hd | hd <;> simp [hd] at this

instance : Kept (Inside S) (readDbPage C w n) := by
  unfold readDbPage
  infer_instance

instance : Kept (Inside S) (skipRecords n : M κ Unit) := by
  refine ⟨.bind (.modify fun pg h => { h with fresh := fun he => ?_ }) fun _ => Kept.keeps⟩
  obtain ⟨hsize, horigs, hin, hrest⟩ := h.fresh he
  refine ⟨hsize, horigs, ?_, hrest⟩
  change (if n ≤ pg.dbOrigSize then pg.inJournal.map (n :: ·) else pg.inJournal) = none
  rw [hin, Option.map_none, ite_self]

section

variable [ha : Fact ¬S.alive]

instance : Kept (Inside S) (pagerStress C cfg w n) := by
  refine ⟨.get_bind fun pg h => ?_⟩
  cases hpage : pg.cache n with
  | none => exact h
  | some page =>
    refine .ite ⟨fun _ => h, fun hgo => ?_⟩
    have hdirty : page.dirty = true := by
      simp only [not_or, Bool.not_eq_false] at hgo
      exact hgo.2.1
    exact wlp_of_modified h (h.not_locked hpage (.inl hdirty)) Kept.keeps

/-! ## Fetching pages -/

/-- The page keeps the flags that it had in the cache. -/
theorem fetchPage_inside (noContent : Bool)
    (hflags : ∀ q ∈ pg.cache n, q.dirty = false ∧ q.writeable = false ∨ S.changed) :
    Keeps (Inside S) (fetchPage C cfg w pg n noContent) := by
  refine .bind Kept.keeps fun _ => .bind Kept.keeps fun _ => .bind Kept.keeps fun _ =>
    .bind Kept.keeps fun _ => .ite_bind (.pure _) Kept.keeps fun data =>
    .modify fun s hs => hs.setPage ?_
  rintro q ⟨⟩
  cases hpage : pg.cache n with
  | none => exact .inl ⟨rfl, rfl⟩
  | some page => exact (hflags page hpage)

instance {noContent : Bool} : Kept (Inside S) (pagerGet C cfg w n noContent) := by
  refine ⟨.get_bind fun pg h => wlp_of_after h fun c hc hs => ?_⟩
  have : Kept (Inside (S.after c)) (fetchPage C cfg w pg n noContent) :=
    ⟨fetchPage_inside noContent fun _ => h.clean_or hc⟩
  exact Kept.wlp hs

/-! ## Changing pages -/

/-- After `pager_open_journal` the journal is open, and the first page may change. -/
theorem pagerOpenJournal_wlp (h : pg.Inside S) (he : pg.eState = .writerLocked) :
    wlp (pagerOpenJournal cfg w : M κ Unit) (fun _ => Inside S.modified)
      (fun _ => Inside S) pg := by
  have hend {s : State κ} (hs : s.Inside S) (inJournal : Option (List Nat))
      (hopen : s.useWal = false → s.journalMode ≠ .off →
        s.jfd ≠ .closed ∧ s.header.dbSize = S.start.dbSize ∧ s.header.pageSize = S.start.pageSize) :
      ({ s with inJournal := inJournal, eState := .writerCachemod } : State κ).Inside S.modified :=
    ⟨hs.reserve, hs.page, hs.size, hs.orig,
      (by decide : EState.rank .writerLocked ≤ EState.rank .writerCachemod),
      nofun, fun _ => nofun, fun halive => absurd halive ha.out, nofun,
      fun hwal hmode _ _ => hopen hwal hmode, hs.saved⟩
  have hset {s : State κ} (hs : s.Locked S) (jfd : Handle) (journal : List Image)
    (hdr : JournalHeader)
      (journalHdr : Nat) : ({ s with
        jfd := jfd
        journal := journal
        header := hdr
        journalHdr := journalHdr } : State κ).Locked S :=
    ⟨{ hs.1 with journal := fun _ _ hne => absurd hs.2 hne }, hs.2⟩
  refine .read (.bind (.when ⟨fun hon => ?_, fun hoff => ?_⟩))
  · refine .bind (.mono (Q := fun _ s => s.Locked S ∧ s.jfd ≠ .closed) (E := fun _ => Locked S)
      (.when ⟨fun _ => .bind ?_, fun hopen => ⟨⟨h, he⟩, hopen⟩⟩) (fun _ s hs => ?_)
        fun _ _ hs => hs.1)
    · refine .post (Kept.wlp (I := Locked S) ⟨h, he⟩) fun _ s hs => ?_
      refine ⟨hset hs _ s.journal s.header s.journalHdr, ?_⟩
      change (if s.journalMode = .memory then Handle.memory none else .file) ≠ .closed
      split <;> nofun
    have hnew := hset hs.1 s.jfd [] (s.newHeader cfg) 0
    refine .write (.bind ?_)
    refine .mono (Kept.wlp (I := fun s : State κ => s.Locked S ∧ s.jfd ≠ .closed ∧
      s.header.dbSize = S.start.dbSize ∧ s.header.pageSize = S.start.pageSize)
      ⟨hnew, hs.2, hs.1.1.orig, hs.1.1.page⟩) (fun _ s' hs' => ?_) fun _ _ hs => hs.1.1
    exact hend hs'.1.1 (some []) fun _ _ => hs'.2
  · exact hend h pg.inJournal fun hwal hmode => absurd ⟨hwal, hmode⟩ hoff

def Scope.Grows (S : Scope) : Prop := ∀ n k, S.size n → S.size (max n k)

instance [hg : Fact S.Grows] : Fact S.modified.Grows := hg

instance [hc : Fact S.changed] [hg : Fact S.Grows] :
    Kept (Inside S) (pagerWriteRest C cfg w n) := by
  have {page : Cached} : Kept (Inside S) (pagerAddPageToRollbackJournal C w n page) := by
    have {img : Image} : Kept (Inside S) (modify fun pg => { pg with
        journal := pg.journal ++ [img], inJournal := pg.inJournal.map (n :: ·) } : M κ Unit) :=
      ⟨.modify fun _ h => { h with fresh := fun he => absurd he (h.changed hc.out) }⟩
    unfold pagerAddPageToRollbackJournal journalWrite
    infer_instance
  have : Kept (Inside S) (modify fun pg => { pg with dbSize := max pg.dbSize n } : M κ Unit) :=
    ⟨.modify fun _ h => { h with
      size := hg.out _ n h.size
      fresh := fun he => absurd he (h.changed hc.out) }⟩
  unfold pagerWriteRest
  infer_instance

variable [hg : Fact S.Grows]

instance : Kept (Inside S) (pagerWriteOne C cfg w n) := by
  refine ⟨.get_bind fun pg h => .bind ?_⟩
  have hrest (s : State κ) (hs : s.Inside S.modified) : wlp (pagerWriteRest C cfg w n)
      (fun _ => Inside S) (fun _ => Inside S) s :=
    .mono (Kept.wlp hs) (fun _ _ hs => hs.of_modified) fun _ _ hs => hs.of_modified
  refine .when ⟨fun he => ?_, fun he => hrest pg (h.modified he)⟩
  exact .post (pagerOpenJournal_wlp h he) fun _ s hs => hrest s hs

instance : Kept (Inside S) (pagerWriteLargeSector C cfg w n) := by
  unfold pagerWriteLargeSector writeSectorPage
  refine ⟨.bind .get fun _ => .bind Kept.keeps fun _ => .bind Kept.keeps fun rc =>
    .bind (.modify fun s h => ?_) fun _ => .ofExcept rc⟩
  have hflags (c : Prop) [Decidable c] (q : Cached) :
      (if c then { q with needSync := true } else q).dirty = q.dirty ∧
        (if c then { q with needSync := true } else q).writeable = q.writeable := by
    split <;> exact ⟨rfl, rfl⟩
  exact h.mapCache fun m q hq => by rwa [(hflags _ q).1, (hflags _ q).2]

instance : Kept (Inside S) (pagerWrite C cfg w n) := by
  refine ⟨fun pg h => .bind (.read ?_)⟩
  cases hpage : pg.cache n with
  | none => exact trivial
  | some page =>
    refine .pure (.read (.ite ⟨fun hfast => ?_, fun _ =>
      Kept.wlp h⟩))
    exact wlp_of_modified h (h.not_locked hpage (.inr hfast.1)) Kept.keeps

end

instance : Kept (Inside S) (pagerDontWrite n : M κ Unit) := by
  refine ⟨fun pg h => .bind (.read ?_)⟩
  cases hpage : pg.cache n with
  | none => exact trivial
  | some page =>
    refine .pure (.read (.when ⟨fun hd => ?_, fun _ => h⟩))
    exact wlp_of_modified h (h.not_locked hpage (.inl hd.1)) Kept.keeps

/-- Pages are moved only after something has changed. -/
instance [hc : Fact S.changed] [Fact ¬S.alive] {target : Nat} {isCommit : Bool} :
    Kept (Inside S) (pagerMovepage C cfg w n target isCommit) := by
  refine ⟨.bind Kept.keeps fun _ => .bind Kept.keeps fun _ => .bind Kept.keeps fun _ =>
    .bind .get fun _ => .bind Kept.keeps fun _ => .bind Kept.keeps fun _ =>
    .when (.bind Kept.keeps fun r => ?_)⟩
  cases r with
  | ok u => exact Kept.keeps
  | error rc =>
    exact .bind (.modify fun _ h => { h with
      fresh := fun he => absurd he (h.changed hc.out) }) fun _ => .fail fun _ => id

end SqlCipher.PageIo
