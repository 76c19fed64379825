import SqlCipher.PageIo.Inside
import SqlCipher.PageIo.Run

/-!
# What a rollback does to the sizes

`sqlite3PagerRollback`, the rollback of a savepoint and the rollback of a hot journal, with the
page size, the reserve and the size of the database before and after (`rollback_restores_geometry`).
`pager_playback_one_page` takes the reserve from byte 20 of page 1 as the journal has it, that is,
from the encoded page if the journal is encoded.
-/

namespace SqlCipher.PageIo

open Proc Buffer Option List State

set_option synthInstance.maxSize 10000

variable {κ : Type} {C : XCodec κ} {cfg : Config} {w : Nat → Answer} {S : Scope} {pg : State κ}
  {n i : Nat}

/-! ## Commits -/

theorem ne_writerLocked {e : EState} (h : EState.rank .writerCachemod ≤ e.rank) :
    e ≠ .writerLocked := by
  rintro rfl
  exact absurd h (by decide)

section

variable [hc : Fact S.changed] [ha : Fact ¬S.alive]

instance [Fact S.Grows] : Kept (Inside S) (pagerIncrChangecounter C cfg w) := by
  unfold pagerIncrChangecounter
  infer_instance

instance {isMainJrnl synced : Bool} {img : Image} :
    Kept (Inside S) (playbackStore C cfg w isMainJrnl synced img) := by
  unfold playbackStore playbackWrite playbackBackup playbackFetch writeDatabase
  exact ⟨.bind .get fun _ => .ite (.bind Kept.keeps fun _ => Kept.keeps) Kept.keeps⟩

end

instance : Kept (Inside S) (cleanAll : M κ Unit) :=
  ⟨.modify fun _ h => h.mapCache fun _ _ _ => ⟨rfl, rfl⟩⟩

instance [Fact ¬S.alive] [Fact S.Grows] : Kept (Inside S) (pagerCommitPhaseOne C cfg w) := by
  refine ⟨.get_bind fun pg h => .bind (.ite ⟨fun _ => ?_, fun _ => h⟩)⟩
  refine .pure (.when ⟨fun hrank => ?_, fun _ => h⟩)
  refine wlp_of_modified h (ne_writerLocked hrank) (.ite Kept.keeps fun s hs => ?_)
  · refine .seq (Kept.wlp hs) fun _ s hs => ?_
    refine .seq (syncJournal_wlp hs trivial) fun _ s hs => ?_
    refine .post (wlp_of_sane hs ?_) fun _ _ hs => hs.of_sane
    exact .bind .get fun _ => .bind Kept.keeps fun _ => .bind Kept.keeps fun _ =>
      .bind .get fun _ => .bind Kept.keeps fun _ => .bind Kept.keeps fun _ =>
      .modify fun s h => h.setState trivial (by decide) nofun

/-! ## Playing records back -/

def Image.reserve (img : Image) : Nat := (img.data.getD 20 0).toNat

def Shows (nReserve : Nat) (records : List Image) : Prop :=
  ∀ img ∈ records, img.pgno = 1 → img.reserve = nReserve

def Scope.sized (S : Scope) (n : Nat) : Scope := { S with size := (· = n) }

instance [ha : Fact ¬S.alive] : Fact ¬(S.sized n).alive := ha

/-- The records that `playbackRecords` chooses in a database of `size` pages, and the pages that are
done then. -/
def played (once : Bool) (size : Nat) : List Nat → List Image → List Nat × List Image
  | done, [] => (done, [])
  | done, img :: imgs =>
    if size < img.pgno ∨ img.pgno ∈ done then played once size done imgs
    else
      let r := played once size (if once then img.pgno :: done else done) imgs
      (r.1, img :: r.2)

/-- There are records only if something has changed. -/
theorem playbackRecords_inside [Fact ¬S.alive] (isMainJrnl once : Bool) (i : Nat) (done : List Nat)
    {records : List Image} (hc : records ≠ [] → S.changed)
    (hrec : Shows S.start.nReserve (played once n done records).2) (h : pg.Inside (S.sized n)) :
    wlp (playbackRecords C cfg w isMainJrnl once i done records)
      (fun done' s => s.Inside (S.sized n) ∧ done' = (played once n done records).1)
      (fun _ => Inside (S.sized n)) pg := by
  induction records generalizing i done pg with
  | nil => exact ⟨h, rfl⟩
  | cons img records ih =>
    have hsize : pg.dbSize = n := h.size
    have hc : Fact (S.sized n).changed := ⟨hc (cons_ne_nil img records)⟩
    refine .read (.ite ⟨fun hskip => ?_, fun hplay => ?_⟩)
    · rw [hsize] at hskip
      rw [played, if_pos hskip] at hrec ⊢
      exact ih (i + 1) done (fun _ => hc.out) hrec h
    · rw [hsize] at hplay
      rw [played, if_neg hplay] at hrec ⊢
      have hone : Keeps (Inside (S.sized n))
          (pagerPlaybackOnePage C cfg w isMainJrnl (i < pg.journalHdr) img) := by
        refine .bind (.bind (fun _ h => .when ⟨fun h1 => ?_, fun _ => h⟩) fun _ => Kept.keeps)
          fun _ => Kept.keeps
        exact { h with reserve := hrec img mem_cons_self h1 }
      exact .seq (hone pg h) fun _ s hs => ih (i + 1) _ (fun _ => hc.out)
        (fun j hj => hrec j (mem_cons_of_mem img hj)) hs

/-- The records of the journal and the sub-journal that are played back for a savepoint. -/
def State.replayedFrom (pg : State κ) (p : Savepoint) : List Image :=
  let main := played true p.nOrig [] (if pg.useWal then [] else pg.records.drop p.iRec)
  main.2 ++ (played true p.nOrig main.1 (pg.subJournal.drop p.iSubRec)).2

def State.replayedAll (pg : State κ) : List Image :=
  if pg.useWal then [] else (played false pg.dbOrigSize [] pg.records).2

/-- Before anything has been changed there are no records. -/
theorem Insiding.records_eq (h : pg.Inside S) (he : pg.eState = .writerLocked) :
    pg.records = [] ∧ pg.subJournal = [] := by
  obtain ⟨-, -, hin, hsub, -⟩ := h.fresh he
  exact ⟨by simp [records, hin], hsub⟩

theorem Insiding.setSize (h : pg.Inside S) (hk : pg.eState = .writerLocked → k = S.start.dbSize)
    (b : Bool) : ({ pg with dbSize := k, changeCountDone := b } : State κ).Inside (S.sized k) :=
  { h with size := rfl, fresh := fun he => ⟨hk he, (h.fresh he).2⟩ }

theorem pagerPlaybackSavepoint_wlp [Fact ¬S.alive] (h : pg.Inside S) (hp : p ∈ pg.savepoints)
    (hshown : Shows pg.nReserve (pg.replayedFrom p)) :
    wlp (pagerPlaybackSavepoint C cfg w p) (fun _ => Inside (S.sized p.nOrig))
      (fun _ => Inside (S.sized p.nOrig)) pg := by
  have hset := h.setSize (fun he => (h.fresh he).2.1 _ (mem_map_of_mem hp)) false
  have hreserve : pg.nReserve = S.start.nReserve := h.reserve
  rw [hreserve, replayedFrom] at hshown
  refine .write (.read (wlp_of_after hset fun c hc hset => ?_))
  have hmain : pg.records.drop p.iRec ≠ [] → c := fun hne =>
    hc fun he => hne (by simp [(h.records_eq he).1])
  have hsub : pg.subJournal.drop p.iSubRec ≠ [] → c := fun hne =>
    hc fun he => hne (by simp [(h.records_eq he).2])
  -- the sub-journal comes after the journal, and without the pages that are done
  have hrest {done : List Nat} {s : State κ} (hs : s.Inside ((S.after c).sized p.nOrig))
      (hrec : Shows S.start.nReserve (played true p.nOrig done (pg.subJournal.drop p.iSubRec)).2) :
      wlp (do
        when (pg.useWal = true) do
          modify fun pg => { pg with mxFrame := min p.walData pg.mxFrame }
        let _ ← playbackRecords C cfg w false true 0 done (pg.subJournal.drop p.iSubRec) : M κ Unit)
        (fun _ => Inside ((S.after c).sized p.nOrig)) (fun _ => Inside ((S.after c).sized p.nOrig))
        s := by
    refine .seq (Kept.wlp hs) fun _ s hs => ?_
    exact .seq (playbackRecords_inside (S := S.after c) false true 0 done hsub hrec hs)
      fun _ _ hs => .pure hs.1
  refine .ite ⟨fun hwal => .bind (.pure (hrest hset ?_)), fun hwal => ?_⟩
  · have hwal : pg.useWal = true := hwal
    rw [if_pos hwal] at hshown
    exact hshown
  · have hwal : ¬pg.useWal = true := hwal
    rw [if_neg hwal] at hshown
    refine .seq (playbackRecords_inside (S := S.after c) true true p.iRec [] hmain
      (fun img himg => hshown img (mem_append_left _ himg)) hset) fun done s hs => ?_
    obtain ⟨hs, rfl⟩ := hs
    exact hrest hs fun img himg => hshown img (mem_append_right _ himg)

instance : Kept (Inside S) (pagerUndoCallback C w n) := by
  refine ⟨.bind Kept.keeps fun o => .get_bind fun pg h => ?_⟩
  cases hpage : pg.cache n with
  | none => exact h
  | some page =>
    refine .ite ⟨fun _ => wlp_of_after h fun c hc hs => ?_, fun _ => h.setPage nofun⟩
    refine Maintains.bind Kept.keeps (fun data => .modify fun s hs => hs.setPage ?_) pg hs
    rintro q ⟨⟩
    exact (h.clean_or hc hpage :)

theorem pagerPlaybackAll_wlp [Fact ¬S.alive] (h : pg.Inside S)
    (hshown : Shows pg.nReserve pg.replayedAll) :
    wlp (pagerPlaybackAll C cfg w) (fun _ => Inside (S.sized pg.dbOrigSize))
      (fun _ => Inside (S.sized pg.dbOrigSize)) pg := by
  have hset := h.setSize (fun _ => h.orig) false
  have hreserve : pg.nReserve = S.start.nReserve := h.reserve
  refine .write (.read (.ite ⟨fun _ => ?_, fun hwal => ?_⟩))
  · refine .read (.write ?_)
    exact Kept.wlp hset
  · have hwal : ¬pg.useWal = true := hwal
    rw [hreserve, replayedAll, if_neg hwal] at hshown
    refine wlp_of_after hset fun c hc hset => ?_
    refine .seq (playbackRecords_inside (S := S.after c) true false 0 []
      (fun hne => ?_) hshown hset)
      fun _ _ hs => .pure hs.1
    exact hc fun he => hne (h.records_eq he).1

/-! ## Savepoints -/

def Scope.any (S : Scope) : Scope := { S with size := fun _ => True }

theorem Insiding.any (h : pg.Inside S) : pg.Inside S.any :=
  { h with size := trivial }

def State.sizeAt (pg : State κ) : Option Nat → Option Nat
  | none => some pg.dbOrigSize
  | some i => pg.savepoints[i]?.map Savepoint.nOrig

def remaining (iSavepoint : Option Nat) : Nat := (iSavepoint.map (· + 1)).getD 0

/-- What is rolled back: a transaction, a savepoint (the whole transaction if there is none), or
what another connection has left. -/
inductive Rollback where
  | transaction
  | savepoint (iSavepoint : Option Nat)
  | hot

def State.replayed (pg : State κ) : Rollback → List Image
  | .transaction =>
    if pg.useWal ∨ pg.jfd = .closed ∨ pg.eState = .writerLocked then []
    else (played false pg.header.dbSize [] pg.journal).2
  | .savepoint iSavepoint =>
    if pg.useWal = false ∧ pg.jfd = .closed then []
    else ((iSavepoint.bind fun i => pg.savepoints[i]?).map pg.replayedFrom).getD pg.replayedAll
  | .hot => (played false pg.header.dbSize [] (pg.foundRecords true)).2

/-- Byte 20 of page 1 is the reserve wherever it is played back. -/
@[reducible] def State.Shown (r : Rollback) (pg : State κ) : Prop :=
  Shows pg.nReserve (pg.replayed r)

theorem Insiding.takeSavepoints (h : pg.Inside S) (hk : S.origs.length ≤ k) :
    ({ pg with savepoints := pg.savepoints.take k } : State κ).Inside S := by
  have horigs : (pg.savepoints.take k).map Savepoint.nOrig =
      (pg.savepoints.map Savepoint.nOrig).take k := map_take ..
  refine { h with fresh := fun he => ?_, saved := ?_ }
  · obtain ⟨hsize, hall, hrest⟩ := h.fresh he
    refine ⟨hsize, fun n hn => hall n ?_, hrest⟩
    rw [horigs] at hn
    exact mem_of_mem_take hn
  · rw [horigs]
    exact prefix_take_iff.mpr ⟨h.saved, hk⟩

/-- Rolling back a savepoint restores the size at which it was opened, unless there is no journal.
-/
theorem pagerRollbackSavepoint_wlp [Fact ¬S.alive] (h : pg.Inside S)
    (hshown : pg.Shown (.savepoint iSavepoint)) (hkeep : S.origs.length ≤ remaining iSavepoint) :
    wlp (pagerRollbackSavepoint C cfg w iSavepoint)
      (fun _ s => s.Inside S.any ∧ ((pg.useWal = false → pg.journalMode ≠ .off) →
        ∀ k ∈ pg.sizeAt iSavepoint, s.dbSize = k))
      (fun _ => Inside S.any) pg := by
  refine .read (.bind (.ite ⟨fun hok => ?_, fun _ => h.any⟩))
  refine .pure (.when ⟨fun hlen => ?_, fun hlen => ⟨h.any, fun _ k hk => ?_⟩⟩)
  · have htake := h.takeSavepoints hkeep
    refine .write (.when ⟨fun hopen => ?_, fun hno => ⟨htake.any, ?_⟩⟩)
    · have hopen : ¬(pg.useWal = false ∧ pg.jfd = .closed) := fun hno =>
        hopen.elim (fun hwal => absurd (hno.1.symm.trans hwal) nofun) fun hne => hne hno.2
      rw [Shown, replayed, if_neg hopen] at hshown
      cases iSavepoint with
      | none =>
        refine .mono (pagerPlaybackAll_wlp htake hshown) (fun _ s hs => ⟨hs.any, fun _ k hk => ?_⟩)
          fun _ _ hs => hs.any
        cases hk
        exact hs.size
      | some i =>
        have hi : i < pg.savepoints.length := hlen
        have hp : pg.savepoints[i]? = some pg.savepoints[i] := List.getElem?_eq_getElem hi
        have hmem : pg.savepoints[i] ∈ pg.savepoints.take (i + 1) :=
          mem_of_getElem? ((List.getElem?_take_of_lt (Nat.lt_succ_self i)).trans hp)
        rw [bind_some, hp] at hshown ⊢
        refine .mono (pagerPlaybackSavepoint_wlp htake hmem hshown)
          (fun _ s hs => ⟨hs.any, fun _ k hk => ?_⟩) fun _ _ hs => hs.any
        rw [sizeAt, hp, map_some] at hk
        cases hk
        exact hs.size
    · -- there is no journal, and so nothing has changed
      intro hmode k hk
      simp only [not_or, Bool.not_eq_true, ne_eq, not_not] at hno
      have he : pg.eState = .writerLocked := by
        by_contra he
        exact (h.journal hno.1 (hmode hno.1) he fun herr => h.failed herr hok).1 hno.2
      obtain ⟨hsize, horigs, -⟩ := h.fresh he
      refine hsize.trans ?_
      cases iSavepoint with
      | none =>
        cases hk
        exact h.orig.symm
      | some i =>
        obtain ⟨p, hp, rfl⟩ := map_eq_some_iff.mp hk
        exact (horigs _ (mem_map_of_mem (mem_of_getElem? hp))).symm
  · cases iSavepoint with
    | none => exact absurd (Nat.zero_le _) hlen
    | some i =>
      obtain ⟨p, hp, -⟩ := map_eq_some_iff.mp hk
      exact absurd (List.getElem?_eq_some_iff.mp hp).1 hlen

theorem pagerReleaseSavepoint_inside (hkeep : S.origs.length ≤ i) :
    Keeps (Inside S) (pagerReleaseSavepoint i : M κ Unit) := by
  refine .get_bind fun pg h => .bind (.ite ⟨fun _ => .pure ?_, fun _ => h⟩)
  cases pg.savepoints[i]? with
  | none => exact h
  | some rel =>
    refine .write (.when ⟨fun _ => ?_, fun _ => h.takeSavepoints hkeep⟩)
    have htake := h.takeSavepoints hkeep
    refine { htake with fresh := fun he => ?_ }
    obtain ⟨hsize, horigs, hin, hsub, hclean⟩ := htake.fresh he
    exact ⟨hsize, horigs, hin, (congrArg _ hsub).trans take_nil, hclean⟩

theorem pagerOpenSavepoint_inside (k : Nat) :
    Keeps (Inside S) (pagerOpenSavepoint k : M κ Unit) := by
  refine .modify fun pg h => { h with fresh := fun he => ?_, saved := ?_ }
  · obtain ⟨hsize, horigs, hrest⟩ := h.fresh he
    refine ⟨hsize, fun n hn => ?_, hrest⟩
    rw [map_append, map_replicate] at hn
    rcases mem_append.mp hn with hold | hnew
    · exact horigs n hold
    · rw [eq_of_mem_replicate hnew]
      exact hsize
  · rw [map_append]
    exact h.saved.trans (prefix_append _ _)

/-! ## Calls inside a transaction -/

/-- Inside a transaction that began with geometry `g`; savepoints were opened at the sizes `origs`.
-/
def Scope.tx (g : Geometry) (origs : List Nat) : Scope := ⟨g, origs, fun _ => True, False, False⟩

/-- What may be called in a transaction, with `keep` savepoints that remain open. Pages are moved
and the image truncated only after a page is changed, the journal mode changes only before, and the
journal is this connection's. -/
def Allowed (keep : Nat) (pg : State κ) : PagerOp κ → Prop
  | .sharedLock | .commitPhaseTwo | .rollback | .unlock | .openWal | .closeWal => False
  | .truncateImage _ | .movepage _ _ _ => EState.rank .writerCachemod ≤ pg.eState.rank
  | .journalMode _ => pg.eState = .writerLocked
  | .releaseSavepoint i => keep ≤ i
  | .rollbackSavepoint i => keep ≤ remaining i
  | .others o => o.header = pg.header ∧ o.journal = pg.journal
  | _ => True

instance (keep : Nat) (pg : State κ) (op : PagerOp κ) : Decidable (Allowed keep pg op) := by
  cases op <;> unfold Allowed <;> infer_instance

instance {data : Bytes} : Kept (Inside S) (modifyPage n data : M κ Unit) := by
  refine ⟨fun pg h => .bind (.read ?_)⟩
  cases hpage : pg.cache n with
  | none => exact trivial
  | some page =>
    refine .pure (.ite ⟨fun hwr => ?_, fun _ => trivial⟩)
    exact wlp_of_modified h (h.not_locked hpage (.inr hwr)) Kept.keeps

instance : Kept (Inside S) (evictPage n : M κ Unit) :=
  ⟨.bind Kept.keeps fun _ => .ite .undefined (.modify fun _ h => h.setPage nofun)⟩

instance {exFlag subjInMemory : Bool} :
    Kept (Inside S) (pagerBegin w exFlag subjInMemory : M κ Unit) := by
  refine ⟨.get_bind fun pg h => .bind (.ite ⟨fun _ => .pure ?_, fun _ => h⟩)⟩
  refine .write (.when ⟨fun he => ?_, fun _ => h⟩)
  have hrank := h.writer
  rw [he] at hrank
  exact absurd hrank (by decide)

instance {a b c : Nat} : Kept (Inside S) (backfillPage w a b c n : M κ Unit) := by
  unfold backfillPage writeDatabase
  refine ⟨.bind .get fun pg => .when (.bind Kept.keeps fun _ => ?_)⟩
  cases pg.frames[pg.findFrame n 1 c - 1]? <;> exact Kept.keeps

instance {reset : Bool} : Kept (Inside S) (pagerCheckpoint w reset : M κ Unit) := by
  unfold pagerCheckpoint
  infer_instance

theorem Insiding.closeJournal (h : pg.Inside S) (he : pg.eState = .writerLocked) :
    pg.closeJournal.Inside S ∧ pg.closeJournal.eState = .writerLocked := by
  unfold State.closeJournal
  split <;> exact ⟨{ h with journal := fun _ _ hne => absurd he hne }, he⟩

theorem pagerSetJournalMode_inside (h : pg.Inside S) (he : pg.eState = .writerLocked)
    (eMode : JournalMode) :
    wlp (pagerSetJournalMode C cfg w eMode) (fun _ => Inside S) (fun _ => Inside S) pg := by
  have hmode : ({ pg with journalMode := eMode } : State κ).Locked S :=
    ⟨{ h with journal := fun _ _ hne => absurd he hne }, he⟩
  have : Kept (Locked S) (modify closeJournal : M κ Unit) :=
    ⟨.modify fun _ hs => hs.1.closeJournal hs.2⟩
  have : Kept (Locked S) (modify dropJournal : M κ Unit) :=
    ⟨.modify fun _ hs => ⟨{ hs.1 with journal := fun _ _ hne => absurd hs.2 hne }, hs.2⟩⟩
  have hskip {e : EState} (hne : e ≠ .writerLocked) (x : M κ Unit) :
      Kept (Locked S) (when (pg.eState = e) x) :=
    ⟨fun s hs => .when ⟨fun heq => absurd (heq.symm.trans he) hne, fun _ => hs⟩⟩
  have hopen := hskip (e := .open) nofun
  have hreader := hskip (e := .reader) nofun
  unfold pagerSetJournalMode removeJournal
  refine .read (.when ⟨fun _ => .write ?_, fun _ => h⟩)
  exact .mono (Kept.wlp hmode) (fun _ _ hs => hs.1) fun _ _ hs => hs.1

def PagerOp.replay : PagerOp κ → Option Rollback
  | .rollbackSavepoint iSavepoint => some (.savepoint iSavepoint)
  | _ => none

variable {g : Geometry} {origs : List Nat}

instance : Fact (Scope.tx g origs).Grows := ⟨fun _ _ _ => trivial⟩

instance : Fact ¬(Scope.tx g origs).alive := ⟨id⟩

theorem PagerOp.run_inside (h : pg.Inside (.tx g origs)) (hop : Allowed origs.length pg op)
    (hshown : ∀ r ∈ op.replay, pg.Shown r) :
    wlp (op.run C cfg w) (fun _ => Inside (.tx g origs)) (fun _ => Inside (.tx g origs))
      pg := by
  cases op with
  | sharedLock | commitPhaseTwo | rollback | unlock | openWal | closeWal => exact absurd hop id
  | movepage n target isCommit =>
    unfold PagerOp.run
    exact wlp_of_modified h (ne_writerLocked hop) Kept.keeps
  | truncateImage nPage =>
    exact { h with size := trivial, fresh := fun he => absurd he (ne_writerLocked hop) }
  | openSavepoint n => exact pagerOpenSavepoint_inside n pg h
  | releaseSavepoint i => exact pagerReleaseSavepoint_inside hop pg h
  | rollbackSavepoint i =>
    exact .mono (pagerRollbackSavepoint_wlp h (hshown _ rfl) hop) (fun _ _ hs => hs.1)
      fun _ _ hs => hs
  | journalMode eMode => exact pagerSetJournalMode_inside h hop eMode
  | others o =>
    obtain ⟨hhdr, -⟩ := hop
    refine { h with journal := ?_ }
    change _ → _ → _ → _ → pg.jfd ≠ .closed ∧ o.header.dbSize = _ ∧ o.header.pageSize = _
    rw [hhdr]
    exact h.journal
  | _ =>
    unfold PagerOp.run
    exact Kept.wlp h

/-! ## Ending a transaction -/

/-- Something that depends only on the reserve, the page size, the size of the database and the
length of the file. -/
abbrev State.Sizes (P : Nat → Nat → Nat → Nat → Prop) (pg : State κ) : Prop :=
  P pg.nReserve pg.pageSize pg.dbSize pg.fileLength

variable {P : Nat → Nat → Nat → Nat → Prop}

theorem pagerEndTransaction_sizes : Keeps (Sizes P) (pagerEndTransaction w false : M κ Unit) := by
  have {c c' : Prop} [Decidable (c ∧ false = true ∧ c')] {x : M κ Unit} :
      Kept (Sizes P) (when (c ∧ false = true ∧ c') x) :=
    ⟨fun _ h => .when ⟨fun hc => absurd hc.2.1 nofun, fun _ => h⟩⟩
  unfold pagerEndTransaction releaseAllSavepoints
  exact Kept.keeps

/-! ## The rollback journal -/

theorem pagerPlaybackOnePage_sizes (synced : Bool)
    (hreserve : img.pgno = 1 → ∀ r p d l, P r p d l → P img.reserve p d l)
    (hfile : ∀ r p d l, P r p d l → P r p d (max l (img.pgno * p))) :
    Keeps (Sizes P) (pagerPlaybackOnePage C cfg w true synced img) := by
  have {data : Bytes} : Kept (Sizes P) (writeDatabase w ⟨img.pgno, data⟩ : M κ Unit) :=
    ⟨.bind Kept.keeps fun _ => .modify fun _ h => hfile _ _ _ _ h⟩
  have : Kept (Sizes P) (playbackReserve img : M κ Unit) :=
    ⟨fun pg h => .when ⟨fun h1 => hreserve h1 _ _ _ _ h, fun _ => h⟩⟩
  have {c : Prop} [Decidable (true = false ∧ c)] {x : M κ Unit} :
      Kept (Sizes P) (when (true = false ∧ c) x) :=
    ⟨fun _ h => .when ⟨fun hc => absurd hc.1 nofun, fun _ => h⟩⟩
  unfold pagerPlaybackOnePage playbackRecord playbackStore playbackWrite playbackBackup
  exact .bind (.bind Kept.keeps fun _ => .bind .get fun _ =>
    .ite (.bind Kept.keeps fun _ => Kept.keeps) Kept.keeps) fun _ => Kept.keeps

theorem playbackRecords_sizes {records : List Image} (once : Bool) (i : Nat) (done : List Nat)
    (hsize : ∀ r p d l, P r p d l → d = n)
    (hreserve : ∀ img ∈ (played once n done records).2, img.pgno = 1 →
      ∀ r p d l, P r p d l → P img.reserve p d l)
    (hfile : ∀ k r p d l, k ≤ d → P r p d l → P r p d (max l (k * p))) :
    Keeps (Sizes P) (playbackRecords C cfg w true once i done records) := by
  induction records generalizing i done with
  | nil => exact .pure done
  | cons img records ih =>
    refine .get_bind fun pg h => ?_
    have hn : pg.dbSize = n := hsize _ _ _ _ h
    refine .ite ⟨fun hskip => ?_, fun hplay => ?_⟩
    · rw [hn] at hskip
      rw [played, if_pos hskip] at hreserve
      exact ih (i + 1) done hreserve pg h
    · -- the record is of a page of the database
      have hle : img.pgno ≤ pg.dbSize := by omega
      rw [hn] at hplay
      rw [played, if_neg hplay] at hreserve
      have hone : Keeps (Sizes fun r p d l => P r p d l ∧ img.pgno ≤ d)
          (pagerPlaybackOnePage C cfg w true (i < pg.journalHdr) img) :=
        pagerPlaybackOnePage_sizes _
          (fun h1 r p d l hP => ⟨hreserve img mem_cons_self h1 r p d l hP.1, hP.2⟩)
          fun r p d l hP => ⟨hfile _ r p d l hP.2 hP.1, hP.2⟩
      exact .bind (.mono (hone pg ⟨h, hle⟩) (fun _ s hs => ih (i + 1) _
        (fun j hj => hreserve j (mem_cons_of_mem img hj)) s hs.1) fun _ _ hs => hs.1)

theorem pagerTruncate_sizes (hP : ∀ r p d l l', P r p d l → P r p d l') (nPage : Nat) :
    Keeps (Sizes P) (pagerTruncate w nPage : M κ Unit) :=
  .bind .get fun _ => .when <| .bind Kept.keeps fun _ => .when <|
    .bind (.when (.bind Kept.keeps fun _ => .modify fun _ h => hP _ _ _ _ _ h)) fun _ =>
    .bind (.when (.bind Kept.keeps fun _ => .modify fun _ h => hP _ _ _ _ _ h)) fun _ => Kept.keeps

theorem pagerSetPagesize_same {I : State κ → Prop} (h : I pg) (hp : pg.pageSize = p) :
    wlp (pagerSetPagesize w p : M κ Unit) (fun _ => I) (fun _ => I) pg :=
  .read (.when ⟨fun hne => absurd hp.symm hne.2, fun _ => h⟩)

theorem pagerError_wlp {x : M κ Unit} {Q : Unit → State κ → Prop} (hx : gives x Q pg) :
    gives (pagerError x) Q pg := by
  refine .bind (.attempt (.mono hx (fun _ _ hs => hs) fun rc s _ => ?_))
  exact .bind (.when ⟨fun _ => trivial, fun _ => trivial⟩)

variable {g : Geometry} {s pg' : State κ}

/-- The journal starts with the size `g` of the database, and was written with its page size. -/
@[reducible] def State.Restores (g : Geometry) (pg : State κ) : Prop :=
  pg.nReserve = g.nReserve ∧ pg.pageSize = g.pageSize ∧ pg.header.dbSize = g.dbSize ∧
    pg.header.pageSize = g.pageSize ∧ Shows g.nReserve (played false g.dbSize [] pg.journal).2

theorem playbackJournal_geometry (h : pg.Restores g) :
    gives (playbackJournal C cfg w false) (fun _ s => s.geometry = g) pg := by
  obtain ⟨hr, hp, hsize, hpage, hshown⟩ := h
  let P (r p _ _ : Nat) : Prop := r = g.nReserve ∧ p = g.pageSize
  let Q (r p d _ : Nat) : Prop := r = g.nReserve ∧ p = g.pageSize ∧ d = g.dbSize
  refine .read (.bind ?_)
  refine .imp (pagerSetPagesize_same (I := Sizes P) ⟨hr, hp⟩ (hp.trans hpage.symm)) fun _ s hs => ?_
  refine .next (pagerTruncate_sizes (fun _ _ _ _ _ h => h) _ s hs) fun _ s hs => ?_
  refine .write (.bind (.when ⟨fun hhot => ?_, fun _ => ?_⟩))
  · exact absurd hhot.1 nofun
  · have hrec : Keeps (Sizes Q)
        (playbackRecords C cfg w true false 0 [] (pg.foundRecords false)) := by
      exact playbackRecords_sizes false 0 [] (fun _ _ _ _ hQ => hQ.2.2)
        (fun img himg h1 r p d l hQ => ⟨hshown img himg h1, hQ.2⟩) fun _ _ _ _ _ _ hQ => hQ
    refine .next (hrec _ ⟨hs.1, hs.2, hsize⟩) fun _ s hs => ?_
    obtain ⟨hr, hp, hd⟩ := hs
    simp only [wp_pure, geometry, hr, hp, hd]

/-- The sizes are kept by all that follows the playback, and a failure is handed on. -/
theorem pagerPlayback_sizes {isHot : Bool}
    (h : gives (do
      request w
      when (isHot = false ∨ pg.header.magic = true) (playbackJournal C cfg w isHot)
      pagerSetPagesize w pg.pageSize) (fun _ => Sizes P) pg) :
    gives (pagerPlayback C cfg w isHot) (fun _ => Sizes P) pg := by
  refine .read (.bind (.attempt (.mono h (fun _ s hs => ?_) fun _ _ _ => .write (.bind trivial))))
  refine .write (.bind (.pure (.bind ?_)))
  exact .imp (Kept.wlp hs) fun _ s hs => .imp (pagerEndTransaction_sizes s hs) fun _ _ => id

theorem geometry_of_end (h : pg.geometry = g) :
    wlp (pagerEndTransaction w false : M κ Unit) (fun _ s => s.geometry = g)
      (fun _ s => s.geometry = g) pg :=
  pagerEndTransaction_sizes (P := fun r p d _ => (⟨r, p, d⟩ : Geometry) = g) pg h

theorem pagerPlayback_geometry (h : pg.Restores g) :
    gives (pagerPlayback C cfg w false) (fun _ s => s.geometry = g) pg := by
  refine pagerPlayback_sizes (P := fun r p d _ => (⟨r, p, d⟩ : Geometry) = g) ?_
  refine .next (Kept.wlp (I := Restores g) h) fun _ s hs => ?_
  refine .bind (.when ⟨fun _ => ?_, fun hno => absurd (.inl rfl) hno⟩)
  refine .imp (playbackJournal_geometry hs) fun _ s hs => ?_
  have hsame : s.pageSize = pg.pageSize := (congrArg Geometry.pageSize hs).trans h.2.1.symm
  exact .imp (pagerSetPagesize_same (I := fun s => s.geometry = g) hs hsame) fun _ _ => id

/-- `sqlite3PagerRollback` restores the sizes that the database had at the start. -/
theorem pagerRollback_geometry (h : pg.Inside (.tx g [])) (hshown : pg.Shown .transaction)
    (hmode : pg.useWal = false → pg.journalMode ≠ .off) :
    gives (pagerRollback C cfg w) (fun _ s => s.geometry = g) pg := by
  have horig : pg.dbOrigSize = g.dbSize := h.orig
  refine .read (.ite ⟨fun _ => trivial, fun herr => ?_⟩)
  refine .ite ⟨fun hrank => ?_, fun _ => ?_⟩
  · have hwriter := h.writer
    exact absurd (hwriter.trans hrank) (by decide)
  refine .ite ⟨fun hwal => pagerError_wlp ?_, fun hwal => ?_⟩
  · have hnone : pg.Shown (.savepoint none) := by
      simp [Shown, replayed, replayedAll, hwal, Shows]
    refine .bind (.attempt (.mono (pagerRollbackSavepoint_wlp h hnone
      (Nat.zero_le _)) (fun _ s hs => ?_) fun rc s _ => ?_))
    · have hgeom : s.geometry = g := by
        have hd : s.dbSize = pg.dbOrigSize := hs.2 hmode _ rfl
        simp only [geometry, hs.1.reserve, hs.1.page, hd, horig]
        rfl
      refine .bind (.attempt (.mono (geometry_of_end hgeom) (fun _ s hs => ?_) fun rc s _ => ?_))
      · exact hs
      · exact .bind trivial
    · exact .bind (.attempt (.mono wlp_trivial (fun _ _ _ => .bind trivial)
        fun _ _ _ => .bind trivial))
  · rw [Bool.not_eq_true] at hwal
    refine .ite ⟨fun hclosed => ?_, fun hopen => pagerError_wlp ?_⟩
    · -- without a journal nothing has changed
      have he : pg.eState = .writerLocked := by
        by_contra he
        exact hclosed.elim (h.journal hwal (hmode hwal) he herr).1 he
      have hgeom : pg.geometry = g := by
        simp only [geometry, h.reserve, h.page, (h.fresh he).1]
        rfl
      refine .bind (.attempt (.mono (geometry_of_end hgeom) (fun _ s hs => ?_) fun rc s _ => ?_))
      all_goals refine .ite ⟨fun hrank => absurd (he ▸ hrank) (by decide), fun _ => ?_⟩
      · exact pagerError_wlp hs
      · exact pagerError_wlp trivial
    · rw [not_or] at hopen
      obtain ⟨-, hsize, hpage⟩ := h.journal hwal (hmode hwal) hopen.2 herr
      have hreserve : pg.nReserve = g.nReserve := h.reserve
      have hsize : pg.header.dbSize = g.dbSize := hsize
      rw [Shown, replayed, if_neg (by simp [hwal, hopen]), hreserve, hsize] at hshown
      exact pagerPlayback_geometry ⟨h.reserve, h.page, hsize, hpage, hshown⟩

/-! ## Hot journals -/

theorem pagerSetPagesize_wlp (hp : p ≠ 0) {I : State κ → Prop}
    (hI : ∀ (s : State κ) clock cache database dbSize pageSize, I s → I { s with
      clock := clock
      cache := cache
      database := database
      dbSize := dbSize
      pageSize := pageSize }) (h : I pg) :
    gives (pagerSetPagesize w p : M κ Unit) (fun _ s => I s ∧ s.pageSize = p) pg := by
  refine .read (.when ⟨fun _ => ?_, fun hsame => ⟨h, ?_⟩⟩)
  · refine .bind (.bind (?_ : wlp _ _ _ { pg with clock := pg.clock + 1 }))
    refine .ite ⟨fun _ => ?_, fun _ => trivial⟩
    exact ⟨hI pg _ _ _ _ _ h, rfl⟩
  · by_contra hne
    exact hsame ⟨hp, Ne.symm hne⟩

/-- A journal is left behind. If it has another page size than the pager, the file consists of its
pages. -/
structure State.Crashed (pg : State κ) : Prop where
  state : pg.eState = .open
  wal : pg.useWal = false
  closed : pg.jfd = .closed
  left : pg.journal ≠ []
  magic : pg.header.magic = true
  page : pg.header.pageSize ≠ 0 ∧ pg.pageSize ≠ 0
  whole : pg.header.pageSize = pg.pageSize ∨ pg.header.pageSize ∣ pg.fileLength

/-- The length of a file of `nPage` pages, the last of which may be incomplete, but not in a file
that had `whole` pages. -/
def PageLength (nPage pageSize : Nat) (whole : Prop) (length : Nat) : Prop :=
  length ≤ nPage * pageSize ∧ nPage * pageSize < length + pageSize ∧
    (whole → length = nPage * pageSize)

namespace PageLength

variable {p l : Nat} {whole : Prop} (h : PageLength n p whole l)
include h

theorem max (hk : k ≤ n) : PageLength n p whole (max l (k * p)) := by
  have hle : k * p ≤ n * p := Nat.mul_le_mul_right _ hk
  obtain ⟨hl, hr, hw⟩ := h
  refine ⟨by omega, by omega, fun hwhole => ?_⟩
  have := hw hwhole
  omega

theorem pagecount (hpos : 0 < p) : (l + p - 1) / p = n := by
  obtain ⟨hl, hr, -⟩ := h
  refine Nat.div_eq_of_lt_le (by omega) ?_
  rw [Nat.succ_mul]
  omega

end PageLength

@[reducible] def SameJournal (pg s : State κ) : Prop :=
  s.nReserve = pg.nReserve ∧ s.eState = .open ∧ s.header = pg.header ∧ s.journal = pg.journal

theorem pagerTruncate_hot (h : SameJournal pg s) (hpos : s.pageSize ≠ 0) (nPage : Nat) :
    gives (pagerTruncate w nPage : M κ Unit)
      (fun _ t => SameJournal pg t ∧ t.pageSize = s.pageSize ∧
      PageLength nPage s.pageSize (s.pageSize ∣ s.fileLength) t.fileLength) s := by
  have hfull : PageLength nPage s.pageSize (s.pageSize ∣ s.fileLength) (nPage * s.pageSize) :=
    ⟨le_rfl, by omega, fun _ => rfl⟩
  refine .read (.when ⟨fun _ => .bind ?_, fun hno =>
    absurd (.inr h.2.1) hno⟩)
  refine .bind (?_ : wlp _ _ _ { s with clock := s.clock + 1 })
  refine .ite ⟨fun _ => .pure (.when ⟨fun hne => ?_, fun heq => ?_⟩), fun _ => trivial⟩
  · refine .bind (.when ⟨fun hlong => ?_,
      fun hshort => .bind (.when ⟨fun hextend => ?_, fun hpart => ?_⟩)⟩)
    · refine .bind (.bind (?_ : wlp _ _ _ { s with clock := s.clock + 1 + 1 }))
      refine .ite ⟨fun _ => .pure (.bind ?_), fun _ => trivial⟩
      refine .when ⟨fun hlong' => absurd hlong' (by omega), fun _ => ?_⟩
      exact ⟨h, rfl, hfull⟩
    · refine .bind (.write (.bind (?_ : wlp _ _ _ _)))
      refine .ite ⟨fun _ => .pure ?_, fun _ => trivial⟩
      exact ⟨h, rfl, hfull⟩
    · -- the last page is there in part, so the file had no whole pages
      refine ⟨h, rfl, Nat.not_lt.mp hshort, Nat.not_le.mp hpart, ?_⟩
      rintro ⟨k, hk⟩
      have hk : s.fileLength = k * s.pageSize := hk.trans (Nat.mul_comm _ _)
      rw [hk] at hshort hpart hne ⊢
      rw [← Nat.succ_mul] at hpart
      have hle : k ≤ nPage := Nat.le_of_mul_le_mul_right (Nat.not_lt.mp hshort) (by omega)
      have hlt : nPage < k + 1 := Nat.lt_of_mul_lt_mul_right (Nat.not_le.mp hpart)
      rw [show k = nPage by omega]
  · rw [not_not] at heq
    exact ⟨h, rfl, heq ▸ hfull⟩

/-- The sizes after a hot journal has been played back, with page size `p` again. -/
@[reducible] def HotSizes (pg : State κ) (p : Nat) (s : State κ) : Prop :=
  s.nReserve = pg.nReserve ∧ s.pageSize = p ∧
    PageLength pg.header.dbSize pg.header.pageSize (pg.header.pageSize ∣ pg.fileLength) s.fileLength

section Hot

variable (hc : pg.Crashed) (hshown : pg.Shown .hot)
include hc hshown

theorem playbackJournal_hot (h : SameJournal pg s) (hlength : s.fileLength = pg.fileLength) :
    gives (playbackJournal C cfg w true) (fun _ => HotSizes pg pg.header.pageSize) s := by
  obtain ⟨-, -, hhdr, hjournal⟩ := id h
  refine .read (.bind ?_)
  rw [hhdr]
  refine .imp (pagerSetPagesize_wlp hc.page.1 (I := fun t => SameJournal pg t ∧
    t.fileLength = pg.fileLength) (fun _ _ _ _ _ _ h => h) ⟨h, hlength⟩) fun _ t ht => ?_
  obtain ⟨⟨ht, hlength⟩, hpage⟩ := ht
  have htrunc := pagerTruncate_hot (w := w) ht (hpage ▸ hc.page.1) pg.header.dbSize
  rw [hpage, hlength] at htrunc
  refine .next htrunc fun _ t ht => ?_
  let P (r p d l : Nat) : Prop := r = pg.nReserve ∧ p = pg.header.pageSize ∧
    d = pg.header.dbSize ∧
    PageLength pg.header.dbSize pg.header.pageSize (pg.header.pageSize ∣ pg.fileLength) l
  have hrec : Keeps (Sizes P) (playbackRecords C cfg w true false 0 [] (s.foundRecords true)) := by
    have hfound : s.foundRecords true = pg.foundRecords true := by
      simp only [foundRecords, hhdr, hjournal]
    rw [hfound]
    refine playbackRecords_sizes false 0 [] (fun _ _ _ _ hP => hP.2.2.1)
      (fun img himg h1 r p d l hP => ⟨hshown img himg h1, hP.2⟩) ?_
    rintro k r p d l hle ⟨hr, rfl, rfl, hl⟩
    exact ⟨hr, rfl, rfl, hl.max hle⟩
  refine .write (.bind ?_)
  have hreset : Keeps (Sizes P) (when (true = true ∧ s.foundRecords true ≠ []) pagerReset :
      M κ Unit) := .when (.modify fun _ h => h)
  refine .imp (hreset _ ⟨ht.1.1, ht.2.1, rfl, ht.2.2⟩) fun _ t ht => ?_
  exact .next (hrec t ht) (fun _ t ht => ⟨ht.1, ht.2.1, ht.2.2.2⟩)

omit hc hshown in
/-- The journal has been found, and nothing has been done with it. -/
@[reducible] def Found (pg s : State κ) : Prop :=
  SameJournal pg s ∧ s.pageSize = pg.pageSize ∧ s.fileLength = pg.fileLength

theorem pagerPlayback_hot (h : Found pg s) :
    gives (pagerPlayback C cfg w true) (fun _ => HotSizes pg pg.pageSize) s := by
  refine pagerPlayback_sizes (P := fun r p _ l => r = pg.nReserve ∧ p = pg.pageSize ∧
    PageLength pg.header.dbSize pg.header.pageSize (pg.header.pageSize ∣ pg.fileLength) l) ?_
  refine .next (Kept.wlp (I := Found pg) h) fun _ t ht => ?_
  have hmagic : s.header.magic = true := h.1.2.2.1 ▸ hc.magic
  refine .bind (.when ⟨fun _ => ?_, fun hno => absurd (.inr hmagic) hno⟩)
  refine .imp (playbackJournal_hot hc hshown ht.1 ht.2.2) fun _ t ht => ?_
  rw [h.2.1]
  exact .imp (pagerSetPagesize_wlp hc.page.2 (I := fun t => t.nReserve = pg.nReserve ∧
    PageLength pg.header.dbSize pg.header.pageSize
      (pg.header.pageSize ∣ pg.fileLength) t.fileLength)
    (fun _ _ _ _ _ _ h => h) ⟨ht.1, ht.2.2⟩) fun _ t ht => ⟨ht.1.1, ht.2, ht.1.2⟩

@[reducible] def HotPhase (pg s : State κ) : Prop :=
  s.eState = .open ∧ (s.journal = pg.journal ∧ s.jfd = .closed ∨ HotSizes pg pg.pageSize s)

theorem recoverHotJournal_hot (h : Found pg s ∧ s.jfd = .closed) :
    gives (recoverHotJournal C cfg w) (fun _ => HotPhase pg) s := by
  refine .next (Kept.wlp (I := fun t => Found pg t ∧ t.jfd = .closed) h) fun _ t ht => ?_
  refine .bind (?_ : wlp _ _ _ { t with clock := t.clock + 1 })
  refine .bind (.ite ⟨fun _ => .pure ?_, fun _ => trivial⟩)
  refine .write (.read (.ite ⟨fun _ => ?_, fun hno => .when ⟨fun _ => ?_, fun _ => ?_⟩⟩))
  · refine .next (Kept.wlp (I := Found pg) ht.1) fun _ t ht => ?_
    refine .write (.bind ?_)
    exact .imp (pagerPlayback_hot hc hshown ht) fun _ t ht => ⟨rfl, .inr ht⟩
  · refine .write (.bind ?_)
    exact .ite ⟨fun _ => ⟨ht.1.1.2.1, .inl ⟨ht.1.1.2.2.2, not_not.mp hno⟩⟩, fun _ => trivial⟩
  · exact ⟨ht.1.1.2.1, .inl ⟨ht.1.1.2.2.2, not_not.mp hno⟩⟩

def State.recovered (pg : State κ) : Geometry where
  nReserve := pg.nReserve
  pageSize := pg.pageSize
  dbSize := (pg.header.dbSize * pg.header.pageSize + pg.pageSize - 1) / pg.pageSize

omit hshown in
/-- The size of the database is counted in the pages of the pager. -/
theorem State.Crashed.pagecount (hl : PageLength pg.header.dbSize pg.header.pageSize
    (pg.header.pageSize ∣ pg.fileLength) l) :
    (l + pg.pageSize - 1) / pg.pageSize = pg.recovered.dbSize := by
  have hpos := Nat.pos_of_ne_zero hc.page.1
  rcases hc.whole with hsame | hwhole
  · have hfull : PageLength pg.header.dbSize pg.header.pageSize True
        (pg.header.dbSize * pg.header.pageSize) := ⟨le_rfl, by omega, fun _ => rfl⟩
    rw [recovered, ← hsame]
    exact (hl.pagecount hpos).trans (hfull.pagecount hpos).symm
  · rw [hl.2.2 hwhole]
    rfl

omit hc hshown in
theorem HotPhase.closeJournal (h : HotPhase pg s) : HotPhase pg s.closeJournal := by
  obtain ⟨he, hphase⟩ := h
  unfold State.closeJournal
  split
  · refine ⟨he, hphase.imp (fun hno => ?_) id⟩
    simp_all
  · exact ⟨he, hphase.imp (fun hno => ⟨hno.1, rfl⟩) id⟩

theorem pagerSharedLock_hot :
    gives (pagerSharedLock C cfg w) (fun _ s => s.journal = pg.journal ∨
      (s.useWal = false → s.geometry = pg.recovered)) pg := by
  refine .bind (.attempt (.mono (?_ : gives (sharedLock C cfg w) _ _) (fun _ _ => id) fun _ _ _ =>
    .next wlp_trivial fun _ _ _ => trivial))
  unfold sharedLock
  let I (s : State κ) : Prop := Found pg s ∧ s.jfd = .closed
  have : Kept (HotPhase pg) (modify closeJournal : M κ Unit) := ⟨.modify fun _ h => h.closeJournal⟩
  have : Kept (HotPhase pg) (pagerOpenWal w) :=
    ⟨.bind Kept.keeps fun _ => .bind .get fun _ => .bind Kept.keeps
      fun _ => .bind Kept.keeps fun _ =>
      .modify fun _ h => ⟨rfl, h.2⟩⟩
  have hpre : I pg := ⟨⟨⟨rfl, hc.state, rfl, rfl⟩, rfl, rfl⟩, hc.closed⟩
  refine .read (.bind (.when ⟨fun _ => ?_, fun hno =>
    absurd ⟨hc.wal, hc.state⟩ hno⟩))
  refine .next (Kept.wlp hpre) fun _ s hs => ?_
  refine .next (Kept.wlp hs) (fun o s hs => ?_)
  refine .bind (.ite ⟨fun _ => .pure ?_, fun _ => trivial⟩)
  refine .read (.bind ?_)
  have hphase : gives (when (Lock.rank .shared < s.eLock.rank ∨ o.found)
      (pagerError (recoverHotJournal C cfg w))) (fun _ => HotPhase pg) s :=
    .when ⟨fun _ => pagerError_wlp (recoverHotJournal_hot hc hshown hs),
      fun _ => ⟨hs.1.1.2.1, .inl ⟨hs.1.1.2.2.2, hs.2⟩⟩⟩
  refine .imp hphase fun _ s hs => ?_
  refine .imp (Kept.wlp hs) fun _ s hs => ?_
  refine .read (.next (Kept.wlp hs) (fun _ s hs => ?_))
  refine .read (.when ⟨fun _ => .bind ?_, fun hno =>
    absurd hs.1 hno⟩)
  refine .imp (Kept.wlp hs) (fun _ s hs => .modify ?_)
  refine hs.2.imp (fun hsame => hsame.1) fun hsizes hwal => ?_
  obtain ⟨hr, hp, hl⟩ := hsizes
  have hwal : s.useWal = false := hwal
  have hcount : s.pagecount = pg.recovered.dbSize := by
    rw [State.pagecount, hp]
    exact hc.pagecount hl
  simp [geometry, hwal, hr, hp, hcount]
  rfl

end Hot

/-! ## Every rollback -/

structure State.Idle (pg : State κ) : Prop where
  state : pg.eState = .reader
  inJournal : pg.inJournal = none
  subJournal : pg.subJournal = []
  savepoints : pg.savepoints = []
  clean : ∀ n page, pg.cache n = some page → page.dirty = false ∧ page.writeable = false

theorem pagerBegin_wlp_tx (h : pg.Idle) (exFlag subjInMemory : Bool) :
    gives (pagerBegin w exFlag subjInMemory : M κ Unit)
      (fun _ => Inside (.tx pg.geometry [])) pg := by
  let I (s : State κ) : Prop := s.Idle ∧ s.geometry = pg.geometry
  have hrequest : Keeps I (request w) := .bind (fun _ h => ⟨{ h.1 with }, h.2⟩) fun o =>
    .ite (.pure ()) (.fail fun _ => id)
  have hlock (l : Lock) : Keeps I (pagerLockDb w l) :=
    .bind .get fun _ => .when (.bind hrequest fun _ => .modify fun _ h => ⟨{ h.1 with }, h.2⟩)
  refine .read (.bind (.ite ⟨fun _ => .pure ?_, fun _ => trivial⟩))
  refine .write (.when ⟨fun _ => ?_, fun hno => absurd h.state hno⟩)
  have hset (s : State κ) (hs : I s) : ({ s with
      eState := .writerLocked
      dbFileSize := s.dbSize
      dbOrigSize := s.dbSize } : State κ).Inside (.tx pg.geometry []) := by
    obtain ⟨hs, hg⟩ := hs
    refine ⟨congrArg Geometry.nReserve hg, congrArg Geometry.pageSize hg, trivial,
      congrArg Geometry.dbSize hg, le_rfl, nofun, nofun, nofun, fun _ => ?_,
      fun _ _ hne => absurd rfl hne, nil_prefix⟩
    refine ⟨congrArg Geometry.dbSize hg, fun n hn => ?_, hs.inJournal, hs.subJournal, hs.clean⟩
    have hn : n ∈ s.savepoints.map Savepoint.nOrig := hn
    rw [hs.savepoints] at hn
    cases hn
  have hpre : I { pg with subjInMemory := subjInMemory } := ⟨{ h with }, rfl⟩
  refine .ite ⟨fun _ => .bind ?_, fun _ => .bind ?_⟩
  · refine .imp (Maintains.when (hlock .exclusive) _ hpre) (fun _ s hs => .bind ?_)
    exact .imp (hrequest s hs) (fun _ s hs => .modify (hset s hs))
  · refine .imp (hlock .reserved _ hpre) (fun _ s hs => .bind ?_)
    exact .imp (Maintains.when (hlock .exclusive) s hs) (fun _ s hs => .modify (hset s hs))

def Within (ok : Rollback → State κ → Prop) (keep : Nat) (pg : State κ) (op : PagerOp κ) : Prop :=
  Allowed keep pg op ∧ ∀ r ∈ op.replay, ok r pg

instance (ok : Rollback → State κ → Prop) [∀ r, DecidablePred (ok r)] (keep : Nat) (pg : State κ)
    (op : PagerOp κ) :
    Decidable (Within ok keep pg op) :=
  inferInstanceAs (Decidable (_ ∧ _))

/-- The ways to roll back a transaction: its geometry at the start, and the pager at the end. `ok`
is asked of the pager before each playback. -/
inductive RolledBack (C : XCodec κ) (cfg : Config) (w : Nat → Answer)
    (ok : Rollback → State κ → Prop) : Geometry → State κ → Prop where
  | explicit {pg₀ pg₁ pg₂ pg : State κ} {exFlag subjInMemory : Bool} {ops : List (PagerOp κ)}
      (idle : pg₀.Idle)
      (begin : pagerBegin w exFlag subjInMemory pg₀ = some (.ok (), pg₁))
      (within : Run.Along (step C cfg w) (Within ok 0) pg₁ ops)
      (run : Run.exec (step C cfg w) pg₁ ops = some pg₂)
      (shown : ok .transaction pg₂)
      (rollback : pagerRollback C cfg w pg₂ = some (.ok (), pg)) :
      RolledBack C cfg w ok pg₀.geometry pg
  /-- `ROLLBACK TO` the savepoint with number `i`, which has not been released. -/
  | savepoint {pg₀ pg₁ pg₂ pg₃ pg₄ pg : State κ} {exFlag subjInMemory : Bool}
      {ops ops' : List (PagerOp κ)} {nSavepoint i : Nat}
      (idle : pg₀.Idle)
      (begin : pagerBegin w exFlag subjInMemory pg₀ = some (.ok (), pg₁))
      (within : Run.Along (step C cfg w) (Within ok 0) pg₁ ops)
      (run : Run.exec (step C cfg w) pg₁ ops = some pg₂)
      (new : pg₂.savepoints.length ≤ i ∧ i < nSavepoint)
      («open» : pagerOpenSavepoint nSavepoint pg₂ = some (.ok (), pg₃))
      (within' : Run.Along (step C cfg w) (Within ok (i + 1)) pg₃ ops')
      (run' : Run.exec (step C cfg w) pg₃ ops' = some pg₄)
      (shown : ok (.savepoint (some i)) pg₄)
      (rollback : pagerRollbackSavepoint C cfg w (some i) pg₄ = some (.ok (), pg)) :
      RolledBack C cfg w ok pg₂.geometry pg
  | hot {pg₀ pg : State κ}
      (crashed : pg₀.Crashed)
      (shown : ok .hot pg₀)
      (lock : pagerSharedLock C cfg w pg₀ = some (.ok (), pg))
      (done : pg.journal = [] ∧ pg.useWal = false) :
      RolledBack C cfg w ok pg₀.recovered pg

/-- Byte 20 of page 1 is the reserve wherever it is played back, and there is a journal. -/
def State.Restorable (r : Rollback) (pg : State κ) : Prop :=
  pg.Shown r ∧ (pg.useWal = false → pg.journalMode ≠ .off)

instance {r : Rollback} : DecidablePred (Restorable (κ := κ) r) := fun _ =>
  inferInstanceAs (Decidable ((∀ _ ∈ _, _) ∧ _))

theorem step_inside (h : pg.Inside (.tx g origs)) (hop : Within Restorable origs.length pg op)
    (hstep : step C cfg w pg op = some pg') : pg'.Inside (.tx g origs) := by
  obtain ⟨⟨r, s⟩, hrun, rfl⟩ := map_eq_some_iff.mp hstep
  exact of_wp (P := Inside (.tx g origs))
    (PagerOp.run_inside h hop.1 fun r hr => (hop.2 r hr).1) hrun

theorem exec_inside (h : pg.Inside (.tx g origs))
    (hops : Run.Along (step C cfg w) (Within Restorable origs.length) pg ops)
    (hrun : Run.exec (step C cfg w) pg ops = some pg') : pg'.Inside (.tx g origs) :=
  Run.exec_invariant (fun _ _ _ => step_inside) h hops hrun

theorem exec_begin_inside {exFlag subjInMemory : Bool} (idle : pg.Idle)
    (hbegin : pagerBegin w exFlag subjInMemory pg = some (.ok (), pg₁))
    (within : Run.Along (step C cfg w) (Within Restorable 0) pg₁ ops)
    (run : Run.exec (step C cfg w) pg₁ ops = some pg₂) : pg₂.Inside (.tx pg.geometry []) :=
  exec_inside (of_wp_ok (pagerBegin_wlp_tx idle exFlag subjInMemory) hbegin :) within run

def State.origsTo (pg : State κ) (i : Nat) : List Nat :=
  (pg.savepoints.map Savepoint.nOrig).take (i + 1)

theorem Insiding.atSavepoint (h : pg.Inside (.tx g [])) (i : Nat) :
    pg.Inside (.tx g (pg.origsTo i)) :=
  { h with changed := nofun, alive := nofun, saved := take_prefix _ _ }

theorem pagerOpenSavepoint_origsTo (hi : pg.savepoints.length ≤ i ∧ i < nSavepoint)
    (hopen : pagerOpenSavepoint nSavepoint pg = some (.ok (), pg')) :
    (pg'.origsTo i).length = i + 1 ∧ (pg'.origsTo i)[i]? = some pg.dbSize := by
  cases hopen
  unfold origsTo
  constructor
  · simp
    omega
  · rw [List.getElem?_take_of_lt (Nat.lt_succ_self i), map_append, map_replicate,
      List.getElem?_append_right (by simpa using hi.1), List.getElem?_replicate, length_map,
      if_pos (by omega)]

/-- The sizes at the savepoints that remain open do not change. -/
theorem Insiding.sizeAt (h : pg.Inside (.tx g origs)) (hi : i < origs.length) :
    pg.sizeAt (some i) = origs[i]? := by
  rw [State.sizeAt, ← List.getElem?_map]
  obtain ⟨rest, hrest⟩ := h.saved
  rw [← hrest]
  exact List.getElem?_append_left hi

/-- Rolling back restores reserve, page size and size of the database, provided that byte 20 of page
1 is stored in clear as the reserve, or looks like it, in all records played back. -/
theorem rollback_restores_geometry {pg' : State κ}
    (h : RolledBack C cfg w Restorable g pg') : pg'.geometry = g := by
  cases h with
  | explicit idle hbegin within run shown rollback =>
    have hin := exec_begin_inside idle hbegin within run
    exact (of_wp_ok (pagerRollback_geometry hin shown.1 shown.2) rollback :)
  | @savepoint pg₀ pg₁ pg₂ pg₃ pg₄ pg' exFlag subjInMemory ops ops' nSavepoint i
      idle hbegin within run new hopen within' run' shown rollback =>
    have h₂ := exec_begin_inside idle hbegin within run
    have h₃ := (of_wp (P := Inside _) (pagerOpenSavepoint_inside nSavepoint pg₂ h₂)
      hopen).atSavepoint i
    obtain ⟨hlen, hsize⟩ := pagerOpenSavepoint_origsTo new hopen
    have h₄ := exec_inside h₃ (hlen.symm ▸ within') run'
    have hkeep : (pg₃.origsTo i).length ≤ remaining (some i) := hlen.le
    obtain ⟨h', hdb⟩ := of_wp_ok (pagerRollbackSavepoint_wlp h₄ shown.1 hkeep) rollback
    have hdb := hdb shown.2 pg₂.dbSize ((h₄.sizeAt (hlen.symm ▸ Nat.lt_succ_self i)).trans hsize)
    simp only [geometry, h'.reserve, h'.page, h₂.reserve, h₂.page, hdb]
    rfl
  | hot crashed shown lock done =>
    refine (of_wp_ok (pagerSharedLock_hot crashed shown.1) lock).elim (fun hsame => ?_) fun hgeo =>
      hgeo done.2
    exact absurd (hsame.symm.trans done.1) crashed.left

/-- A reader of a file with three pages, of which byte 20 is stored as `byte`, and a reserve of 48.
-/
def State.toyReader (byte : UInt8) : State Unit :=
  { start () 512 48 (fun _ => zeros 20 ++ byte :: zeros 491) 1536 with
    eState := .reader
    eLock := .shared
    dbSize := 3 }

theorem State.toyReader_idle (byte : UInt8) : (toyReader byte).Idle :=
  ⟨rfl, rfl, rfl, rfl, nofun⟩

/-- Page 1 is changed and the transaction rolled back: do the calls succeed, does `ok` hold before
the rollback, and the reserve at the end. -/
def rollbackView (ok : Rollback → State Unit → Prop) [∀ r, DecidablePred (ok r)] (pg : State Unit) :
    Option (Bool × Nat) :=
  let ops := [.get 1 false, .write 1, .modify 1 (zeros 512)]
  (pagerBegin .toy false false pg).bind fun r =>
    (Run.exec (step .toy .toy .toy) r.2 ops).bind fun s =>
      (pagerRollback .toy .toy .toy s).map fun r' =>
        (r.1.isOk && r'.1.isOk &&
            decide (Run.Along (step .toy .toy .toy) (Within ok 0) r.2 ops ∧ ok .transaction s),
          r'.2.nReserve)

theorem RolledBack.of_view {ok : Rollback → State Unit → Prop} [∀ r, DecidablePred (ok r)]
    {pg : State Unit}
    (hidle : pg.Idle) {nReserve : Nat} (hview : rollbackView ok pg = some (true, nReserve)) :
    ∃ pg', RolledBack .toy .toy .toy ok pg.geometry pg' ∧ pg'.nReserve = nReserve := by
  obtain ⟨⟨r, pg₁⟩, hbegin, hview⟩ := bind_eq_some_iff.mp hview
  obtain ⟨pg₂, hrun, hview⟩ := bind_eq_some_iff.mp hview
  obtain ⟨⟨r', pg'⟩, hrollback, hview⟩ := map_eq_some_iff.mp hview
  simp only [Prod.mk.injEq, Bool.and_eq_true, decide_eq_true_eq] at hview
  obtain ⟨⟨⟨hr, hr'⟩, halong, hok⟩, hreserve⟩ := hview
  obtain _ | _ := r
  · cases hr
  obtain _ | _ := r'
  · cases hr'
  exact ⟨pg', .explicit hidle hbegin halong hrun hok hrollback, hreserve⟩

theorem rollback_restores_geometry_toy : ∃ pg, RolledBack .toy .toy .toy Restorable
    (toyReader 48).geometry pg ∧ pg.geometry = ⟨48, 512, 3⟩ := by
  have hview : rollbackView Restorable (.toyReader 48) = some (true, 48) := by decide +kernel
  obtain ⟨pg, h, -⟩ := RolledBack.of_view (toyReader_idle 48) hview
  exact ⟨pg, h, rollback_restores_geometry h⟩

/-- Byte 20 of page 1 is 48, and stored as 207. Rolling back a change of page 1 leaves a reserve of
207 bytes. -/
theorem not_rollback_restores_geometry : ∃ pg, RolledBack .toy .toy .toy (fun _ _ => True)
    (toyReader 207).geometry pg ∧ pg.geometry ≠ (toyReader 207).geometry := by
  have hview : rollbackView (fun _ _ => True) (.toyReader 207) =
    some (true, 207) := by decide +kernel
  obtain ⟨pg, h, hreserve⟩ := RolledBack.of_view (toyReader_idle 207) hview
  refine ⟨pg, h, fun heq => ?_⟩
  exact absurd (hreserve.symm.trans (congrArg Geometry.nReserve heq)) (by decide)

end SqlCipher.PageIo
