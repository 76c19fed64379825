import SqlCipher.PageIo.SealedTransaction
import SqlCipher.Library.Run

/-!
# What reaches a file

The calls that the rest of the library makes into the pager, in any order, and what other
connections do to the files. If `subjInMemory` changes only while no sub-journal is open, and the
codec has the page size of the pager, the images written to a file come from a codec
(`pager_no_plaintext`). In exclusive locking mode a sub-journal that has become a file stays open
when its transaction ends, and the next one may begin with another `temp_store`; and the pager reads
beyond the buffer of a codec with smaller pages (`not_pager_no_plaintext`).
-/

namespace SqlCipher.PageIo

open Proc Buffer

/-- What other connections leave behind: the file, a journal and the log. -/
structure Others where
  database : Nat → Bytes
  fileLength : Nat
  header : JournalHeader
  journal : List Image
  frames : List Image
  liveFrame : Nat
  nPage : Nat
  nBackfill : Nat

inductive PagerOp (κ : Type) where
  | sharedLock
  /-- `subjInMemory` is `sqlite3TempInMemory`, which depends on `temp_store`. -/
  | begin (exFlag subjInMemory : Bool)
  | get (pgno : Nat) (noContent : Bool)
  | write (pgno : Nat)
  | modify (pgno : Nat) (data : Bytes)
  | dontWrite (pgno : Nat)
  | movepage (pgno target : Nat) (isCommit : Bool)
  | truncateImage (nPage : Nat)
  /-- A page is written out, to make room or by `sqlite3PagerFlush`. -/
  | stress (pgno : Nat)
  | evict (pgno : Nat)
  | openSavepoint (nSavepoint : Nat)
  | releaseSavepoint (iSavepoint : Nat)
  | rollbackSavepoint (iSavepoint : Option Nat)
  | commitPhaseOne
  | commitPhaseTwo
  | rollback
  | unlock
  | lockingMode (exclusive : Bool)
  | journalMode (eMode : JournalMode)
  | openWal
  | closeWal
  | checkpoint (reset : Bool)
  | setCodec (codec : κ)
  | backup (active : Bool)
  | others (o : Others)

variable {κ : Type} (C : XCodec κ) (cfg : Config) (w : Nat → Answer)

def modifyPage (pgno : Nat) (data : Bytes) : M κ Unit := do
  let page ← lookup pgno
  if page.writeable then setPage pgno (some { page with data := data }) else Proc.undefined

def evictPage (pgno : Nat) : M κ Unit := do
  let page ← lookup pgno
  if page.dirty then Proc.undefined else setPage pgno none

def otherConnections (o : Others) : M κ Unit :=
  Proc.modify fun pg => { pg with
    database := o.database
    fileLength := o.fileLength
    header := o.header
    journal := o.journal
    frames := o.frames
    liveFrame := o.liveFrame
    nPage := o.nPage
    nBackfill := o.nBackfill
    encoded := pg.encoded ++ (o.journal ++ o.frames) }

def PagerOp.run : PagerOp κ → M κ Unit
  | .sharedLock => pagerSharedLock C cfg w
  | .begin exFlag subjInMemory => pagerBegin w exFlag subjInMemory
  | .get pgno noContent => pagerGet C cfg w pgno noContent
  | .write pgno => pagerWrite C cfg w pgno
  | .modify pgno data => modifyPage pgno data
  | .dontWrite pgno => pagerDontWrite pgno
  | .movepage pgno target isCommit => pagerMovepage C cfg w pgno target isCommit
  | .truncateImage nPage => Proc.modify fun pg => { pg with dbSize := nPage }
  | .stress pgno => pagerStress C cfg w pgno
  | .evict pgno => evictPage pgno
  | .openSavepoint nSavepoint => pagerOpenSavepoint nSavepoint
  | .releaseSavepoint iSavepoint => pagerReleaseSavepoint iSavepoint
  | .rollbackSavepoint iSavepoint => pagerRollbackSavepoint C cfg w iSavepoint
  | .commitPhaseOne => pagerCommitPhaseOne C cfg w
  | .commitPhaseTwo => pagerCommitPhaseTwo w
  | .rollback => pagerRollback C cfg w
  | .unlock => pagerUnlockAndRollback C cfg w
  | .lockingMode exclusive => Proc.modify fun pg => { pg with exclusiveMode := exclusive }
  | .journalMode eMode => pagerSetJournalMode C cfg w eMode
  | .openWal => pagerOpenWal w
  | .closeWal => pagerCloseWal w
  | .checkpoint reset => pagerCheckpoint w reset
  | .setCodec codec => Proc.modify fun pg => { pg with codec := codec }
  | .backup active => Proc.modify fun pg => { pg with backup := active }
  | .others o => otherConnections o

def step (pg : State κ) (op : PagerOp κ) : Option (State κ) := (op.run C cfg w pg).map Prod.snd

variable (codec : κ) (pageSize : Nat) (nReserve : Nat) (database : Nat → Bytes) (fileLength : Nat)

/-- A pager after `sqlite3PagerOpen`, with the page size and the reserve that the codec asks for. -/
def State.start : State κ where
  codec := codec
  journalMode := .delete
  exclusiveMode := false
  subjInMemory := false
  eState := .open
  eLock := .none
  errCode := .ok
  pageSize := pageSize
  nReserve := nReserve
  backup := false
  hasHeldSharedLock := false
  dbSize := 0
  dbOrigSize := 0
  dbFileSize := 0
  dbFileVers := zeros 16
  changeCountDone := false
  spillRollback := false
  spillNosync := false
  cache _ := none
  database := database
  fileLength := fileLength
  jfd := .closed
  header := ⟨false, some 0, 0, pageSize⟩
  journal := []
  journalHdr := 0
  inJournal := none
  sjfd := .closed
  subJournal := []
  savepoints := []
  useWal := false
  frames := []
  mxFrame := 0
  liveFrame := 0
  nPage := 0
  minFrame := 1
  nBackfill := 0
  writes := []
  encoded := []
  clock := 0

def PagerOp.subjInMemory : PagerOp κ → Option Bool
  | .begin _ subjInMemory => some subjInMemory
  | _ => none

/-- A transaction with another `subjInMemory` than the last begins only while no sub-journal is
open. -/
def Legal (pg : State κ) (op : PagerOp κ) : Prop :=
  ∀ subjInMemory ∈ op.subjInMemory, subjInMemory ≠ pg.subjInMemory → pg.sjfd = .closed

instance (pg : State κ) (op : PagerOp κ) : Decidable (Legal pg op) :=
  inferInstanceAs (Decidable (∀ _ ∈ op.subjInMemory, _))

/-- Besides, the codec has the page size of the pager. -/
def Safe (C : XCodec κ) (pg : State κ) (op : PagerOp κ) : Prop :=
  Legal pg op ∧ Fits C pg.pageSize pg.codec

variable {C cfg w} {b : Bool}

theorem otherConnections_keeps (o : Others) :
    Keeps (State.Sealed C size b []) (otherConnections o : M κ Unit) := by
  refine .modify fun pg h => ?_
  have hnew := h.others (o.journal ++ o.frames)
  have hknown := hnew.known
  rw [List.append_nil] at hknown
  exact ((hnew.setJournal fun img himg => hknown img (List.mem_append_left _ himg)).setFrames
    fun img himg => hknown img (List.mem_append_right _ himg)).forget (List.nil_subset _)

/-- Playback may change the page size, and the codec may be replaced. -/
theorem PagerOp.run_keeps {pg : State κ} {op : PagerOp κ} (hop : ∀ e s, op ≠ .begin e s)
    (h : pg.Sealed C (some n) b []) :
    wlp (op.run C cfg w) (fun _ => State.Sealed C none b []) (fun _ => State.Sealed C none b [])
      pg := by
  have hany {x : M κ Unit} (hx : Keeps (State.Sealed C (some n) b []) x) : wlp x
      (fun _ => State.Sealed C none b []) (fun _ => State.Sealed C none b []) pg :=
    .mono (hx pg h) (fun _ _ hs => hs.any) fun _ _ hs => hs.any
  cases op with
  | begin exFlag subjInMemory => exact absurd rfl (hop exFlag subjInMemory)
  | modify pgno data =>
    unfold PagerOp.run modifyPage
    exact hany Kept.keeps
  | evict pgno =>
    unfold PagerOp.run evictPage
    exact hany Kept.keeps
  | openSavepoint nSavepoint => exact hany (.modify fun _ h => h)
  | setCodec codec => exact .modify { h with fits := fun _ h => by cases h }
  | others o => exact hany (otherConnections_keeps o)
  | sharedLock | rollback | unlock | journalMode eMode =>
    unfold PagerOp.run
    exact Kept.wlp h.any
  | _ =>
    unfold PagerOp.run
    exact hany Kept.keeps

theorem PagerOp.run_wlp {pg : State κ} {op : PagerOp κ} (h : ∃ b, pg.Sealed C none b [])
    (hsafe : Safe C pg op) :
    wlp (op.run C cfg w) (fun _ s => ∃ b, s.Sealed C none b [])
      (fun _ s => ∃ b, s.Sealed C none b []) pg := by
  obtain ⟨b, h⟩ := h
  by_cases hop : ∃ e s, op = .begin e s
  · obtain ⟨e, s, rfl⟩ := hop
    exact pagerBegin_wlp e s h (hsafe.1 s rfl)
  · push Not at hop
    have hfits : pg.Sealed C (some pg.pageSize) b [] :=
      { h with fits := fun n hn => by cases hn; exact ⟨rfl, hsafe.2⟩ }
    exact .mono (PagerOp.run_keeps hop hfits) (fun _ _ hs => ⟨b, hs⟩) fun _ _ hs => ⟨b, hs⟩

theorem step_sealed {pg pg' : State κ} {op : PagerOp κ} (h : ∃ b, pg.Sealed C none b [])
    (hsafe : Safe C pg op) (hstep : step C cfg w pg op = some pg') :
    ∃ b, pg'.Sealed C none b [] := by
  obtain ⟨⟨r, s⟩, hrun, rfl⟩ := Option.map_eq_some_iff.mp hstep
  exact of_wp (P := fun s => ∃ b, State.Sealed C none b [] s) (PagerOp.run_wlp h hsafe) hrun

theorem State.start_sealed :
    (State.start codec pageSize nReserve database fileLength).Sealed C none false [] where
  fits _ h := by cases h
  flag := rfl
  known := List.forall_mem_nil _
  writes _ _ h := by cases h
  journal := List.forall_mem_nil _
  frames := List.forall_mem_nil _
  closed _ := rfl
  onFile _ := rfl
  subJournal _ := List.forall_mem_nil _

/-- Every page image that is written to a file is the output of a codec for that page. -/
theorem pager_no_plaintext
    (ops : List (PagerOp κ)) (pg : State κ)
    (hsafe : Run.Along (step C cfg w) (Safe C)
      (.start codec pageSize nReserve database fileLength) ops)
    (hrun : Run.exec (step C cfg w) (.start codec pageSize nReserve database fileLength) ops =
      some pg) :
    ∀ file img, .image file img ∈ pg.writes → img ∈ pg.encoded := by
  have hstart : ∃ b, (State.start codec pageSize nReserve database fileLength).Sealed C none b [] :=
    ⟨false, State.start_sealed codec pageSize nReserve database fileLength⟩
  obtain ⟨b, h⟩ := Run.exec_invariant (fun _ _ _ => step_sealed) hstart hsafe hrun
  exact h.writes

/-- A codec with pages of `n` bytes. -/
def XCodec.complement (n : Nat) : XCodec Unit := fun _ _ data _ =>
  (some ((data.take n ++ zeros (n - data.length)).map fun x => 255 - x), ())

theorem XCodec.complement_fits (n : Nat) : Fits (complement n) n () := by
  rintro k - op pgno data - out ⟨⟩
  simp only [List.length_map, List.length_append, List.length_take, zeros, List.length_replicate]
  omega

def XCodec.toy : XCodec Unit := complement 512

def Config.toy : Config where
  nStmtSpill := 512
  pagesPerSector := 1
  sjPgno := 2097153
  mxPgno := 8
  noSync := false
  safeAppend := false
  undeletableWhenOpen := false

def Answer.toy (_ : Nat) : Answer := ⟨.ok, false, 0, none, fun _ => 0⟩

def State.toy : State Unit := .start () 512 0 (fun _ => zeros 512) 1536

/-- In exclusive mode, a transaction in which a page is changed under two savepoints. -/
def spillRun : List (PagerOp Unit) :=
  [.lockingMode true, .sharedLock, .begin false false, .get 2 false, .write 2, .openSavepoint 1,
    .write 2, .commitPhaseOne, .commitPhaseTwo]

def nextRun (subjInMemory : Bool) : List (PagerOp Unit) :=
  [.begin false subjInMemory, .write 2, .openSavepoint 1, .write 2]

def plain : Image := ⟨2, List.replicate 512 255⟩

theorem pager_no_plaintext_small :
    ∃ pg, Run.exec (step .toy .toy .toy) .toy (spillRun ++ nextRun false) = some pg ∧
      (∃ img, .image .subJournal img ∈ pg.writes) ∧
      ∀ file img, .image file img ∈ pg.writes → img ∈ pg.encoded := by
  have hlegal : Run.Along (step .toy .toy .toy) (fun pg op => Legal pg op ∧ pg.pageSize = 512) .toy
      (spillRun ++ nextRun false) := by decide +kernel
  have hsafe : Run.Along (step .toy .toy .toy) (Safe .toy) .toy (spillRun ++ nextRun false) :=
    hlegal.mono fun pg op h => ⟨h.1, h.2 ▸ XCodec.complement_fits 512⟩
  have hview : (Run.exec (step .toy .toy .toy) .toy (spillRun ++ nextRun false)).map (fun pg =>
      decide (Write.image .subJournal ⟨2, zeros 512⟩ ∈ pg.writes)) = some true := by decide +kernel
  obtain ⟨pg, hrun, hwritten⟩ := Option.map_eq_some_iff.mp hview
  exact ⟨pg, hrun, ⟨_, of_decide_eq_true hwritten⟩,
    pager_no_plaintext () 512 0 _ 1536 _ pg hsafe hrun⟩

/-- Page 2 is changed, with pages of 512 bytes, and written. -/
def writeRun : List (PagerOp Unit) :=
  [.sharedLock, .begin false false, .get 2 false, .write 2, .commitPhaseOne]

/-- The sub-journal file of the first transaction is still open when the next begins with
`subjInMemory` on: its records are no longer encoded, and still go to the file. From a codec with
pages of 256 bytes, the pager writes these and 256 bytes of other memory. -/
theorem not_pager_no_plaintext :
    (∃ pg, Run.exec (step .toy .toy .toy) .toy (spillRun ++ nextRun true) = some pg ∧
      .image .subJournal plain ∈ pg.writes ∧ plain ∉ pg.encoded) ∧
    ∃ pg, Run.exec (step (.complement 256) .toy .toy) .toy writeRun = some pg ∧
      .image .database ⟨2, zeros 512⟩ ∈ pg.writes ∧ ⟨2, zeros 512⟩ ∉ pg.encoded ∧
      ⟨2, zeros 256⟩ ∈ pg.encoded := by
  have hview : (Run.exec (step .toy .toy .toy) .toy (spillRun ++ nextRun true)).map (fun pg =>
      decide (Write.image .subJournal plain ∈ pg.writes ∧ plain ∉ pg.encoded)) = some true := by
    decide +kernel
  have hshort : (Run.exec (step (.complement 256) .toy .toy) .toy writeRun).map (fun pg =>
      decide (Write.image .database ⟨2, zeros 512⟩ ∈ pg.writes ∧ ⟨2, zeros 512⟩ ∉ pg.encoded ∧
        ⟨2, zeros 256⟩ ∈ pg.encoded)) = some true := by decide +kernel
  obtain ⟨pg, hrun, hplain⟩ := Option.map_eq_some_iff.mp hview
  obtain ⟨pg', hrun', hmixed⟩ := Option.map_eq_some_iff.mp hshort
  exact ⟨⟨pg, hrun, of_decide_eq_true hplain⟩, pg', hrun', of_decide_eq_true hmixed⟩

end SqlCipher.PageIo
