import Mathlib.Logic.Relation
import SqlCipher.PageIo.Pager

/-!
# Images on their way to a file

`State.Sealed`: the images that were written to a file, and those in the rollback journal and in the
log, come from a codec. So do those of the sub-journal as long as `subjInMemory` is off, and a
sub-journal that is a file, or may become one, exists only then. Every function of the pager
preserves it but `sqlite3PagerBegin`, which changes `subjInMemory` without a look at the
sub-journal.

Its parameters are the page size, where it is known to be that of the codec, the value of
`subjInMemory`, and images from a codec in the variables of a function. What the pager reads from a
buffer of the codec is an image from the codec if the page sizes agree.
-/

namespace SqlCipher.PageIo

open Proc List State

set_option synthInstance.maxSize 10000

variable {κ : Type} {C : XCodec κ} {cfg : Config} {w : Nat → Answer}

def Handle.OnFile : Handle → Prop
  | .closed => False
  | .memory nSpill => nSpill.isSome
  | .file => True

/-- However often it is called from the state `k` on, the codec returns buffers of `n` bytes for
pages that are to be written. -/
def Fits (C : XCodec κ) (n : Nat) (k : κ) : Prop :=
  ∀ k', Relation.ReflTransGen (fun k k' => ∃ op pgno data, k' = (C op pgno data k).2) k k' →
    ∀ op pgno data, op ≠ .read → ∀ out ∈ (C op pgno data k').1, out.length = n

theorem Fits.call (h : Fits C n k) (op : CodecOp) (pgno : Nat) (data : Bytes) :
    Fits C n (C op pgno data k).2 := fun k' hk => h k' (.head ⟨op, pgno, data, rfl⟩ hk)

structure Sealing (C : XCodec κ) (size : Option Nat) (b : Bool) (imgs : List Image) (codec : κ)
    (pageSize : Nat) (subjInMemory : Bool) (writes : List Write)
    (journal frames subJournal : List Image) (sjfd : Handle) (encoded : List Image) : Prop where
  fits : ∀ n ∈ size, pageSize = n ∧ Fits C n codec
  flag : subjInMemory = b
  known : ∀ img ∈ imgs, img ∈ encoded
  writes : ∀ file img, .image file img ∈ writes → img ∈ encoded
  journal : ∀ img ∈ journal, img ∈ encoded
  frames : ∀ img ∈ frames, img ∈ encoded
  closed : sjfd = .closed → subJournal = []
  onFile : sjfd.OnFile → b = false
  subJournal : b = false → ∀ img ∈ subJournal, img ∈ encoded

abbrev State.Sealed (C : XCodec κ) (size : Option Nat) (b : Bool) (imgs : List Image)
    (pg : State κ) : Prop :=
  Sealing C size b imgs pg.codec pg.pageSize pg.subjInMemory pg.writes pg.journal pg.frames
    pg.subJournal pg.sjfd pg.encoded

variable {size : Option Nat} {pageSize : Nat} {b : Bool} {imgs : List Image}

namespace Sealing

variable {codec : κ} {subjInMemory : Bool} {writes : List Write}
  {journal frames subJournal encoded imgs' : List Image} {sjfd : Handle}
  (h : Sealing C size b imgs codec pageSize subjInMemory writes journal frames subJournal sjfd
    encoded)
  {α : Type} {pg : State κ} {img : Image}

include h

theorem learn (himgs : ∀ img ∈ imgs', img ∈ encoded) :
    Sealing C size b imgs' codec pageSize subjInMemory writes journal frames subJournal sjfd
      encoded :=
  { h with known := himgs }

/-- Forget what is known of the page size. -/
theorem any : Sealing C none b imgs codec pageSize subjInMemory writes journal frames
    subJournal sjfd
    encoded :=
  { h with fits := nofun }

/-- Forget images that are no longer held. -/
theorem forget (hsub : imgs' ⊆ imgs) :
    Sealing C size b imgs' codec pageSize subjInMemory writes journal frames subJournal sjfd
      encoded :=
  h.learn fun img himg => h.known img (hsub himg)

/-- Another connection's codec returns images. -/
theorem others (new : List Image) :
    Sealing C size b (new ++ imgs) codec pageSize subjInMemory writes journal frames subJournal sjfd
      (encoded ++ new) where
  fits := h.fits
  flag := h.flag
  known img himg := by
    rcases mem_append.mp himg with hnew | hold
    · exact mem_append_right encoded hnew
    · exact mem_append_left new (h.known img hold)
  writes file img himg := mem_append_left new (h.writes file img himg)
  journal img himg := mem_append_left new (h.journal img himg)
  frames img himg := mem_append_left new (h.frames img himg)
  closed := h.closed
  onFile := h.onFile
  subJournal hoff img himg := mem_append_left new (h.subJournal hoff img himg)

theorem encode (new : List Image) (op : CodecOp) (pgno : Nat) (data : Bytes) :
    Sealing C size b (new ++ imgs) (C op pgno data codec).2 pageSize subjInMemory writes journal
      frames subJournal sjfd (encoded ++ new) :=
  { h.others new with
    fits := fun n hn => ⟨(h.fits n hn).1, (h.fits n hn).2.call op pgno data⟩ }

theorem write (file : File) (new : List Image) (hnew : ∀ img ∈ new, img ∈ encoded) :
    Sealing C size b imgs codec pageSize subjInMemory (writes ++ new.map (.image file)) journal
      frames subJournal sjfd encoded :=
  { h with
    writes := fun f img himg => by
      rcases mem_append.mp himg with hold | himg
      · exact h.writes f img hold
      · obtain ⟨img', hmem, heq⟩ := mem_map.mp himg
        cases heq
        exact hnew img hmem }

theorem zeros (n : Nat) :
    Sealing C size b imgs codec pageSize subjInMemory (writes ++ [.zeros n]) journal frames
      subJournal sjfd encoded :=
  { h with writes := fun f img himg => h.writes f img (by simpa using himg) }

theorem setJournal (hnew : ∀ img ∈ journal', img ∈ encoded) :
    Sealing C size b imgs codec pageSize subjInMemory writes journal' frames subJournal sjfd
      encoded :=
  { h with journal := hnew }

theorem setFrames (hnew : ∀ img ∈ frames', img ∈ encoded) :
    Sealing C size b imgs codec pageSize subjInMemory writes journal frames' subJournal sjfd
      encoded :=
  { h with frames := hnew }

theorem setSub (hclosed : sjfd' = .closed → subJournal' = []) (hfile : sjfd'.OnFile → b = false)
    (hnew : b = false → ∀ img ∈ subJournal', img ∈ encoded) :
    Sealing C size b imgs codec pageSize subjInMemory writes journal frames subJournal' sjfd'
      encoded :=
  { h with closed := hclosed, onFile := hfile, subJournal := hnew }

end Sealing

/-- Some more images are known while a procedure runs. -/
theorem keeps_with {x : M κ α} (hx : Keeps (Sealed C size b imgs') x) (hsub : imgs ⊆ imgs')
    (h : pg.Sealed C size b imgs') : wlp x (fun _ => Sealed C size b imgs)
      (fun _ => Sealed C size b imgs) pg :=
  .mono (hx pg h) (fun _ _ hs => hs.forget hsub) fun _ _ hs => hs.forget hsub

/-- The images of the journal, the log and, with `subjInMemory` off, the sub-journal. -/
def State.images (b : Bool) (pg : State κ) : List Image :=
  pg.journal ++ pg.frames ++ if b then [] else pg.subJournal

/-- The images of a state that was read come from a codec. -/
theorem keeps_read {f : State κ → M κ α}
    (hf : ∀ pg : State κ, pg.Sealed C size b imgs →
      Keeps (Sealed C size b (pg.images b ++ imgs)) (f pg)) :
    Keeps (Sealed C size b imgs) (get >>= f) := by
  refine .get_bind fun pg h => keeps_with (hf pg h) (subset_append_right _ _) (h.learn ?_)
  intro img himg
  simp only [images, mem_append] at himg
  rcases himg with ((hj | hf) | hs) | hold
  · exact h.journal img hj
  · exact h.frames img hf
  · cases b with
    | true => cases hs
    | false => exact h.subJournal rfl img hs
  · exact h.known img hold

def outputs (op : CodecOp) (pgno : Nat) (r : Option Bytes) : List Image :=
  if op = .read then [] else r.toList.map (Image.mk pgno)

theorem xCodec_wlp (h : pg.Sealed C size b imgs) (op : CodecOp) (pgno : Nat) (data : Bytes) :
    wlp (xCodec C op pgno data) (fun r s => s.Sealed C size b (outputs op pgno r ++ imgs) ∧
        (op ≠ .read → ∀ n ∈ size, ∀ out ∈ r, out.length = n))
      (fun _ s => s.Sealed C size b imgs) pg :=
  ⟨h.encode _ op pgno data, fun hop n hn => (h.fits n hn).2 _ .refl op pgno data hop⟩

theorem pageOf_eq (junk : Nat → UInt8) (out : Bytes) : pageOf out.length junk out = out := by
  simp [pageOf, stream]

/-- What is read from the codec's buffer comes from a codec. -/
theorem codec2_wlp (h : pg.Sealed C (some pageSize) b imgs) {op : CodecOp} (hop : op ≠ .read)
    (pgno : Nat) (data : Bytes) :
    wlp (codec2 C w op pgno data)
      (fun out s => s.Sealed C (some pageSize) b (⟨pgno, out⟩ :: imgs))
      (fun _ s => s.Sealed C (some pageSize) b imgs) pg := by
  refine .seq (xCodec_wlp h op pgno data) fun r s hs => ?_
  obtain ⟨hs, hlen⟩ := hs
  rw [outputs, if_neg hop] at hs
  cases r with
  | none => exact hs
  | some out =>
    refine .read (.pure ?_)
    have hpage : out.length = s.pageSize := (hlen hop _ rfl out rfl).trans (hs.fits _ rfl).1.symm
    rw [← hpage, pageOf_eq]
    exact hs

theorem keeps_codec {f : Bytes → M κ α} {op : CodecOp} (hop : op ≠ .read) {pgno : Nat}
    {data : Bytes} (hf : ∀ out, Keeps (Sealed C (some pageSize) b (⟨pgno, out⟩ :: imgs)) (f out)) :
    Keeps (Sealed C (some pageSize) b imgs) (codec2 C w op pgno data >>= f) := fun _ h =>
  .seq (codec2_wlp h hop pgno data) fun out _ hs =>
    keeps_with (hf out) (subset_cons_self _ _) hs

instance {op : CodecOp} {pgno : Nat} {data : Bytes} :
    Kept (Sealed C size b imgs) (xCodec C op pgno data) :=
  ⟨fun _ h => (xCodec_wlp h op pgno data).1.forget (subset_append_right _ _)⟩

section

variable {f : Bytes → M κ α} {pgno : Nat} {data : Bytes}
  [hf : ∀ out, Kept (Sealed C (some pageSize) b (⟨pgno, out⟩ :: imgs)) (f out)]

instance : Kept (Sealed C (some pageSize) b imgs) (codec2 C w .write pgno data >>= f) :=
  ⟨keeps_codec (by decide) fun out => (hf out).keeps⟩

instance : Kept (Sealed C (some pageSize) b imgs) (codec2 C w .journal pgno data >>= f) :=
  ⟨keeps_codec (by decide) fun out => (hf out).keeps⟩

end

theorem request_keeps : Keeps (Sealed C size b imgs) (request w : M κ Unit) := Kept.keeps

theorem osWrite_keeps (himg : img ∈ imgs) :
    Keeps (Sealed C size b imgs) (osWrite w (.image file img) : M κ Unit) := by
  refine .bind (.modify fun pg h => ?_) fun _ => Kept.keeps
  refine h.write file [img] fun i hi => ?_
  rw [mem_singleton.mp hi]
  exact h.known img himg

instance {file : File} : Kept (Sealed C size b (img :: imgs))
    (osWrite w (.image file img) : M κ Unit) :=
  ⟨osWrite_keeps mem_cons_self⟩

theorem subJournalFileWrite_keeps (himg : ∀ i ∈ img, i ∈ imgs) :
    Keeps (Sealed C size b imgs) (subJournalFileWrite w img : M κ Unit) := by
  cases img with
  | none => exact request_keeps
  | some i => exact osWrite_keeps (himg i rfl)

/-- With `subjInMemory` off the sub-journal may become a file. -/
theorem subJournalCreateFile_keeps :
    Keeps (Sealed C size false imgs) (subJournalCreateFile w : M κ Unit) := by
  refine .bind Kept.keeps fun _ => .bind (.modify fun pg h => ?_) fun _ => .bind Kept.keeps
    fun _ => .modify fun pg h => ?_
  · exact h.write .subJournal pg.subJournal (h.subJournal rfl)
  · exact h.setSub nofun (fun _ => rfl) h.subJournal

theorem subJournalWrite_keeps (iOfst iAmt : Nat) (himg : b = false → ∀ i ∈ img, i ∈ imgs) :
    Keeps (Sealed C size b imgs) (subJournalWrite w iOfst iAmt img : M κ Unit) := by
  refine .get_bind fun pg h => ?_
  have honFile := h.onFile
  cases hsjfd : pg.sjfd with
  | closed => exact trivial
  | file =>
    rw [hsjfd] at honFile
    exact subJournalFileWrite_keeps (himg (honFile trivial)) pg h
  | memory nSpill =>
    rw [hsjfd] at honFile
    refine .ite ⟨fun ⟨n, hn, _⟩ => ?_, fun _ => request_keeps pg h⟩
    obtain rfl : b = false := honFile (Option.isSome_of_mem hn)
    exact (subJournalCreateFile_keeps.bind fun _ => subJournalFileWrite_keeps (himg rfl)) pg h

theorem openSubJournal_keeps : Keeps (Sealed C size b imgs) (openSubJournal cfg w : M κ Unit) := by
  refine .get_bind fun pg h => .ite ⟨fun hclosed => ?_, fun _ => h⟩
  have hnil : pg.subJournal = [] := h.closed hclosed
  have hnew {s : State κ} {sjfd : Handle} (hs : s.Sealed C size b imgs) (hsub : s.subJournal = [])
      (hfile : sjfd.OnFile → b = false) (hopen : sjfd ≠ .closed) :
      ({ s with sjfd := sjfd } : State κ).Sealed C size b imgs :=
    hs.setSub (fun hc => absurd hc hopen) hfile fun _ => by simp [hsub]
  cases b with
  | false =>
    refine .ite ⟨fun _ => ?_, fun _ => hnew h hnil (fun _ => rfl) nofun⟩
    refine .bind (.ite ⟨fun _ => hnew h hnil (fun _ => rfl) nofun, fun _ => h⟩)
  | true =>
    have hneg : ¬ (if pg.journalMode = .memory ∨ pg.subjInMemory then -1
        else cfg.nStmtSpill) = 0 := by
      simp [h.flag]
    rw [if_neg hneg]
    refine hnew h hnil (fun hon => ?_) nofun
    simp [Handle.OnFile, h.flag] at hon

theorem subJournalWrite_open (iOfst iAmt : Nat) (img : Option Image) (pg : State κ) :
    gives (subJournalWrite w iOfst iAmt img : M κ Unit) (fun _ s => s.sjfd ≠ .closed) pg := by
  have hfile : Keeps (fun s : State κ => s.sjfd ≠ .closed) (subJournalFileWrite w img) := by
    cases img <;> (unfold subJournalFileWrite; exact Kept.keeps)
  have hcreate : Keeps (fun s : State κ => s.sjfd ≠ .closed) (subJournalCreateFile w) :=
    .bind Kept.keeps fun _ => .bind Kept.keeps fun _ => .bind Kept.keeps fun _ =>
      .modify fun _ _ => nofun
  refine .read ?_
  cases hsjfd : pg.sjfd with
  | closed => exact trivial
  | file => exact .imp (hfile pg (by simp [hsjfd])) (fun _ _ => id)
  | memory nSpill =>
    have hkeeps := Maintains.ite (c := ∃ n ∈ nSpill, n < iOfst + iAmt) (hcreate.bind fun _ => hfile)
      (Kept.keeps : Keeps _ (request w))
    exact .imp (hkeeps pg (by simp [hsjfd])) (fun _ _ => id)

/-- What `subjournalPage` stores need not come from the codec if it stays in memory. -/
theorem keeps_subjournalImage {f : Bytes → M κ α} {pgno : Nat} {data : Bytes}
    (hf : ∀ out imgs, (b = false → ⟨pgno, out⟩ ∈ imgs) →
      Keeps (Sealed C (some pageSize) b imgs) (f out)) :
    Keeps (Sealed C (some pageSize) b imgs) (subjournalImage C w pgno data >>= f) := by
  cases b with
  | true =>
    refine .bind ?_ fun out => hf out imgs nofun
    exact .bind .get fun _ => .ite (.pure data) (Kept.keeps)
  | false =>
    intro pg h
    refine .bind (.read (.ite ⟨fun hon => ?_, fun _ => ?_⟩))
    · exact absurd (h.flag.symm.trans hon) nofun
    · have hcodec : Keeps (Sealed C (some pageSize) false imgs)
        (codec2 C w .journal pgno data >>= f) :=
        keeps_codec (by decide) fun out => hf out _ fun _ => mem_cons_self
      exact wp_bind.mp (hcodec pg h)

theorem subjournalPage_keeps (pgno : Nat) (page : Cached) :
    Keeps (Sealed C (some pageSize) b imgs) (subjournalPage C cfg w pgno page) := by
  refine .bind .get fun pg => .bind (.when (.bind openSubJournal_keeps fun _ => ?_)) fun _ =>
    .modify fun _ h => h
  refine keeps_subjournalImage fun data imgs himg => .bind (subJournalWrite_keeps _ _ nofun)
    fun _ s h => .bind ?_
  refine .mono (wp_and (subJournalWrite_keeps _ _ ?_ s h) (subJournalWrite_open _ _ _ s))
    (fun _ s' hs => ?_) fun _ _ hs => hs.1
  · intro hoff i hi
    cases hi
    exact himg hoff
  · refine hs.1.setSub (fun hclosed => absurd hclosed hs.2) hs.1.onFile fun hoff img hi => ?_
    rcases mem_append.mp hi with hold | hnew
    · exact hs.1.subJournal hoff img hold
    · rw [mem_singleton.mp hnew]
      exact hs.1.known _ (himg hoff)

instance {pgno : Nat} {page : Cached} :
    Kept (Sealed C (some pageSize) b imgs) (subjournalPageIfRequired C cfg w pgno page) := by
  refine ⟨.bind .get fun pg => ?_⟩
  cases requiresPage pgno pg.savepoints with
  | none => exact .pure ()
  | some ps => exact .bind (.modify fun _ h => h) fun _ => subjournalPage_keeps pgno page

instance : Kept (Sealed C size b imgs) (releaseAllSavepoints : M κ Unit) := by
  refine ⟨.modify fun pg h => h.setSub (fun _ => rfl) (fun hfile => ?_) nofun⟩
  split at hfile
  · rename_i hopen
    exact h.onFile (hopen.2 ▸ trivial)
  · exact hfile.elim

instance {inPlace : Bool} {iFrame pgno : Nat} {page : Cached} :
    Kept (Sealed C (some pageSize) b imgs) (walWriteFrame C w inPlace iFrame pgno page) := by
  refine ⟨keeps_codec (by decide) fun data => .bind Kept.keeps fun _ => .bind Kept.keeps fun _ =>
    .modify fun pg h => h.setFrames fun img himg => ?_⟩
  rcases mem_append.mp himg with hold | hnew
  · exact h.frames img (mem_of_mem_take hold)
  · rcases mem_cons.mp hnew with rfl | hold
    · exact h.known _ mem_cons_self
    · exact h.frames img (mem_of_mem_drop hold)

instance {pgnos : List Nat} {nTruncate : Nat} {isCommit : Bool} :
    Kept (Sealed C (some pageSize) b imgs) (pagerWalFrames C w pgnos nTruncate isCommit) := by
  unfold pagerWalFrames walFrames
  infer_instance

theorem writeDatabase_keeps (himg : img ∈ imgs) :
    Keeps (Sealed C size b imgs) (writeDatabase w img : M κ Unit) :=
  .bind (osWrite_keeps himg) fun _ => .modify fun _ h => h

instance {pgnos : List Nat} : Kept (Sealed C (some pageSize) b imgs)
    (pagerWritePagelist C w pgnos) := by
  unfold pagerWritePagelist writePage writeDatabase
  infer_instance

instance {nPage : Nat} : Kept (Sealed C size b imgs) (osWrite w (.zeros nPage) : M κ Unit) :=
  ⟨.bind (.modify fun _ h => h.zeros nPage) fun _ => Kept.keeps⟩

instance {nPage : Nat} : Kept (Sealed C size b imgs) (pagerTruncate w nPage : M κ Unit) := by
  unfold pagerTruncate extendDatabase
  infer_instance

instance : Kept (Sealed C size b imgs) (syncJournal cfg w : M κ Unit) := by
  unfold syncJournal pagerExclusiveLock
  infer_instance

instance {pgno : Nat} : Kept (Sealed C (some pageSize) b imgs) (pagerStress C cfg w pgno) := by
  refine ⟨.bind .get fun pg => ?_⟩
  cases pg.cache pgno <;> exact Kept.keeps

instance {pgno : Nat} : Kept (Sealed C size b imgs) (readDbPage C w pgno) := by
  unfold readDbPage
  infer_instance

instance {pgno : Nat} {noContent : Bool} :
    Kept (Sealed C (some pageSize) b imgs) (pagerGet C cfg w pgno noContent) := by
  unfold pagerGet fetchPage skipRecords
  infer_instance

instance : Kept (Sealed C size b imgs) (pagerOpenJournal cfg w : M κ Unit) := by
  have : Kept (Sealed C size b imgs) (modify fun pg => { pg with
      journal := [], header := pg.newHeader cfg, journalHdr := 0 } : M κ Unit) :=
    ⟨.modify fun _ h => h.setJournal nofun⟩
  unfold pagerOpenJournal
  infer_instance

instance {pgno : Nat} {page : Cached} :
    Kept (Sealed C (some pageSize) b imgs) (pagerAddPageToRollbackJournal C w pgno page) := by
  unfold pagerAddPageToRollbackJournal journalWrite
  refine ⟨keeps_codec (by decide) fun data => .bind Kept.keeps fun _ => .bind Kept.keeps fun _ =>
    .bind Kept.keeps fun _ => .bind Kept.keeps fun _ =>
    .bind (.modify fun pg h => h.setJournal fun img himg => ?_) fun _ => Kept.keeps⟩
  rcases mem_append.mp himg with hold | hnew
  · exact h.journal img hold
  · rw [mem_singleton.mp hnew]
    exact h.known _ mem_cons_self

instance {pgno : Nat} : Kept (Sealed C (some pageSize) b imgs) (pagerWriteOne C cfg w pgno) := by
  unfold pagerWriteOne pagerWriteRest
  infer_instance

instance {pgno : Nat} : Kept (Sealed C (some pageSize) b imgs) (pagerWrite C cfg w pgno) := by
  unfold pagerWrite pagerWriteLargeSector writeSectorPage
  infer_instance

instance {pgno : Nat} : Kept (Sealed C size b imgs) (pagerDontWrite pgno : M κ Unit) := by
  unfold pagerDontWrite
  infer_instance

instance {pgno target : Nat} {isCommit : Bool} :
    Kept (Sealed C (some pageSize) b imgs) (pagerMovepage C cfg w pgno target isCommit) := by
  refine ⟨.bind Kept.keeps fun page => .bind Kept.keeps fun _ => .bind Kept.keeps fun _ =>
    .bind .get fun _ => .bind Kept.keeps fun _ => .bind Kept.keeps fun _ =>
    .when (.bind (.attempt Kept.keeps) fun r => ?_)⟩
  cases r <;> exact Kept.keeps

end SqlCipher.PageIo
