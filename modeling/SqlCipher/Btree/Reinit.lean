import SqlCipher.Btree.MemPage
import SqlCipher.PageIo.Rollback

/-!
# Pages in use during a rollback

`pager_playback_one_page` with what the b-tree keeps beside the content of each page. It copies a
record into the cache, calls `xReiniter`, which is `pageReinit`, and only then decodes the copy. So
a page is initialized from its encoded content, which is harmless just if `btreeInitPage` does not
accept that, or finds there what the decoded page has (`playback_reinitialises`).
-/

namespace SqlCipher.Btree

open Proc Buffer PageIo Function

/-- A pager, with the `MemPage` and the number of references of each page in its cache. -/
structure State (κ : Type) where
  pager : PageIo.State κ
  bt : BtShared
  nRef : Nat → Nat
  extra : Nat → MemPage

variable {κ : Type} (C : XCodec κ) (cfg : Config) (w : Nat → Answer)

abbrev M (κ : Type) := Proc (State κ) ResultCode

def onPager {α : Type} (x : PageIo.M κ α) : M κ α :=
  Proc.onPart State.pager (fun pg s => { s with pager := pg }) x

def setExtra (pgno : Nat) (page : MemPage) : M κ Unit :=
  modify fun s => { s with extra := update s.extra pgno page }

/-- `Pager.xReiniter`, called with one more reference to the page. -/
def xReiniter (pgno : Nat) (data : Bytes) : M κ Unit := do
  let s ← get
  setExtra pgno (pageReinit s.bt pgno data (s.nRef pgno + 1) (s.extra pgno))

/-- The end of `pager_playback_one_page`. -/
def playbackCached (jrnlEnc : Bool) (img : Image) : M κ Unit := do
  let s ← get
  match s.pager.cache img.pgno with
  | none => return ()
  | some page => do
    onPager (playbackCopy img page)
    xReiniter img.pgno img.data
    onPager (playbackDecode C jrnlEnc img)

def blankExtra (pgno : Nat) : M κ Unit := do
  let s ← get
  when (s.pager.cache pgno = none) (setExtra pgno .blank)

def pagerPlaybackOnePage (isMainJrnl synced : Bool) (img : Image) : M κ Unit := do
  blankExtra img.pgno
  let (data, rc) ← onPager (playbackRecord C cfg w isMainJrnl synced img)
  let s ← get
  playbackCached C (isMainJrnl || !s.pager.subjInMemory) ⟨img.pgno, data⟩
  ofExcept rc

variable {C cfg w} {isMainJrnl synced : Bool} {img : Image} {s : State κ} {n : Nat}

/-- What `CODEC1` makes of a page, if the codec does not fail. -/
def decoded (C : XCodec κ) (n : Nat) (data : Bytes) (k : κ) : Option Bytes :=
  (C .read n data k).1.map (overwrite data 0)

/-- The record is also written to the database file. -/
def Stored (cfg : Config) (isMainJrnl synced : Bool) (n : Nat) (pg : PageIo.State κ) : Prop :=
  (EState.rank .writerDbmod ≤ pg.eState.rank ∨ pg.eState = .open) ∧
    if isMainJrnl then cfg.noSync || synced else (pg.cache n).all (!·.needSync)

instance {pg : PageIo.State κ} : Decidable (Stored cfg isMainJrnl synced n pg) :=
  inferInstanceAs (Decidable (_ ∧ _))

/-- What `CODEC2` makes of a page for the journal, read at the time `clock`. -/
def recoded (C : XCodec κ) (w : Nat → Answer) (pageSize clock n : Nat) (data : Bytes) (k : κ) :
    Option Bytes :=
  (C .journal n data k).1.map (pageOf pageSize (w clock).junk)

/-- A record that is decoded for a backup and encoded again: what is copied into the page, and what
it holds once it is decoded. -/
def throughBackup (C : XCodec κ) (w : Nat → Answer) (img : Image) (pg : PageIo.State κ) :
    Option (Bytes × Option Bytes) :=
  if (w pg.clock).rc ≠ .ok then none
  else (decoded C img.pgno img.data pg.codec).bind fun plain =>
    (recoded C w pg.pageSize (pg.clock + 1) img.pgno plain
      (C .read img.pgno img.data pg.codec).2).map fun data =>
        (data, decoded C img.pgno data
          (C .journal img.pgno plain (C .read img.pgno img.data pg.codec).2).2)

/-- A record that is encoded for the file and decoded again. -/
def throughFile (C : XCodec κ) (w : Nat → Answer) (img : Image) (pg : PageIo.State κ) :
    Option (Bytes × Option Bytes) :=
  (recoded C w pg.pageSize pg.clock img.pgno img.data pg.codec).map fun data =>
    let plain := decoded C img.pgno data (C .journal img.pgno img.data pg.codec).2
    (plain.getD data, plain)

/-- What is copied into the page, and what it holds once decoded. A record that is stored goes
through the codec if there is a backup, or if it is not encoded. -/
def restored (C : XCodec κ) (cfg : Config) (w : Nat → Answer) (isMainJrnl synced : Bool)
    (img : Image) (pg : PageIo.State κ) : Option (Bytes × Option Bytes) :=
  if isMainJrnl || !pg.subjInMemory then
    if Stored cfg isMainJrnl synced img.pgno pg ∧ pg.backup then throughBackup C w img pg
    else some (img.data, decoded C img.pgno img.data pg.codec)
  else if Stored cfg isMainJrnl synced img.pgno pg then throughFile C w img pg
  else some (img.data, some img.data)

/-- A page in use is copied in a form that `btreeInitPage` does not accept, or that has the flags
and the number of cells of the decoded page. -/
def Legible (C : XCodec κ) (cfg : Config) (w : Nat → Answer) (isMainJrnl synced : Bool)
    (img : Image) (s : State κ) : Prop :=
  (s.extra img.pgno).isInit = true → 0 < s.nRef img.pgno →
    ∀ data out, restored C cfg w isMainJrnl synced img s.pager = some (data, out) →
      Accepts s.bt img.pgno data → ∃ plain ∈ out, SameHeader img.pgno data plain

/-- A step of the pager that changes only the codec and the clock, as far as can be seen here. -/
structure After (k : κ) (clock : Nat) (pg t : PageIo.State κ) : Prop where
  codec : t.codec = k
  clock : t.clock = clock
  cache : t.cache = pg.cache
  subjInMemory : t.subjInMemory = pg.subjInMemory
  backup : t.backup = pg.backup
  pageSize : t.pageSize = pg.pageSize

variable {pg : PageIo.State κ}

theorem After.trans (h : After k c pg t) (h' : After k' c' t u) : After k' c' pg u :=
  ⟨h'.codec, h'.clock, h'.cache.trans h.cache, h'.subjInMemory.trans h.subjInMemory,
    h'.backup.trans h.backup, h'.pageSize.trans h.pageSize⟩

theorem writeDatabase_after : wlp (attempt (writeDatabase w img) : PageIo.M κ _)
    (fun rc t => After pg.codec (pg.clock + 1) pg t ∧ (rc = .ok () ↔ (w pg.clock).rc = .ok))
    E pg := by
  refine .attempt (.bind (.write (.bind (.ite ⟨fun hok => ?_, fun hno => ?_⟩))))
  · exact .pure (.modify ⟨⟨rfl, rfl, rfl, rfl, rfl, rfl⟩, fun _ => hok, fun _ => rfl⟩)
  · exact ⟨⟨rfl, rfl, rfl, rfl, rfl, rfl⟩, nofun, fun hok => absurd hok hno⟩

theorem xCodec_after (op : CodecOp) : wlp (PageIo.xCodec C op n data)
    (fun r t => After (C op n data pg.codec).2 pg.clock pg t ∧ r = (C op n data pg.codec).1)
    E pg := ⟨⟨rfl, rfl, rfl, rfl, rfl, rfl⟩, rfl⟩

theorem codec2_after : wlp (codec2 C w .journal n data)
    (fun x t => After (C .journal n data pg.codec).2 pg.clock pg t ∧
      recoded C w pg.pageSize pg.clock n data pg.codec = some x)
    (fun _ t => t.cache = pg.cache ∧ recoded C w pg.pageSize pg.clock n data pg.codec = none)
    pg := by
  refine .seq (xCodec_after .journal) fun r t ht => ?_
  obtain ⟨ht, hr⟩ := ht
  rw [recoded, ← hr]
  cases r with
  | none => exact ⟨ht.cache, rfl⟩
  | some out => exact .read ⟨ht, by rw [ht.pageSize, ht.clock]; rfl⟩

theorem codec1_after : wlp (codec1 C n data)
    (fun plain t => After (C .read n data pg.codec).2 pg.clock pg t ∧
      decoded C n data pg.codec = some plain)
    (fun _ t => After (C .read n data pg.codec).2 pg.clock pg t ∧
      decoded C n data pg.codec = none) pg := by
  refine .seq (xCodec_after .read) fun r t ht => ?_
  obtain ⟨ht, hr⟩ := ht
  rw [decoded, ← hr]
  cases r with
  | none => exact ⟨ht, rfl⟩
  | some out => exact ⟨ht, rfl⟩

theorem decodeRecord_after (rc : Except ResultCode Unit) : wlp (decodeRecord C n data rc)
    (fun x t => After (C .read n data pg.codec).2 pg.clock pg t ∧
      x.1 = (decoded C n data pg.codec).getD data ∧
      (x.2 = .ok () ↔ rc = .ok () ∧ (decoded C n data pg.codec).isSome))
    E pg := by
  refine .bind (.attempt (.mono codec1_after (fun plain t ht => ?_) fun e t ht => ?_))
  · exact ⟨ht.1, by rw [ht.2]; rfl, by simp [ht.2]⟩
  · exact ⟨ht.1, by rw [ht.2]; rfl, by simp [ht.2]⟩

/-- A record is about to be copied as `data`, to be decoded to `out`. -/
structure Copies (C : XCodec κ) (jrnlEnc : Bool) (n : Nat) (data : Bytes) (out : Option Bytes)
    (pg t : PageIo.State κ) : Prop where
  cache : t.cache = pg.cache
  subjInMemory : t.subjInMemory = pg.subjInMemory
  encoded : jrnlEnc = true → out = decoded C n data t.codec
  plain : jrnlEnc = false → out.getD data = data

theorem playbackBackup_copies (hbackup : pg.backup = true)
    (hrc : rc = .ok () ↔ (w pg.clock).rc = .ok) (h : After pg.codec (pg.clock + 1) pg t) :
    wlp (playbackBackup C w true img.pgno img.data rc)
      (fun x t => ∃ out, throughBackup C w img pg = some (x.1, out) ∧
        Copies C true img.pgno x.1 out pg t)
      (fun _ t => t.cache = pg.cache ∧ throughBackup C w img pg = none) t := by
  refine .read (.ite ⟨fun _ => ?_, fun hno => absurd ⟨h.backup.trans hbackup, rfl⟩ hno⟩)
  refine .seq (decodeRecord_after rc) fun x t₁ h₁ => ?_
  obtain ⟨h₁, hx, hrc'⟩ := h₁
  have h₁ := h.trans h₁
  rw [h.codec] at h₁ hx hrc'
  rw [h.clock] at h₁
  rw [hrc] at hrc'
  unfold throughBackup
  by_cases hok : (w pg.clock).rc = .ok ∧ (decoded C img.pgno img.data pg.codec).isSome
  · obtain ⟨hok, hsome⟩ := id hok
    obtain ⟨plain, hplain⟩ := Option.isSome_iff_exists.mp hsome
    rw [hplain, Option.getD_some] at hx
    rw [if_neg (not_not.mpr hok), hplain, Option.bind_some, ← hx, ← h₁.codec, ← h₁.clock,
      ← h₁.pageSize]
    refine .seq (.mono codec2_after (fun _ _ => id) fun _ t₂ h₂ => ?_) fun data t₂ h₂ => ?_
    · exact ⟨h₂.1.trans h₁.cache, by rw [h₂.2]; rfl⟩
    · obtain ⟨h₂, hdata⟩ := h₂
      have h₂ := h₁.trans h₂
      rw [hdata, hrc'.mpr ⟨hok, hsome⟩]
      exact ⟨_, rfl, h₂.cache, h₂.subjInMemory, fun _ => by rw [h₂.codec], nofun⟩
  · have hnone : throughBackup C w img pg = none := by
      unfold throughBackup
      split
      · rfl
      · next hrc =>
        have hno := fun hsome => hok ⟨not_not.mp hrc, hsome⟩
        rw [Option.not_isSome_iff_eq_none.mp hno, Option.bind_none]
    refine .seq (.mono codec2_after (fun _ _ => id) fun _ t₂ h₂ => ?_) fun data t₂ h₂ => ?_
    · exact ⟨h₂.1.trans h₁.cache, hnone⟩
    · refine .bind (wp_ofExcept.mpr ⟨fun u hu => ?_, fun e _ => ?_⟩)
      · exact absurd (hrc'.mp hu) hok
      · exact ⟨h₂.1.cache.trans h₁.cache, hnone⟩

theorem playbackStore_restored (hwal : pg.useWal = false) (hpage : pg.cache img.pgno = some page) :
    wlp (playbackStore C cfg w isMainJrnl synced img)
      (fun x t => ∃ out, restored C cfg w isMainJrnl synced img pg = some (x.1, out) ∧
        Copies C (isMainJrnl || !pg.subjInMemory) img.pgno x.1 out pg t)
      (fun _ t => t.cache = pg.cache ∧ restored C cfg w isMainJrnl synced img pg = none) pg := by
  refine .read ?_
  simp only [hwal, Bool.false_eq_true, if_false]
  unfold restored
  refine .ite ⟨fun hst => ?_, fun hno => ?_⟩
  · have hst : Stored cfg isMainJrnl synced img.pgno pg := hst
    unfold playbackWrite
    by_cases henc : (isMainJrnl || !pg.subjInMemory) = true
    · rw [henc, if_pos rfl, if_pos rfl]
      refine .bind (.bind (.pure (.seq writeDatabase_after fun rc t ht => ?_)))
      obtain ⟨ht, hrc⟩ := ht
      refine .write (.pure ?_)
      by_cases hbackup : pg.backup = true
      · rw [if_pos ⟨hst, hbackup⟩]
        exact playbackBackup_copies hbackup hrc { ht with }
      · rw [if_neg fun h => hbackup h.2]
        refine .read (.ite ⟨fun h => absurd (ht.backup.symm.trans h.1) hbackup, fun _ => .pure ?_⟩)
        exact ⟨_, rfl, ht.cache, ht.subjInMemory, fun _ => by rw [← ht.codec], nofun⟩
    · rw [Bool.not_eq_true] at henc
      rw [henc, if_neg nofun, if_neg nofun, if_pos hst, throughFile]
      refine .bind (.seq (.mono codec2_after (fun _ _ => id) fun _ t₁ h₁ => ?_)
        fun data t₁ h₁ => ?_)
      · exact ⟨h₁.1, by rw [h₁.2]; rfl⟩
      obtain ⟨h₁, hdata⟩ := h₁
      refine .seq writeDatabase_after fun rc t₂ h₂ => .write ?_
      have h₂ := h₁.trans h₂.1
      rw [if_neg nofun]
      refine .sure (decodeRecord_after rc) fun x t₃ h₃ => ?_
      obtain ⟨h₃, hx, -⟩ := h₃
      have hcodec : t₂.codec = (C .journal img.pgno img.data pg.codec).2 :=
        h₂.codec.trans h₁.codec
      rw [show ({ t₂ with dbFileSize := _ } : PageIo.State κ).codec = _ from hcodec] at hx
      refine .read (.ite ⟨fun h => absurd h.2 nofun, fun _ => .pure ?_⟩)
      rw [hdata]
      refine ⟨_, by rw [hx]; rfl, h₃.cache.trans h₂.cache, h₃.subjInMemory.trans h₂.subjInMemory,
        nofun, fun _ => ?_⟩
      rw [hx]
      cases decoded C img.pgno data (C .journal img.pgno img.data pg.codec).2 <;> rfl
  · have hno : ¬Stored cfg isMainJrnl synced img.pgno pg := hno
    refine .bind (.when ⟨fun h => by simp [hwal, hpage] at h, fun _ => .pure ?_⟩)
    by_cases henc : (isMainJrnl || !pg.subjInMemory) = true
    · rw [henc, if_pos rfl, if_neg fun h => hno h.1]
      exact ⟨_, rfl, rfl, rfl, fun _ => rfl, nofun⟩
    · rw [Bool.not_eq_true] at henc
      rw [henc, if_neg nofun, if_neg hno]
      exact ⟨some img.data, rfl, rfl, rfl, nofun, fun _ => rfl⟩

theorem playbackRecord_restored (hwal : pg.useWal = false) (hpage : pg.cache img.pgno = some page) :
    wlp (playbackRecord C cfg w isMainJrnl synced img)
      (fun x t => ∃ out, restored C cfg w isMainJrnl synced img pg = some (x.1, out) ∧
        Copies C (isMainJrnl || !pg.subjInMemory) img.pgno x.1 out pg t)
      (fun _ t => t.cache = pg.cache ∧ restored C cfg w isMainJrnl synced img pg = none) pg := by
  refine .bind (.when ⟨fun _ => .modify ?_, fun _ => playbackStore_restored hwal hpage⟩)
  have hwal' : PageIo.State.useWal { pg with nReserve := (img.data.getD 20 0).toNat } = false :=
    hwal
  refine .mono (playbackStore_restored hwal' hpage) (fun x t ht => ?_) fun _ _ => id
  obtain ⟨out, hrestored, hcopies⟩ := ht
  exact ⟨out, hrestored, { hcopies with }⟩

/-- The page was initialized from what is copied, and the copy then decoded. -/
def Replaced (s : State κ) (n : Nat) (page : Cached) (data : Bytes) (out : Option Bytes)
    (t : State κ) : Prop :=
  t.pager.cache n = some { page with data := out.getD data } ∧
    t.extra n = pageReinit s.bt n data (s.nRef n + 1) (s.extra n)

theorem playbackCached_wlp (h : Copies C jrnlEnc n data out pg s.pager)
    (hpage : pg.cache n = some page) :
    wlp (playbackCached C jrnlEnc ⟨n, data⟩) (fun _ => Replaced s n page data out)
      (fun _ => Replaced s n page data out) s := by
  have hrest (pg' : PageIo.State κ) (hcache : pg'.cache n = some { page with data := data })
      (hcodec : pg'.codec = s.pager.codec) : wlp (do
        xReiniter n data
        onPager (playbackDecode C jrnlEnc ⟨n, data⟩) : M κ Unit)
        (fun _ => Replaced s n page data out) (fun _ => Replaced s n page data out)
        { s with pager := pg' } := by
    refine .bind (.read (.modify (wp_onPart.mpr ?_)))
    refine .when ⟨fun henc => .bind ?_, fun hplain => ?_⟩
    · have hout := h.encoded henc
      rw [← hcodec] at hout
      refine .mono codec1_after (fun plain t ht => .bind (.read ?_)) fun _ t ht => ?_
      · rw [ht.1.cache, hcache]
        refine ⟨?_, update_self ..⟩
        rw [hout, ht.2]
        exact update_self ..
      · refine ⟨?_, update_self ..⟩
        rw [hout, ht.2]
        exact (congrFun ht.1.cache n).trans hcache
    · refine ⟨?_, update_self ..⟩
      rw [h.plain (Bool.not_eq_true _ ▸ hplain)]
      exact hcache
  refine .read ?_
  rw [h.cache, hpage]
  refine .bind (wp_onPart.mpr (.write ?_))
  exact .when ⟨fun _ => hrest _ (update_self ..) rfl, fun _ => hrest _ (update_self ..) rfl⟩

/-- A restored page in the cache is initialized from its decoded content, or not at all, if and only
if it is legible. A call that fails before it copies anything leaves the page as it is. -/
theorem playback_reinitialises {s s' : State κ} {page : Cached} {r : Except ResultCode Unit}
    (hwal : s.pager.useWal = false) (hpage : s.pager.cache img.pgno = some page)
    (hrun : pagerPlaybackOnePage C cfg w isMainJrnl synced img s = some (r, s')) :
    (restored C cfg w isMainJrnl synced img s.pager = none →
      r ≠ .ok () ∧ s'.pager.cache img.pgno = some page ∧ s'.extra img.pgno = s.extra img.pgno) ∧
    ∀ data out, restored C cfg w isMainJrnl synced img s.pager = some (data, out) →
      s'.pager.cache img.pgno = some { page with data := out.getD data } ∧
      ((s'.extra img.pgno).Fresh s.bt img.pgno out ↔
        Legible C cfg w isMainJrnl synced img s) := by
  let P (t : State κ) : Prop := ∃ data out,
    restored C cfg w isMainJrnl synced img s.pager = some (data, out) ∧
      Replaced s img.pgno page data out t
  have hwlp : wlp (pagerPlaybackOnePage C cfg w isMainJrnl synced img) (fun _ => P)
      (fun _ t => P t ∨ restored C cfg w isMainJrnl synced img s.pager = none ∧
        t.pager.cache img.pgno = some page ∧ t.extra img.pgno = s.extra img.pgno) s := by
    refine .bind (.read (.when ⟨fun hnone => ?_, fun _ => ?_⟩))
    · rw [hpage] at hnone
      cases hnone
    refine .bind (wp_onPart.mpr (.mono (playbackRecord_restored hwal hpage) (fun x pg hpg => ?_)
      fun _ pg hpg => .inr ⟨hpg.2, hpg.1 ▸ hpage, rfl⟩))
    obtain ⟨out, hrestored, hcopies⟩ := hpg
    refine .read (.bind ?_)
    rw [hcopies.subjInMemory]
    have hcached := playbackCached_wlp (s := { s with pager := pg }) hcopies hpage
    refine .mono hcached (fun _ t ht => ?_) fun _ t ht => .inl ⟨x.1, out, hrestored, ht⟩
    exact wp_ofExcept.mpr ⟨fun _ _ => ⟨x.1, out, hrestored, ht⟩,
      fun _ _ => .inl ⟨x.1, out, hrestored, ht⟩⟩
  have hcases : P s' ∨ r ≠ .ok () ∧ restored C cfg w isMainJrnl synced img s.pager = none ∧
      s'.pager.cache img.pgno = some page ∧ s'.extra img.pgno = s.extra img.pgno := by
    unfold wlp wpOr at hwlp
    rw [hrun] at hwlp
    cases r with
    | ok u => exact .inl hwlp
    | error rc => exact hwlp.imp_right fun h => ⟨nofun, h⟩
  obtain ⟨data, out, hrestored, hcache, hextra⟩ | ⟨hr, hnone, hsame⟩ := hcases
  · refine ⟨fun hnone => ?_, fun data' out' hrestored' => ?_⟩
    · rw [hrestored] at hnone
      cases hnone
    · cases hrestored.symm.trans hrestored'
      refine ⟨hcache, ?_⟩
      rw [hextra, pageReinit_fresh, Legible, hrestored, Nat.lt_add_left_iff_pos]
      simp
  · exact ⟨fun _ => ⟨hr, hsame⟩, fun _ _ h => absurd (hnone.symm.trans h) nofun⟩

def BtShared.toy : BtShared where
  pageSize := 512
  usableSize := 512
  maxLocal := 102
  minLocal := 39
  maxLeaf := 477
  minLeaf := 39
  max1bytePayload := 39
  cellSizeCk := false

def leafPage : Bytes := 0x0d :: zeros 511

/-- A codec that flips one bit of a page: a table leaf is stored as an interior page. -/
def flipCodec : XCodec Unit := fun _ _ data _ => (some (data.modify 0 (· ^^^ 8)), ())

def changeRun (C : XCodec Unit) : Option (PageIo.State Unit) :=
  Run.exec (step C .toy .toy)
    (.start () 512 0 (fun n => ((C .write n leafPage ()).1).getD []) 1536)
    [.sharedLock, .begin false false, .get 2 false, .write 2, .modify 2 (zeros 512)]

/-- The b-tree has initialized all its pages from table leaves and holds one reference to each. -/
def leafState (pg : PageIo.State Unit) : State Unit where
  pager := pg
  bt := .toy
  nRef _ := 1
  extra n := (btreeInitPage .toy n leafPage .blank).1

/-- The record of page 2 is played back: does the call succeed with the page in the cache, and is
the page initialized from its decoded content? -/
def reinitView (C : XCodec Unit) : Option (Bool × Bool) :=
  (changeRun C).bind fun pg => pg.journal.head?.bind fun img =>
    (restored C .toy .toy true false img pg).bind fun x =>
      (pagerPlaybackOnePage C .toy .toy true false img (leafState pg)).map fun r =>
        (r.1.isOk && decide (pg.useWal = false ∧ (pg.cache img.pgno).isSome),
          decide ((r.2.extra img.pgno).Fresh .toy img.pgno x.2))

theorem exists_of_reinitView {C : XCodec Unit} (h : reinitView C = some (true, fresh)) :
    ∃ pg img page data out s', changeRun C = some pg ∧ img ∈ pg.journal ∧ pg.useWal = false ∧
      pg.cache img.pgno = some page ∧ restored C .toy .toy true false img pg = some (data, out) ∧
      pagerPlaybackOnePage C .toy .toy true false img (leafState pg) = some (.ok (), s') ∧
      ((s'.extra img.pgno).Fresh .toy img.pgno out ↔ fresh = true) := by
  obtain ⟨pg, hrun, h⟩ := Option.bind_eq_some_iff.mp h
  obtain ⟨img, himg, h⟩ := Option.bind_eq_some_iff.mp h
  obtain ⟨⟨data, out⟩, hrestored, h⟩ := Option.bind_eq_some_iff.mp h
  obtain ⟨⟨r, s'⟩, hplay, h⟩ := Option.map_eq_some_iff.mp h
  simp only [Prod.mk.injEq, Bool.and_eq_true, decide_eq_true_eq] at h
  obtain ⟨⟨hok, hwal, hsome⟩, hfresh⟩ := h
  obtain ⟨page, hpage⟩ := Option.isSome_iff_exists.mp hsome
  obtain _ | _ := r
  · cases hok
  exact ⟨pg, img, page, data, out, s', hrun, List.mem_of_head? himg, hwal, hpage, hrestored, hplay,
    by rw [← hfresh, decide_eq_true_iff]⟩

/-- With a codec that complements each byte the record can be told from a b-tree page. -/
theorem playback_reinitialises_toy : ∃ pg img s', changeRun .toy = some pg ∧ img ∈ pg.journal ∧
    pagerPlaybackOnePage .toy .toy .toy true false img (leafState pg) = some (.ok (), s') ∧
    Legible .toy .toy .toy true false img (leafState pg) := by
  have hview : reinitView .toy = some (true, true) := by decide +kernel
  obtain ⟨pg, img, page, data, out, s', hrun, himg, hwal, hpage, hrestored, hplay, hfresh⟩ :=
    exists_of_reinitView hview
  refine ⟨pg, img, s', hrun, himg, hplay, ?_⟩
  exact ((playback_reinitialises hwal hpage hplay).2 data out hrestored).2.mp (hfresh.mpr rfl)

/-- The record of a table leaf is encoded as an interior page, and the page initialized as one
before it is decoded. -/
theorem not_playback_reinitialises : ∃ pg img data out s', changeRun flipCodec = some pg ∧
    img ∈ pg.journal ∧ (pg.cache img.pgno).isSome ∧
    restored flipCodec .toy .toy true false img pg = some (data, out) ∧
    pagerPlaybackOnePage flipCodec .toy .toy true false img (leafState pg) = some (.ok (), s') ∧
    ¬ (s'.extra img.pgno).Fresh .toy img.pgno out := by
  have hview : reinitView flipCodec = some (true, false) := by decide +kernel
  obtain ⟨pg, img, page, data, out, s', hrun, himg, -, hpage, hrestored, hplay, hfresh⟩ :=
    exists_of_reinitView hview
  exact ⟨pg, img, data, out, s', hrun, himg, by rw [hpage]; rfl, hrestored, hplay,
    fun h => absurd (hfresh.mp h) nofun⟩

end SqlCipher.Btree
