import SqlCipher.Backup.DestSpec
import SqlCipher.Backup.Step

/-!
# Backups are consistent

The invariant of a backup (`State.Copying`): every page in front of `iNext` is in the destination as
the pager of the source has written it last. A copied page has it by `backupOnePage`, a page that is
written later by `backupUpdate`, and a restart leaves nothing to show.
-/

namespace SqlCipher.Backup

open Proc State

set_option synthInstance.maxSize 10000

/-! ## The invariant -/

structure Source.Inv (src : Source) : Prop where
  fresh : src.stale = false → src.seen = src.current
  locked : src.reading = true → src.wal = false → src.stale = false
  writing : src.writing = true → src.stale = false
  quiet : src.writing = false → src.stored = src.seen.stored

structure Dest.Agrees (d : Dest) (a n : Nat) (ok : Prop) (c : Content) : Prop where
  le_dbSize : ∀ off, InPage a d.pageSize n off → off / d.pageSize + 1 ≤ d.dbSize
  see : ok → ¬ d.Failed → ∀ off, InPage a d.pageSize n off →
    off % d.pageSize < d.pageSize - d.codecReserve → d.see off = some (c (off - (n - 1) * a))

structure State.Copying (s : State) : Prop where
  pos : 1 ≤ s.bk.iNext
  unlocked : s.bk.bDestLocked = false → s.bk.iNext = 1
  opened : s.bk.bDestLocked = true → s.dest.Open
  valid : ValidPageSize s.dest.pageSize
  header : s.bk.bDestLocked = false → ∀ p ∈ s.dest.headerSize, ValidPageSize p
  copied : ∀ n c, 1 ≤ n → n < s.bk.iNext → s.src.stored n = some c →
    s.dest.Agrees s.src.seen.pageSize n (s.src.codecError = false) c

def State.Attached (s : State) : Prop := 1 < s.bk.iNext → s.bk.isAttached = true

structure State.Inv (s : State) : Prop where
  src : s.src.Inv
  copying : isFatalError s.bk.rc = false → s.Copying ∧ s.Attached

variable {s s' s₀ : State} {w : World} {a n : Nat} {c : Content}

theorem InPage.eq_of (h : InPage a b m off) (h' : InPage a b n off) (hm : 1 ≤ m) (hn : 1 ≤ n) :
    m = n := by
  obtain ⟨⟨h1, h2⟩, -⟩ := h
  obtain ⟨⟨h3, h4⟩, -⟩ := h'
  have ha : 0 < a := by omega
  have hm' : off / a = m - 1 := Nat.div_eq_of_lt_le h1 (by rw [Nat.succ_mul]; omega)
  have hn' : off / a = n - 1 := Nat.div_eq_of_lt_le h3 (by rw [Nat.succ_mul]; omega)
  omega

/-- A page that is copied takes no other one away. -/
theorem Dest.Agrees.mono {d d' : Dest} (h : d.Agrees a m ok c) (hok : ok' → ok)
    (hd : d.Becomes d' (InPage a d.pageSize n) f) (hm : 1 ≤ m) (hn : 1 ≤ n) (hne : m ≠ n) :
    d'.Agrees a m ok' c := by
  have hps := hd.frame.pageSize
  have hres := hd.frame.codecReserve
  constructor
  · rw [hps]
    exact fun off hoff => (h.le_dbSize off hoff).trans hd.frame.dbSize
  · rw [hps, hres]
    intro hok' hfail off hoff hlt
    rw [hd.outside hfail off ⟨h.le_dbSize off hoff, hlt⟩ fun hin => hne (hoff.eq_of hin hm hn)]
    exact h.see (hok hok') (fun hf => hfail (hd.frame.failed hf)) off hoff hlt

theorem Dest.Becomes.agrees {d d' : Dest} (hd : d.Becomes d' (InPage a d.pageSize n)
      fun o => some (patched last ((n - 1) * a) data (o - (n - 1) * a)))
    (hc : ok → ∀ j < a, patched last ((n - 1) * a) data j = c j) : d'.Agrees a n ok c := by
  have hps := hd.frame.pageSize
  have hres := hd.frame.codecReserve
  constructor
  · rw [hps]
    exact fun off hoff => (hd.inside off hoff).1
  · rw [hps, hres]
    intro hok hfail off hoff hlt
    rw [(hd.inside off hoff).2 hfail hlt, hc hok]
    have := hoff.1
    omega

/-! ## Callbacks -/

theorem State.Copying.restart (h : s.Copying) {src : Source} (bk : Handle)
    (hl : bk.bDestLocked = s.bk.bDestLocked) (h1 : bk.iNext = 1) :
    ({ s with src := src, bk := bk } : State).Copying :=
  ⟨h1.ge, fun _ => h1, fun hb => h.opened (hl ▸ hb), h.valid, fun hb => h.header (hl ▸ hb),
    fun n c hn hlt => absurd hlt (by dsimp only; omega)⟩

/-- After a restart nothing is known of the destination, and nothing needs to be. -/
theorem backupRestart_wlp (h : s.Inv) :
    wlp backupRestart (fun _ s' => s'.src = s.src ∧ s'.dest = s.dest ∧ s'.bk.rc = s.bk.rc ∧
      (isFatalError s.bk.rc = false → s'.Copying ∧ s'.bk.iNext = 1)) (fun _ _ => False) s := by
  refine .modify ?_
  split
  · exact ⟨rfl, rfl, rfl, fun hrc => ⟨(h.copying hrc).1.restart _ rfl rfl, rfl⟩⟩
  · next hatt =>
    refine ⟨rfl, rfl, rfl, fun hrc => ⟨(h.copying hrc).1, ?_⟩⟩
    have := (h.copying hrc).1.pos
    have := mt (h.copying hrc).2 hatt
    omega

theorem Image.stored_eq_some {img : Image} (h : img.stored n = some c) :
    1 ≤ n ∧ n ≤ img.nPage ∧ n ≠ pendingBytePage img.pageSize ∧ img.page n = c := by
  unfold Image.stored at h
  split at h
  · next hn => exact ⟨hn.1, hn.2.1, hn.2.2, Option.some.inj h⟩
  · cases h

theorem backupUpdate_wlp {data : Content} (hsrc : s.src.Inv) (hn : 1 ≤ n)
    (hstored : s.src.stored n = some data)
    (hcopying : isFatalError s.bk.rc = false → s.Attached ∧ ∀ stored : Nat → Option Content,
      (∀ m, m ≠ n → stored m = s.src.stored m) → stored n = none →
      ({ s with src := { s.src with stored := stored } } : State).Copying) :
    wlp (backupUpdate w n data) (fun _ => Inv) (fun _ => Inv) s := by
  have hcopying hrc := (hcopying hrc).imp_right fun hcop =>
    hcop (fun m => if m = n then none else s.src.stored m) (fun m hm => if_neg hm) (if_pos rfl)
  refine .read (.ite ⟨fun hgo => ?_, fun hno => ?_⟩)
  · obtain ⟨hatt, hrc, hlt⟩ := hgo
    obtain ⟨hattached, hcop⟩ := hcopying hrc
    refine .bind (.attempt (wp_onPart.mpr ?_))
    refine .mono (backupOnePage_wlp s.src.seen.valid hcop.valid) (fun _ d' hd => ?_)
      fun e d' he => ?_
    · refine ⟨hsrc, fun _ =>
        ⟨⟨hcop.pos, fun hb => ?_, fun hb => hd.frame.opened (hcop.opened hb), ?_,
        fun hb => ?_, fun m c hm hmlt hc => ?_⟩, hattached⟩⟩
      · exact hcop.unlocked hb
      · dsimp only
        rw [hd.frame.pageSize]
        exact hcop.valid
      · have := hcop.unlocked hb
        dsimp only at this
        omega
      · by_cases hmn : m = n
        · subst hmn
          have hdata : data = c := Option.mem_unique hstored hc
          exact hd.agrees fun _ j _ => by rw [patched, hdata]
        · exact (hcop.copied m c hm hmlt (by simpa [hmn] using hc)).mono id hd hm hn hmn
    · exact .modify ⟨hsrc, fun hrc => absurd (isFatalError_of_isFailure he) (by simpa using hrc)⟩
  · refine ⟨hsrc, fun hrc => ?_⟩
    obtain ⟨hattached, hcop⟩ := hcopying hrc
    refine ⟨{ hcop with copied := fun m c hm hmlt hc => ?_ }, hattached⟩
    have hmn : m ≠ n := by
      rintro rfl
      have hpos := hcop.pos
      exact hno ⟨hattached (by omega), hrc, hmlt⟩
    exact hcop.copied m c hm hmlt (by simpa [hmn] using hc)

theorem beginRead_wlp (h : s.Inv) :
    wlp beginRead (fun _ s' => s'.Inv ∧ s'.bk.rc = s.bk.rc ∧ s'.src.writing = s.src.writing ∧
      s'.src.current = s.src.current ∧ s'.dest = s.dest ∧
      (∀ w, s.src.Intact w → s'.src.Intact w) ∧ s'.src.stale = false) (fun _ _ => False) s := by
  refine .read (.bind (.when ⟨fun _ => ?_, fun hstale => ?_⟩))
  · refine .seq (backupRestart_wlp h) fun _ s₁ h₁ => ?_
    obtain ⟨hsrc, hdest, hrc, hcop⟩ := h₁
    refine .modify (.modify ⟨⟨⟨fun _ => rfl, fun _ _ => rfl, fun _ => rfl, fun _ => rfl⟩,
      fun hf => ?_⟩, hrc, by rw [hsrc], by rw [hsrc], hdest, by rw [hsrc]; exact fun _ => id, rfl⟩)
    obtain ⟨hcop, h1⟩ := hcop (hrc ▸ hf)
    exact ⟨hcop.restart s₁.bk rfl h1, fun hlt => absurd hlt (by dsimp only; omega)⟩
  · have hstale : s.src.stale = false := by simpa using hstale
    refine .modify ⟨⟨⟨h.src.fresh, fun _ _ => hstale, fun _ => hstale, h.src.quiet⟩, fun hf => ?_⟩,
      rfl, rfl, rfl, rfl, fun _ => id, hstale⟩
    have hc := (h.copying hf).1
    exact ⟨{ hc with }, (h.copying hf).2⟩

/-! ## Copying -/

/-- The source is the same, except that its codec may have failed. -/
structure State.SameSrc (w : World) (s s' : State) : Prop where
  src : s'.src = { s.src with codecError := s'.src.codecError }
  error : s'.src.codecError = false → s.src.codecError = false
  intact : s.src.Intact w → s'.src.Intact w

theorem State.SameSrc.refl (s : State) : s.SameSrc w s := ⟨rfl, id, id⟩

theorem State.SameSrc.trans {s₁ s₂ s₃ : State} (h : s₁.SameSrc w s₂) (h' : s₂.SameSrc w s₃) :
    s₁.SameSrc w s₃ :=
  ⟨by rw [h'.src, h.src], fun he => h.error (h'.error he), fun hw => h'.intact (h.intact hw)⟩

theorem State.SameSrc.inv (h : s.SameSrc w s') (hs : s.src.Inv) : s'.src.Inv := by
  rw [h.src]
  exact { hs with }

theorem State.SameSrc.seen (h : s.SameSrc w s') : s'.src.seen = s.src.seen := by
  rw [h.src]

theorem State.SameSrc.stored (h : s.SameSrc w s') : s'.src.stored = s.src.stored := by
  rw [h.src]

abbrev State.Dead (w : World) (s : State) (e : ResultCode) (s' : State) : Prop :=
  isFailure e = true ∧ s.SameSrc w s'

theorem srcGet_wlp (n : Nat) :
    wlp (srcGet w n) (fun data s' => s.SameSrc w s' ∧ s'.dest = s.dest ∧ s'.bk = s.bk ∧
      (s'.src.codecError = false → data = s.src.seen.page n)) (s.Dead w) s := by
  refine .bind (request_wlp (fun _ => .read ?_) fun e he => ⟨he, .refl s⟩)
  refine .ite ⟨fun _ => ⟨.refl s, rfl, rfl, fun _ => rfl⟩, fun hread => .ite
    ⟨fun hbad => ?_, fun _ => ⟨.refl s, rfl, rfl, fun _ => rfl⟩⟩⟩
  refine .write (.pure ⟨⟨rfl, nofun, fun hw => ?_⟩, rfl, rfl, nofun⟩)
  have := hw.1
  have := hw.2 n
  simp_all

/-- The size that is patched into page 1 is there already. -/
theorem Image.patched_page (img : Image) (hn : 1 ≤ n) (hle : n ≤ img.nPage) (j : Nat) :
    patched (some img.nPage) ((n - 1) * img.pageSize) (img.page n) j = img.page n j := by
  unfold patched
  dsimp only
  split
  · next h0 =>
    have hn1 : n = 1 := by
      have := img.valid.pos
      rcases Nat.mul_eq_zero.mp h0 with h | h <;> omega
    subst hn1
    unfold Content.put4byte
    split
    · next hj =>
      rw [← img.sizeField (by omega) (j - 28) (by omega)]
      congr 1
      omega
    · rfl
  · rfl

structure State.Ready (s : State) : Prop extends Copying s where
  locked : s.bk.bDestLocked = true
  quiet : s.src.stored = s.src.seen.stored

structure State.SameStep (w : World) (s s' : State) : Prop extends SameSrc w s s' where
  codec : s'.dest.codec = s.dest.codec
  rc : s'.bk.rc = s.bk.rc
  attached : s'.bk.isAttached = s.bk.isAttached

theorem State.SameStep.trans {s₁ s₂ s₃ : State} (h : s₁.SameStep w s₂) (h' : s₂.SameStep w s₃) :
    s₁.SameStep w s₃ :=
  ⟨h.toSameSrc.trans h'.toSameSrc, h'.codec.trans h.codec, h'.rc.trans h.rc,
    h'.attached.trans h.attached⟩

theorem copyNext_wlp (h : s.Ready) (hn : s.bk.iNext = n) (hle : n ≤ s.src.seen.nPage) :
    wlp (copyNext w n) (fun _ s' => s'.Ready ∧ s'.bk.iNext = n + 1 ∧ s.SameStep w s') (s.Dead w)
      s := by
  have h1 : 1 ≤ n := hn ▸ h.pos
  refine .bind (.attempt (.read (.ite ⟨fun hpend => ?_, fun hpend => ?_⟩)))
  · refine .write (.pure ⟨⟨⟨Nat.le_add_left 1 n, fun hb => ?_, h.opened,
      h.valid, h.header, fun m c hm hlt hc => ?_⟩, h.locked, h.quiet⟩, rfl,
      ⟨{ SameSrc.refl s with }, rfl, rfl, rfl⟩⟩)
    · exact absurd h.locked (by simpa using hb)
    · have hm' := Image.stored_eq_some (h.quiet ▸ hc)
      have hmn : m ≠ n := fun he => hm'.2.2.1 (he ▸ hpend)
      refine h.copied m c hm ?_ hc
      dsimp only at hlt
      omega
  · refine .bind (.mono (srcGet_wlp n) (fun data s₁ hs₁ => ?_) fun e s₁ he =>
      .write ⟨he.1, { he.2 with }⟩)
    obtain ⟨hsame, hdest, hbk, hdata⟩ := hs₁
    refine wp_onPart.mpr ?_
    rw [hdest]
    refine .mono (backupOnePage_wlp s.src.seen.valid h.valid) (fun _ d' hd => ?_) fun e d' he =>
      .write ⟨he, { hsame with }⟩
    refine .write (.pure ⟨⟨⟨Nat.le_add_left 1 n, fun hb => ?_, fun _ =>
      hd.frame.opened (h.opened h.locked), ?_, fun hb => ?_, fun m c hm hlt hc => ?_⟩, ?_, ?_⟩, rfl,
      ?_⟩)
    · exact absurd h.locked (by simpa [hbk] using hb)
    · dsimp only
      rw [hd.frame.pageSize]
      exact h.valid
    · exact absurd h.locked (by simpa [hbk] using hb)
    · dsimp only at hlt hc ⊢
      rw [hsame.seen]
      rw [hsame.stored] at hc
      by_cases hmn : m = n
      · subst hmn
        have hpage := (Image.stored_eq_some (h.quiet ▸ hc)).2.2.2
        refine hd.agrees fun hok j _ => ?_
        rw [hdata hok, s.src.seen.patched_page hm hle, hpage]
      · exact (h.copied m c hm (by omega) hc).mono hsame.error hd hm h1 hmn
    · exact hbk ▸ h.locked
    · dsimp only
      rw [hsame.stored, hsame.seen]
      exact h.quiet
    · exact ⟨{ hsame with }, hd.frame.codec, by rw [hbk], by rw [hbk]⟩

theorem copyPages_wlp (h : s.Ready) (nPage : Int) :
    wlp (copyPages w nPage) (fun _ s' => s'.Ready ∧ s.SameStep w s') (s.Dead w) s := by
  have hloop : ∀ (k : Nat) (s₁ : State), s₁.Ready → s₁.bk.iNext + k ≤ s₁.src.seen.nPage + 1 →
      wlp (forEach (copyNext w) (List.range' s₁.bk.iNext k))
        (fun _ s' => s'.Ready ∧ s₁.SameStep w s') (s₁.Dead w) s₁ := by
    intro k
    induction k with
    | zero => exact fun s₁ h₁ _ => ⟨h₁, ⟨.refl s₁, rfl, rfl, rfl⟩⟩
    | succ k ih =>
      intro s₁ h₁ hle
      refine .seq (copyNext_wlp h₁ rfl (by omega)) fun _ s₂ h₂ => ?_
      obtain ⟨hready, hnext, hsame⟩ := h₂
      rw [← hnext]
      refine .mono (ih s₂ hready ?_) (fun _ s₃ h₃ => ⟨h₃.1, hsame.trans h₃.2⟩) fun e s₃ h₃ =>
        ⟨h₃.1, hsame.toSameSrc.trans h₃.2⟩
      rw [hsame.seen]
      omega
  refine .read ?_
  have hrounds : rounds nPage s.bk.iNext s.src.seen.nPage ≤ s.src.seen.nPage + 1 - s.bk.iNext := by
    unfold rounds
    split
    · exact le_rfl
    · exact Nat.min_le_right _ _
  by_cases hle : s.bk.iNext ≤ s.src.seen.nPage + 1
  · exact hloop _ s h (by omega)
  · have h0 : rounds nPage s.bk.iNext s.src.seen.nPage = 0 := by omega
    rw [h0]
    exact ⟨h, ⟨.refl s, rfl, rfl, rfl⟩⟩

/-! ## The step -/

/-- A failure ends the backup, or it has changed nothing that matters. -/
theorem openDest_wlp (h : s.Copying) (hatt : s.Attached) (hq : s.src.stored = s.src.seen.stored) :
    wlp (openDest w) (fun _ s' => s'.Ready ∧ s'.src = s.src ∧ s'.dest.codec = s.dest.codec)
      (fun e s' => s'.src = s.src ∧ e ≠ .done ∧ (isFatalError e = true ∨ s'.Copying ∧ s'.Attached))
      s := by
  refine .read (.when ⟨fun hb => ?_, fun hb => ?_⟩)
  · refine .bind (lock_wlp ?_ fun _ he => ⟨rfl, he, .inr ⟨h, hatt⟩⟩)
    refine .bind (wp_onPart.mpr (.mono (lockDest_wlp s.src.seen.valid h.valid (h.header hb))
      (fun schema d' hd => ?_) fun e d' he => ⟨rfl, he.1, he.2.imp_right fun hd => ?_⟩))
    · have h1 := h.unlocked hb
      refine .modify ⟨⟨⟨h.pos, fun hb' => absurd hb' (by simp), fun _ => hd.1, hd.1.valid,
        fun hb' => absurd hb' (by simp), fun n c hn hlt => absurd hlt (by dsimp only; omega)⟩, rfl,
        hq⟩, rfl, hd.2⟩
    · refine ⟨⟨h.pos, h.unlocked, fun hb' => absurd hb' (by simp [hb]), hd.1, fun _ => hd.2,
        fun n c hn hlt => absurd hlt ?_⟩, hatt⟩
      have := h.unlocked hb
      dsimp only
      omega
  · exact ⟨⟨h, by simpa using hb, hq⟩, rfl, rfl⟩

instance {σ : Type} {I : σ → Prop} : Kept I (request w call) := by
  unfold request
  split <;> infer_instance

instance {α : Type} {x : D α} : Kept (s₀.SameSrc w) (onDest x) := ⟨fun _ hs => wp_onPart.mpr
  (.mono wlp_trivial (fun _ _ _ => { hs with }) fun _ _ _ => { hs with })⟩

instance : Kept (s₀.SameSrc w) (srcGet w n) := ⟨fun _ hs =>
  .mono (srcGet_wlp n) (fun _ _ h => hs.trans h.1) fun _ _ h => hs.trans h.2⟩

theorem keeps_finish (n : Nat) : Keeps (s₀.SameSrc w) (finish w n) := by
  unfold finish finishCommit finishLarger finishSmaller copyExtra
  exact Kept.keeps

theorem allFatal_srcGet (w : World) (n : Nat) : AllFatal (srcGet w n) := fun _ _ =>
  .mono (srcGet_wlp n) (fun _ _ _ => trivial) fun _ _ h => h.1

theorem allFatal_finish (w : World) (n : Nat) : AllFatal (finish w n) := by
  have hpage1 (call : PageCall) (g : Dest → Content → Content) : AllFatal (onDest (do
      request w call
      modifyPage1 g)) := .onPart (.bind (allFatal_request w _) fun _ => allFatal_modifyPage1 _)
  have hmodify (call : PageCall) (f : Dest → Dest) : AllFatal (onDest (do
      request w call
      modify f)) := .onPart (.bind (allFatal_request w _) fun _ => .modify fun _ => id)
  refine .bind (.when (hpage1 _ _)) fun _ => .bind .get fun s => .bind (hpage1 _ _) fun _ =>
    .bind (.when (hpage1 _ _)) fun _ => .ite ?_ ?_
  · exact .bind .get fun s => .bind (.onPart (allFatal_journalRest w _)) fun _ =>
      .bind (.onPart (allFatal_commitPhaseOne w)) fun _ =>
      .bind (.forEach fun off _ => .bind (allFatal_srcGet w _) fun _ => hmodify _ _) fun _ =>
      .bind (hmodify _ _) fun _ => .bind (allFatal_request w _) fun _ => hmodify _ _
  · exact .bind .get fun s => .bind (.onPart (.modify fun _ => id)) fun _ =>
      .bind (.onPart (allFatal_commitPhaseOne w)) fun _ => hmodify _ _

/-- What one call does, `opened` being the state in which the read transaction on the source is
open. -/
structure Stepped (w : World) (opened : State) (rc : ResultCode) (s' : State) : Prop where
  same : opened.SameSrc w s'
  notBusy : rc = .ok ∨ rc = .done
  more : rc = .ok → s'.Copying ∧ s'.Attached
  done : rc = .done → ∃ s₁ : State, s₁.Ready ∧ opened.SameSrc w s₁ ∧
    s₁.dest.codec = opened.dest.codec ∧ s₁.src.seen.nPage < s₁.bk.iNext ∧
    finish w s₁.src.seen.nPage s₁ = some (.ok (), s')

/-- The read transaction that the call works in: its own, or the one that is open. -/
structure State.Opened (s opened : State) : Prop where
  inv : opened.Inv
  rc : opened.bk.rc = s.bk.rc
  writing : opened.src.writing = false
  current : opened.src.current = s.src.current
  dest : opened.dest = s.dest
  intact : ∀ w, s.src.Intact w → opened.src.Intact w
  fresh : opened.src.stale = false ∨ s.src.reading = true ∧ opened = s

theorem stepBody_wlp (h : s.Inv) (hrc : isFatalError s.bk.rc = false) (nPage : Int) :
    wlp (stepBody w nPage) (fun rc s' => ∃ opened, s.Opened opened ∧ Stepped w opened rc s')
      (fun e s' => s'.src.Inv ∧ e ≠ .done ∧
        (isFatalError e = true ∨ s'.Copying ∧ s'.Attached)) s := by
  refine .read (.ite ⟨fun _ => ⟨h.src, nofun, .inr (h.copying hrc)⟩, fun hwr => ?_⟩)
  have hwr : s.src.writing = false := by simpa using hwr
  refine .bind (.post (Q := fun _ => s.Opened) (.when ⟨fun hread => ?_, fun hread => ?_⟩)
    fun _ s₁ h₁ => ?_)
  · refine .bind (lock_wlp ?_ fun _ he => ⟨h.src, he, .inr (h.copying hrc)⟩)
    refine .sure (beginRead_wlp h) fun _ s₁ h₁ => ?_
    obtain ⟨hinv, hrc₁, hwr₁, hcurrent, hdest, hintact, hstale⟩ := h₁
    exact ⟨hinv, hrc₁, hwr₁.trans hwr, hcurrent, hdest, hintact, .inl hstale⟩
  · exact ⟨h, rfl, hwr, rfl, rfl, fun _ => id, .inr ⟨by simpa using hread, rfl⟩⟩
  obtain ⟨hcop, hatt⟩ := h₁.inv.copying (h₁.rc ▸ hrc)
  refine .bind (.mono (openDest_wlp hcop hatt (h₁.inv.src.quiet h₁.writing))
    (fun _ s₂ h₂ => ?_) fun e s₂ h₂ => ⟨h₂.1 ▸ h₁.inv.src, h₂.2⟩)
  obtain ⟨hready, hsrc, hcodec₂⟩ := h₂
  have hsame₂ : s₁.SameSrc w s₂ := ⟨by rw [hsrc], by rw [hsrc]; exact id, by rw [hsrc]; exact id⟩
  refine .read (.ite ⟨fun _ => ⟨hsame₂.inv h₁.inv.src, nofun, .inl rfl⟩, fun _ => ?_⟩)
  refine .bind (.mono (copyPages_wlp hready nPage) (fun _ s₃ h₃ => ?_) fun e s₃ h₃ =>
    ⟨(hsame₂.trans h₃.2).inv h₁.inv.src, ends_of_isFailure h₃.1⟩)
  have hsame₃ := hsame₂.trans h₃.2.toSameSrc
  refine .read (.ite ⟨fun hlt => ?_, fun _ => ?_⟩)
  · refine .bind (.mono (wp_and (wp_and wlp_self (keeps_finish _ s₃ hsame₃))
      (allFatal_finish w _ s₃ trivial)) (fun _ s₄ h₄ => ?_) fun e s₄ h₄ => ?_)
    · exact ⟨s₁, h₁, h₄.1.2, .inr rfl, nofun, fun _ => ⟨s₃, h₃.1, hsame₃, h₃.2.codec.trans hcodec₂,
      hlt, h₄.1.1⟩⟩
    · exact ⟨h₄.1.2.inv h₁.inv.src, ends_of_isFailure h₄.2⟩
  · refine .write (.pure ⟨s₁, h₁, { hsame₃ with }, .inl rfl,
      fun _ => ⟨?_, fun _ => rfl⟩, nofun⟩)
    have hc := h₃.1.toCopying
    exact { hc with }

end SqlCipher.Backup
