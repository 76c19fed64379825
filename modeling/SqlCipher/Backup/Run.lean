import SqlCipher.Backup.Finish
import SqlCipher.Codec.Unlocked

/-!
# Runs of a backup

Every operation keeps the invariant (`Op.run_inv`), so a step that is done finds all pages copied as
the connection of the source sees them. That is the last committed state, unless a read transaction
on a write-ahead log was open before.

If a codec of the destination has a larger reserve than the source, the end of each page is lost. A
page of the source that cannot be decrypted is copied as zeros.
-/

namespace SqlCipher.Backup

open Proc Option State

/-! ## The last step -/

variable {s : State} {w : World}

structure Completed (w : World) (s s' : State) : Prop where
  received : s.dest.Fits s'.src.seen → s.src.Intact w → s.dest.Received s'.dest s'.src.seen
  current : s.src.reading = false ∨ s.src.wal = false → s'.src.seen = s.src.current

theorem Stepped.completed (h : Stepped w opened .done s') (hs : s.Inv) (ho : s.Opened opened) :
    Completed w s s' := by
  obtain ⟨s₁, hready, hsame, hcodec, hnext, hrun⟩ := h.done rfl
  have hseen : s'.src.seen = s₁.src.seen := h.same.seen.trans hsame.seen.symm
  rw [ho.dest] at hcodec
  refine ⟨fun hfits hintact => ?_, fun hfresh => ?_⟩
  · rw [hseen] at hfits ⊢
    have hopen := ho.intact w hintact
    have hfits₁ : s₁.dest.Fits s₁.src.seen := fun codec hmem => hfits codec (hcodec ▸ hmem)
    have hr := of_wp_ok (finish_wlp hready hfits₁ (hsame.intact hopen).1 hnext) hrun
      (h.same.intact hopen).1
    exact ⟨hr.codec.trans hcodec, hcodec ▸ hr.codecSize, hr.holds⟩
  · have hstale : opened.src.stale = false := by
      rcases ho.fresh with hstale | ⟨hreading, rfl⟩
      · exact hstale
      · exact hs.src.locked hreading (hfresh.resolve_left (by simp [hreading]))
    rw [h.same.seen, ho.inv.src.fresh hstale, ho.current]

/-- The backup only looks at what the connection of the source sees and has stored. -/
theorem State.Inv.of_src (h : s.Inv) {src : Source} (hsrc : src.Inv) (hseen : src.seen = s.src.seen)
    (hstored : src.stored = s.src.stored) (herr : src.codecError = s.src.codecError) :
    ({ s with src := src } : State).Inv := by
  refine ⟨hsrc, fun hrc => ⟨?_, (h.copying hrc).2⟩⟩
  have hc := (h.copying hrc).1
  refine { hc with copied := ?_ }
  dsimp only
  rw [hseen, hstored, herr]
  exact hc.copied

theorem backupStep_wlp (h : s.Inv) (nPage : Int) :
    wlp (backupStep w nPage) (fun rc s' => s'.Inv ∧
      (isFatalError s.bk.rc = false → rc = .done → Completed w s s')) (fun _ _ => False) s := by
  refine .read (.ite ⟨fun hf => ⟨h, fun hrc => by simp [hf] at hrc⟩, fun hrc => ?_⟩)
  have hrc : isFatalError s.bk.rc = false := by simpa using hrc
  -- the end of the read transaction and the new result
  have hend : ∀ (rc : ResultCode) (s₁ : State), s₁.src.Inv →
      (isFatalError rc = true ∨ s₁.Copying ∧ s₁.Attached) → (rc = .done → Completed w s s₁) →
      wlp (when (s.src.writing = false ∧ s.src.reading = false) endRead >>= fun _ => do
          modify fun s => { s with bk := { s.bk with rc := rc } }
          return rc : M ResultCode)
        (fun rc s' => s'.Inv ∧ (isFatalError s.bk.rc = false → rc = .done → Completed w s s'))
        (fun _ _ => False) s₁ := by
    intro rc s₁ hsrc hcop hdone
    have hs : ({ s₁ with bk := { s₁.bk with rc := rc } } : State).Inv :=
      ⟨hsrc, fun hf => (hcop.resolve_left (by simpa using hf)).imp_left fun hc => { hc with }⟩
    refine .bind (.when ⟨fun _ => .modify (.write (.pure ⟨?_, ?_⟩)),
      fun _ => .write (.pure ⟨hs, ?_⟩)⟩)
    · exact hs.of_src { hsrc with locked := nofun } rfl rfl rfl
    all_goals exact fun _ he => ⟨(hdone he).received, (hdone he).current⟩
  refine .bind (.attempt (.mono (stepBody_wlp h hrc nPage) (fun rc s₁ h₁ => ?_)
    fun e s₁ h₁ => hend e s₁ h₁.1 h₁.2.2 fun he => absurd he h₁.2.1))
  obtain ⟨opened, ho, hstep⟩ := h₁
  refine hend rc s₁ (hstep.same.inv ho.inv.src) ?_ fun he => ?_
  · rcases hstep.notBusy with rfl | rfl
    · exact .inr (hstep.more rfl)
    · exact .inl rfl
  · subst he
    exact hstep.completed h ho

/-! ## Operations -/

theorem State.Copying.settle (h : s.Copying) {src : Source}
    (hps : src.seen.pageSize = s.src.seen.pageSize) (hstored : src.stored = src.seen.stored)
    (herr : src.codecError = s.src.codecError) (hset : s.src.Settled src.seen) :
    ({ s with src := src } : State).Copying := by
  refine { h with copied := fun n c hn hlt hc => ?_ }
  dsimp only at hc ⊢
  rw [hstored] at hc
  obtain ⟨-, hle, hpend, rfl⟩ := Image.stored_eq_some hc
  rw [hps, herr]
  exact h.copied n _ hn hlt (hset n hn hle hpend)

theorem writeOut_inv (h : s.Inv) (ha : (Op.writeOut w n data).Allowed s) :
    wlp (Op.writeOut w n data).run (fun _ => Inv) (fun _ => Inv) s := by
  obtain ⟨hwr, hn, -⟩ := ha
  refine .write (backupUpdate_wlp ?_ hn (if_pos rfl) fun hrc => ?_)
  · exact { h.src with quiet := fun hno => absurd hwr (by simpa using hno) }
  · obtain ⟨hc, hatt⟩ := h.copying hrc
    refine ⟨hatt, fun stored hsame hnone => { hc with copied := ?_ }⟩
    intro m c hm hlt (hstored : stored m = some c)
    have hmn : m ≠ n := by
      rintro rfl
      rw [hnone] at hstored
      cases hstored
    have hold : s.src.stored m = some c := by
      rw [← hstored, hsame m hmn]
      exact (if_neg hmn).symm
    exact hc.copied m c hm hlt hold

theorem settle_inv {f : Source → Source} (h : s.Inv) (hsrc : (f s.src).Inv)
    (hstored : (f s.src).stored = (f s.src).seen.stored)
    (herr : (f s.src).codecError = s.src.codecError) (hset : restarted = true ∨
      (f s.src).seen.pageSize = s.src.seen.pageSize ∧ s.src.Settled (f s.src).seen) :
    wlp (when (restarted = true) backupRestart >>= fun _ => modify
      fun s => { s with src := f s.src })
      (fun _ => Inv) (fun _ => Inv) s := by
  refine .bind (.when ⟨fun _ => ?_, fun hno => .modify ⟨hsrc, fun hrc => ?_⟩⟩)
  · refine .sure (backupRestart_wlp h) fun _ s₁ h₁ => .modify ?_
    obtain ⟨hsame, -, hrc₁, hcop⟩ := h₁
    rw [hsame]
    refine ⟨hsrc, fun hrc => ?_⟩
    obtain ⟨hc, h1⟩ := hcop (hrc₁ ▸ hrc)
    exact ⟨hc.restart s₁.bk rfl h1, fun hlt => absurd hlt (by dsimp only; omega)⟩
  · obtain ⟨hps, hset⟩ := hset.resolve_left hno
    exact ⟨(h.copying hrc).1.settle hps hstored herr hset, (h.copying hrc).2⟩

theorem Op.run_inv {op : Op} (h : s.Inv) (ha : op.Allowed s) :
    wlp op.run (fun _ => Inv) (fun _ => Inv) s := by
  cases op with
  | step w nPage =>
    exact .bind (.sure (backupStep_wlp h nPage) fun _ _ h' => h'.1)
  | beginRead =>
    refine .read (.when ⟨fun _ => ?_, fun _ => h⟩)
    exact .sure (beginRead_wlp h) fun _ _ h' => h'.1
  | endRead =>
    refine .modify (h.of_src ?_ rfl rfl rfl)
    exact { h.src with locked := nofun }
  | beginWrite =>
    have hwrite : ∀ s₁ : State, s₁.Inv → s₁.src.stale = false →
        ({ s₁ with src := { s₁.src with writing := true } } : State).Inv := fun s₁ h₁ hstale =>
      h₁.of_src ⟨h₁.src.fresh, h₁.src.locked, fun _ => hstale, nofun⟩ rfl rfl rfl
    refine .read (.bind (.when ⟨fun _ => ?_, fun hread => ?_⟩))
    · exact .sure (beginRead_wlp h) fun _ s₁ h₁ => hwrite s₁ h₁.1 h₁.2.2.2.2.2.2
    · exact hwrite s h (ha.2 (by simpa using hread))
  | writeOut w n data => exact writeOut_inv h ha
  | commit img restarted =>
    exact settle_inv (f := fun src => { src with
      writing := false, current := img, seen := img, stored := img.stored }) h
      ⟨fun _ => rfl, h.src.locked, nofun, fun _ => rfl⟩ rfl rfl ha.2
  | rollback restarted =>
    exact settle_inv (f := fun src => { src with writing := false, stored := src.seen.stored }) h
      ⟨h.src.fresh, h.src.locked, nofun, fun _ => rfl⟩ rfl rfl
      (ha.2.imp_right fun hset => ⟨rfl, hset⟩)
  | restart =>
    refine .sure (backupRestart_wlp h) fun _ s₁ h₁ => ?_
    obtain ⟨hsame, -, hrc₁, hcop⟩ := h₁
    refine ⟨hsame ▸ h.src, fun hrc => ?_⟩
    obtain ⟨hc, h1⟩ := hcop (hrc₁ ▸ hrc)
    exact ⟨hc, fun hlt => absurd hlt (by omega)⟩
  | foreign img =>
    refine .modify (h.of_src ?_ rfl rfl rfl)
    refine ⟨nofun, fun hread hwal => ?_, fun hwr => ?_, h.src.quiet⟩
    · rcases ha.2 with hyes | hno
      · exact absurd hwal (by simpa using hyes)
      · exact absurd hread (by simpa using hno)
    · exact absurd ha.1 (by simpa using hwr)

/-! ## Runs -/

theorem State.Start.inv (h : s.Start) : s.Inv := by
  refine ⟨⟨fun _ => h.seen, fun _ _ => h.fresh, fun _ => h.fresh, fun _ => h.stored⟩,
    fun _ => ⟨⟨h.iNext.ge,
    fun _ => h.iNext, fun hb => ?_, h.pageSize, fun _ => h.headerSize, fun n c hn hlt => ?_⟩,
    fun hlt => ?_⟩⟩
  · exact absurd hb (by simp [h.unlocked])
  · exact absurd hlt (by rw [h.iNext]; omega)
  · exact absurd hlt (by rw [h.iNext]; omega)

theorem exec_inv (h : s₀.Start) (hops : Run.Along step Op.Allowed s₀ ops)
    (hrun : Run.exec step s₀ ops = some s) : s.Inv := by
  refine Run.exec_invariant (fun s₁ op s₂ h₁ ha hstep => ?_) h.inv hops hrun
  obtain ⟨⟨r, s'⟩, hr, rfl⟩ := map_eq_some_iff.mp hstep
  exact of_wp (Op.run_inv h₁ ha) hr

theorem exec_completed (h : s₀.Start) (hops : Run.Along step Op.Allowed s₀ ops)
    (hrun : Run.exec step s₀ ops = some s) (hrc : isFatalError s.bk.rc = false)
    (hdone : backupStep w nPage s = some (.ok .done, s')) : Completed w s s' :=
  (of_wp_ok (backupStep_wlp (exec_inv h hops hrun) nPage) hdone).2 hrc rfl

theorem fits_of_some {d : Dest} (hcodec : d.codec = some codec)
    (hpage : codec.pageSz = img.pageSize) (hres : codec.reserve ≤ img.reserve) : d.Fits img := by
  intro codec' hmem
  obtain rfl := Option.mem_unique hcodec hmem
  exact ⟨hpage, hres⟩

/-- A step that is done leaves the destination as the last committed state of the source. -/
theorem backup_consistent {s₀ s' : State} {ops : List Op} {nPage : Int} (h : s₀.Start)
    (hops : Run.Along step Op.Allowed s₀ ops) (hrun : Run.exec step s₀ ops = some s)
    (hrc : isFatalError s.bk.rc = false) (hdone : backupStep w nPage s = some (.ok .done, s'))
    (hfits : s.dest.Fits s.src.current) (hintact : s.src.Intact w)
    (hfresh : s.src.reading = false ∨ s.src.wal = false) : s'.dest.Holds s.src.current := by
  have hcompleted := exec_completed h hops hrun hrc hdone
  rw [← hcompleted.current hfresh] at hfits ⊢
  exact (hcompleted.received hfits hintact).holds

def Content.toy : Content := fun j =>
  if j < fileHeaderSz then magic j else if 28 ≤ j ∧ j < 32 then byte4 1 (j - 28) else 7

/-- A database with one page of 1024 bytes, of which 16 are reserved for an initialization vector.
-/
def Image.toy : Image where
  pageSize := 1024
  reserve := 16
  nPage := 1
  page := fun _ => .toy
  valid := ⟨10, by decide, by decide, rfl⟩
  usable := by decide
  magic := fun _ j hj => if_pos hj
  sizeField := fun _ k hk => by
    have hout : ¬ 28 + k < fileHeaderSz := by
      unfold fileHeaderSz
      omega
    rw [Content.toy, if_neg hout, if_pos (by omega), Nat.add_sub_cancel_left]
  ne_pending := by decide

def PageCodec.toy (reserve : Nat) : PageCodec where
  pageSz := 1024
  reserve := reserve
  encode := fun _ _ c j => if j < 1024 - reserve then c j else 0xff
  decode := fun _ raw => some raw
  decode_encode := fun _ _ c raw _ hraw => ⟨raw, rfl, fun j hj => by
    rw [hraw j (by omega), if_pos hj]⟩

/-- The source is encrypted without a MAC; the destination is an empty file with another codec. -/
def State.toy (reserve : Nat) : State where
  src :=
    { current := .toy, seen := .toy, stale := false, wal := false, reading := false,
      writing := false
      stored := Image.toy.stored, keyed := true, codecError := false }
  dest :=
    { pageSize := 1024, fixed := false, headerSize := none, reserve := reserve,
      reserveWanted := reserve
      nReserve := reserve, codec := some (.toy reserve), codecError := false, wal := false
      memDb := false, autoVacuum := false, incrVacuum := false, file := fun _ => 0, fileSize := 0
      dbSize := 0, dbFileSize := 0, cache := fun _ => none }
  bk := { iNext := 1, rc := .ok, bDestLocked := false, isAttached := false, iDestSchema := 0 }

theorem State.toy_start (reserve : Nat) : (toy reserve).Start :=
  ⟨rfl, rfl, rfl, rfl, rfl, rfl, rfl, rfl, rfl, rfl, ⟨10, by decide, by decide, rfl⟩, nofun⟩

def World.toy : World where
  lock := fun _ => none
  fault := fun _ => none
  spill := fun _ => []
  nonce := fun _ => 0
  counter := 1
  cached := fun _ => false
  bad := fun _ => false

theorem State.toy_intact : (toy reserve).src.Intact .toy := ⟨rfl, fun _ => .inr (.inr rfl)⟩

/-- A step that is done, and the byte where a reserve of 80 would start. -/
theorem exists_of_outcome {b : UInt8} {x : Option (Except ResultCode ResultCode × State)}
    (h : x.map (fun r => (r.1.toOption, r.2.dest.committed 944, r.2.dest.raw 1 944)) =
      some (some .done, some b, b)) :
    ∃ s' : State, x = some (.ok .done, s') ∧ s'.dest.committed 944 = some b ∧
      s'.dest.raw 1 944 = b := by
  obtain ⟨⟨r, s'⟩, rfl, hview⟩ := map_eq_some_iff.mp h
  obtain ⟨hr, hbytes⟩ := Prod.mk.inj hview
  cases r with
  | error e => cases hr
  | ok rc => exact ⟨s', by rw [some.inj hr], Prod.mk.inj hbytes⟩

theorem State.toy_done : ∃ s', backupStep .toy (-1) (.toy 16) = some (.ok .done, s') :=
  (exists_of_outcome (b := 7) (by decide +kernel)).imp fun _ h => h.1

theorem State.toy_lost : ∃ s', backupStep .toy (-1) (.toy 80) = some (.ok .done, s') ∧
    s'.dest.committed 944 = some 0xff ∧ s'.dest.raw 1 944 = 0xff :=
  exists_of_outcome (by decide +kernel)

theorem backup_consistent_toy : ∃ s' : State,
    backupStep .toy (-1) (.toy 16) = some (.ok .done, s') ∧ s'.dest.Holds .toy := by
  obtain ⟨s', hrun⟩ := toy_done
  have hfits : (toy 16).dest.Fits .toy := fits_of_some rfl rfl le_rfl
  have hops : Run.Along step Op.Allowed (toy 16) [] := trivial
  exact ⟨s', hrun, backup_consistent (toy_start 16) hops rfl rfl hrun hfits toy_intact (.inl rfl)⟩

/-- The reserve of the codec is larger than that of the source: the end of the page is lost. -/
theorem not_backup_consistent : ¬ ∀ (s₀ s s' : State) (ops : List Op) (w : World) (nPage : Int),
    s₀.Start → Run.Along step Op.Allowed s₀ ops → Run.exec step s₀ ops = some s →
    isFatalError s.bk.rc = false → backupStep w nPage s = some (.ok .done, s') →
    s'.dest.Holds s.src.current := by
  intro hall
  obtain ⟨s', hrun, hbyte, -⟩ := toy_lost
  have hholds := hall (.toy 80) (.toy 80) s' [] .toy (-1) (toy_start 80) trivial rfl rfl hrun
  have hpage := hholds.page 1 le_rfl le_rfl (by decide) 944 (by decide) fun _ => by simp [Header]
  have hlost : some (0xff : UInt8) = some 7 := hbyte.symm.trans hpage
  exact absurd hlost (by decide)

/-! ## Encrypted databases -/

/-- The last page numbers are never used. -/
def pgnoOf (n : Nat) : Pgno := .ofNat (min n (2 ^ 32 - 1))

theorem eq_one_of_pgnoOf (h : pgnoOf n = 1) : n = 1 := by
  have := congrArg UInt32.toNat h
  simp [pgnoOf] at this
  omega

theorem slice_magic (h : ∀ j < fileHeaderSz, c j = magic j) (hm : fileHeaderSz ≤ m) :
    Buffer.slice (stream c m) 0 fileHeaderSz = sqliteFileHeader := by
  have hmap : stream magic fileHeaderSz = sqliteFileHeader := by decide
  rw [Buffer.slice, List.drop_zero, stream, ← List.map_take, List.take_range, min_eq_left hm,
    ← hmap]
  exact List.map_congr_left fun j hj => h j (List.mem_range.mp hj)

/-- The codec of a context that has derived its keys, the same for reading and writing. -/
def PageCodec.ofCtx (p : Provider) (g : Globals) (ctx : CodecCtx) (env : Nat → Env)
    (h : ctx.Unlockable p) (hder : ctx.KeysDerived) (hkeys : ctx.SameKeys .write ctx .read)
    (henv : ∀ nonce, (env nonce).Fine) : PageCodec where
  pageSz := ctx.pageSz
  reserve := ctx.reserveSz
  encode nonce n c j := ((sqlite3Codec p g (env nonce) ctx (stream c ctx.pageSz) (pgnoOf n)
    .write).bind CodecResult.out).elim 0 fun img => img.getD j 0
  decode n raw := ((sqlite3Codec p g .allOk ctx (stream raw ctx.pageSz) (pgnoOf n) .read).bind
    CodecResult.out).map fun page j => page.getD j 0
  decode_encode := by
    intro nonce n c raw hmagic hraw
    have hP : (stream c ctx.pageSz).length = ctx.pageSz := length_stream _ _
    have he := henv nonce
    obtain ⟨rnd, hrnd⟩ := isSome_iff_exists.mp he.random
    have hfit : ctx.Fits (pgnoOf n) := h.wf.fits (.inr ⟨h.header, h.room⟩)
    obtain ⟨img, _, L, hwrite, henc⟩ := exists_encrypts (g := g) h.wf
      (show CodecOp.write.role? = _ from rfl) hP hfit (ready_of_derived h.error h.header hder)
      (salted_of_derivesKeys he.derivesKeys _ _) hrnd (he.providerOk ctx)
    have hs := (henc.stores_of_derived hder).transport (.refl ctx) hkeys
    rw [hwrite] at hraw
    have himg : stream raw ctx.pageSz = img := by
      refine List.ext_getElem ((length_stream _ _).trans hs.length.symm) fun j hj hj' => ?_
      simp [stream, hraw j (by simpa using hj), hj']
    have hpg : fileHeaderSz ≤ ctx.pageSz := (Nat.le_of_ble_eq_true rfl).trans h.wf.pageSz_ge
    obtain ⟨page, _, hread, -, -, huse⟩ := hs.sqlite3Codec_read h.wf h.error h.header hder hP
      (fun h1 _ => slice_magic (hmagic (eq_one_of_pgnoOf h1)) hpg) (Env.allOk_fine.providerOk ctx)
    refine ⟨fun j => page.getD j 0, by rw [himg, hread]; rfl, fun j hj => ?_⟩
    rw [hs.layout.usable_eq, hs.layout.usable_eq] at huse
    have hbyte : page[j]? = some (c j) := by
      simpa [CodecCtx.usable, Buffer.getElem?_slice, hj, stream, hj.trans_le (Nat.sub_le ..)]
        using congrArg (fun bs => bs[j]?) huse
    simp [hbyte]

theorem Dest.Holds.decode {d : Dest} {codec : PageCodec} (h : d.Holds img)
    (hcodec : d.codec = some codec) (hsize : d.pageSize = img.pageSize) (hi : 1 ≤ i)
    (hle : i ≤ img.nPage) (hpend : i ≠ pendingBytePage img.pageSize) :
    ∃ c, codec.decode i (d.raw i) = some c ∧
      ∀ j < img.pageSize - img.reserve, (i = 1 → ¬ Header j) → c j = img.page i j := by
  have hread : ∀ j < img.pageSize - img.reserve, (i = 1 → ¬ Header j) →
      (codec.decode i (d.raw i)).map (fun c => c j) = some (img.page i j) := by
    intro j hj hheader
    have hpage := h.page i hi hle hpend j hj hheader
    rw [Dest.committed, hsize, div_page _ (by omega), mod_page _ (by omega), Nat.sub_add_cancel hi]
      at hpage
    simpa only [Dest.plain, hcodec] using hpage
  obtain ⟨c, hc, -⟩ := map_eq_some_iff.mp (hread 0 (by have := img.usable; omega)
    fun _ => by simp [Header])
  refine ⟨c, hc, fun j hj hheader => ?_⟩
  have := hread j hj hheader
  rw [hc] at this
  exact some.inj this

/-- With pages of one size and a reserve that is not larger, each page decrypts to that of the
source. -/
theorem backup_decrypts {s₀ s' : State} {ops : List Op} {nPage : Int} {codec : PageCodec}
    (h : s₀.Start) (hops : Run.Along step Op.Allowed s₀ ops) (hrun : Run.exec step s₀ ops = some s)
    (hrc : isFatalError s.bk.rc = false) (hdone : backupStep w nPage s = some (.ok .done, s'))
    (hcodec : s.dest.codec = some codec) (hpage : codec.pageSz = s'.src.seen.pageSize)
    (hres : codec.reserve ≤ s'.src.seen.reserve) (hintact : s.src.Intact w) {i : Nat}
    (hi : 1 ≤ i) (hle : i ≤ s'.src.seen.nPage)
    (hpend : i ≠ pendingBytePage s'.src.seen.pageSize) :
    ∃ c, codec.decode i (s'.dest.raw i) = some c ∧
      ∀ j < s'.src.seen.pageSize - s'.src.seen.reserve, (i = 1 → ¬ Header j) →
        c j = s'.src.seen.page i j := by
  have hreceived := (exec_completed h hops hrun hrc hdone).received
    (fits_of_some hcodec hpage hres) hintact
  have hsize := (hreceived.codecSize codec hcodec).symm.trans hpage
  exact hreceived.holds.decode (hreceived.codec.trans hcodec) hsize hi hle hpend

theorem backup_decrypts_toy : ∃ (s' : State) (codec : PageCodec) (c : Content),
    backupStep .toy (-1) (.toy 16) = some (.ok .done, s') ∧ s'.dest.codec = some codec ∧
      codec.decode 1 (s'.dest.raw 1) = some c ∧ c 1000 = 7 := by
  obtain ⟨s', hrun⟩ := toy_done
  have hops : Run.Along step Op.Allowed (toy 16) [] := trivial
  have hcompleted := exec_completed (toy_start 16) hops rfl rfl hrun
  have hseen : s'.src.seen = .toy := hcompleted.current (.inl rfl)
  have hfits : (toy 16).dest.Fits s'.src.seen := hseen ▸ fits_of_some rfl rfl le_rfl
  obtain ⟨c, hc, hbytes⟩ := backup_decrypts (toy_start 16) hops rfl rfl hrun rfl
    (by rw [hseen]; rfl) (by rw [hseen]; exact le_rfl) toy_intact le_rfl
    (by rw [hseen]; exact le_rfl) (by rw [hseen]; decide)
  rw [hseen] at hbytes
  exact ⟨s', _, c, hrun, (hcompleted.received hfits toy_intact).codec, hc,
    hbytes 1000 (by decide) fun _ => by simp [Header]⟩

/-- A larger reserve takes the end of the page. -/
theorem not_backup_decrypts : ¬ ∀ (s₀ s s' : State) (ops : List Op) (w : World) (nPage : Int)
    (codec : PageCodec), s₀.Start → Run.Along step Op.Allowed s₀ ops →
    Run.exec step s₀ ops = some s → isFatalError s.bk.rc = false →
    backupStep w nPage s = some (.ok .done, s') → s.dest.codec = some codec →
    codec.pageSz = s'.src.seen.pageSize → s.dest.pageSize = s'.src.seen.pageSize →
    s.src.Intact w → ∀ i, 1 ≤ i → i ≤ s'.src.seen.nPage → i ≠ pendingBytePage s'.src.seen.pageSize →
    ∃ c, codec.decode i (s'.dest.raw i) = some c ∧
      ∀ j < s'.src.seen.pageSize - s'.src.seen.reserve, (i = 1 → ¬ Header j) →
        c j = s'.src.seen.page i j := by
  intro hall
  obtain ⟨s', hrun, -, hbyte⟩ := toy_lost
  have hops : Run.Along step Op.Allowed (toy 80) [] := trivial
  have hseen : s'.src.seen = .toy :=
    (exec_completed (toy_start 80) hops rfl rfl hrun).current (.inl rfl)
  obtain ⟨c, hc, hbytes⟩ := hall (.toy 80) (.toy 80) s' [] .toy (-1) _ (toy_start 80) hops rfl
    rfl hrun rfl (by rw [hseen]; rfl) (by rw [hseen]; rfl) toy_intact 1 le_rfl
    (by rw [hseen]; exact le_rfl) (by rw [hseen]; decide)
  rw [hseen] at hbytes
  have hseven : c 944 = 7 := hbytes 944 (by decide) fun _ => by simp [Header]
  rw [← some.inj hc, hbyte] at hseven
  exact absurd hseven (by decide)

end SqlCipher.Backup
