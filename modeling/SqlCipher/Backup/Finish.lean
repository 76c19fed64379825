import SqlCipher.Backup.Consistent

/-!
# The end of a backup

When all pages are copied, the destination gets a schema cookie and a change counter of its own, and
the size of the source. If its pages are larger than those of the source, then the file ends in the
middle of a page, and the pages of the source that lie behind the pending byte are written past the
pager.
-/

namespace SqlCipher.Backup

open Proc Dest

variable {a : Nat}

theorem div_last (hN : 1 ≤ N) (hk : 1 ≤ k) (hka : k ≤ a) : (N * a - k) / a = N - 1 := by
  have hsub : (N - 1) * a = N * a - a := by rw [Nat.sub_mul, Nat.one_mul]
  have hle := Nat.le_mul_of_pos_left a hN
  refine Nat.div_eq_of_lt_le (by omega) ?_
  rw [Nat.succ_mul]
  omega

variable {b n : Nat}

/-! ## The pages behind the pending byte -/

theorem pendingByte_div (hb : ValidPageSize b) (ha : ValidPageSize (b * r)) :
    pendingByte / b = r * (pendingByte / (b * r)) ∧
      r * (pendingByte / (b * r)) * b = pendingByte := by
  obtain ⟨q, hq⟩ := ha.dvd_pendingByte
  rw [hq, Nat.mul_div_cancel_left _ ha.pos, Nat.mul_assoc, Nat.mul_div_cancel_left _ hb.pos]
  exact ⟨rfl, Nat.mul_comm _ b⟩

theorem mem_extraOffsets (ha : ValidPageSize a) (hb : ValidPageSize b) (hab : a < b) :
    n * a ∈ extraOffsets a b N ↔
      n * a / b + 1 = pendingBytePage b ∧ n + 1 ≠ pendingBytePage a ∧ n < N := by
  obtain ⟨r, rfl⟩ := ha.dvd_of_le hb hab.le
  have hapos := ha.pos
  have hr : 1 < r := (Nat.lt_mul_iff_one_lt_right hapos).mp hab
  have hdiv : n * a / (a * r) = n / r := by
    rw [Nat.mul_comm n a]
    exact Nat.mul_div_mul_left n r hapos
  obtain ⟨hpa, hbound⟩ := pendingByte_div ha hb
  rw [pendingBytePage, pendingBytePage, hdiv, hpa]
  generalize pendingByte / (a * r) = q at *
  simp only [extraOffsets, List.mem_filter, List.mem_map, List.mem_range, decide_eq_true_eq,
    Nat.lt_min, Nat.mul_div_cancel_left r hapos]
  rw [← hbound]
  constructor
  · rintro ⟨⟨k, hk, hoff⟩, hlt, hN⟩
    have hn : n = r * q + (k + 1) := by
      rw [← Nat.add_mul] at hoff
      exact (Nat.eq_of_mul_eq_mul_right hapos hoff).symm
    have hN : n < N := by
      rw [Nat.mul_comm a N] at hN
      exact Nat.lt_of_mul_lt_mul_right hN
    refine ⟨?_, by omega, hN⟩
    rw [hn, Nat.mul_add_div (by omega), Nat.div_eq_of_lt (by omega), Nat.add_zero]
  · rintro ⟨hdiv, hne, hN⟩
    have hmod := Nat.div_add_mod n r
    have hlt := Nat.mod_lt n (show 0 < r by omega)
    have hq : n / r = q := by omega
    rw [hq] at hmod
    have hn : n = r * q + (n % r - 1 + 1) := by omega
    refine ⟨⟨n % r - 1, by omega, ?_⟩, ?_, ?_⟩
    · rw [← Nat.add_mul, ← hn]
    · rw [Nat.mul_comm a r, ← Nat.add_mul]
      exact Nat.mul_lt_mul_of_pos_right (by omega) hapos
    · rw [Nat.mul_comm a N]
      exact Nat.mul_lt_mul_of_pos_right hN hapos

structure Dest.Extra (d d' : Dest) (a : Nat) (P : Nat → Prop) : Prop where
  same : d' = { d with file := d'.file, fileSize := d'.fileSize }
  le : d.fileSize ≤ d'.fileSize
  grown : ∀ n, P n → (n + 1) * a ≤ d'.fileSize
  outside : ∀ off, ¬ P (off / a) → d'.byte off = d.byte off

theorem Dest.extra_refl (d : Dest) (a : Nat) : d.Extra d a fun _ => False :=
  ⟨rfl, le_rfl, nofun, fun _ _ => rfl⟩

variable {s s' : State} {w : World}

theorem extraWrite_wlp (ha : 0 < a) :
    wlp (extraWrite w a (n + 1) data) (fun _ d' => d.Extra d' a (fun m => m = n) ∧
      ∀ off, off / a = n → d'.byte off = data (off % a)) Fatal d := by
  refine .bind (request_wlp (fun _ => .modify ⟨⟨rfl, Nat.le_max_left _ _, ?_, ?_⟩, ?_⟩) fun _ => id)
  · rintro m rfl
    exact Nat.le_max_right _ _
  · intro off hoff
    have hne : ¬ off / a + 1 = n + 1 := by omega
    simp only [byte, if_neg hne]
    split
    · rfl
    · next hlt => rw [if_neg (by omega)]
  · rintro off rfl
    have hlt : off < (off / a + 1) * a := by
      have := Nat.div_add_mod' off a
      have := Nat.mod_lt off ha
      rw [Nat.succ_mul]
      omega
    simp only [byte, if_true]
    rw [if_pos (by omega)]

theorem Dest.Extra.trans {d d' d'' : Dest} {P Q : Nat → Prop} (h : d.Extra d' a P)
    (h' : d'.Extra d'' a Q) : d.Extra d'' a fun n => P n ∨ Q n := by
  refine ⟨?_, h.le.trans h'.le, fun n hn => ?_, fun off hoff => ?_⟩
  · rw [h'.same, h.same]
  · rcases hn with hn | hn
    · exact (h.grown n hn).trans h'.le
    · exact h'.grown n hn
  · obtain ⟨hP, hQ⟩ := not_or.mp hoff
    exact (h'.outside off hQ).trans (h.outside off hP)

theorem copyExtra_wlp (ha : 0 < a) (L : List Nat) :
    wlp (forEach (copyExtra w a) L) (fun _ s' => s.SameSrc w s' ∧
      s.dest.Extra s'.dest a (fun n => n ∈ L.map (· / a)) ∧
      (s'.src.codecError = false → ∀ off, off / a ∈ L.map (· / a) →
        s'.dest.byte off = s.src.seen.page (off / a + 1) (off % a))) (s.Dead w) s := by
  induction L generalizing s with
  | nil => exact ⟨.refl s, by simpa using s.dest.extra_refl a, by simp⟩
  | cons off L ih =>
    refine .bind (.seq (srcGet_wlp _) fun data s₁ h₁ => ?_)
    obtain ⟨hsame, hdest, -, hdata⟩ := h₁
    refine wp_onPart.mpr (.mono (extraWrite_wlp ha) (fun _ d₂ h₂ => ?_) fun e d₂ he =>
      ⟨he, { hsame with }⟩)
    obtain ⟨hextra, hbyte⟩ := h₂
    rw [hdest] at hextra
    have hsame₂ : s.SameSrc w { s₁ with dest := d₂ } := { hsame with }
    refine .mono (ih (s := { s₁ with dest := d₂ })) (fun _ s₃ h₃ => ?_) fun e s₃ h₃ =>
      ⟨h₃.1, hsame₂.trans h₃.2⟩
    obtain ⟨hsame₃, hextra₃, hread⟩ := h₃
    refine ⟨hsame₂.trans hsame₃, by simpa using hextra.trans hextra₃, fun hok o ho => ?_⟩
    by_cases hin : o / a ∈ L.map (· / a)
    · rw [hread hok o hin, hsame₂.seen]
    · have hoff : o / a = off / a := by simpa [hin] using ho
      rw [hextra₃.outside o hin, hbyte o hoff, hdata (hsame₃.error hok), hoff]

/-! ## What has to be committed -/

/-- Positions `C` with the content `L` in a database of `N` pages; those in the pending-byte page of
the destination are on pages of the source. -/
structure Target (img : Image) (N destPageSize : Nat) (C : Nat → Prop)
    (L : Nat → UInt8) : Prop where
  pos : 1 ≤ N
  ne_pending : N ≠ pendingBytePage img.pageSize
  lt : ∀ off, C off → off < N * img.pageSize
  pending : ∀ off, C off → off / destPageSize + 1 = pendingBytePage destPageSize →
    off / img.pageSize + 1 ≠ pendingBytePage img.pageSize ∧
      L off = img.page (off / img.pageSize + 1) (off % img.pageSize)
  magic : ∀ j < fileHeaderSz, C j ∧ L j = magic j

structure Dest.Complete (d : Dest) (img : Image) (N : Nat) (C : Nat → Prop) (L : Nat → UInt8) : Prop
    extends Open d where
  target : Target img N d.pageSize C L
  prepared : d.Prepared (fun off => C off ∧ off / d.pageSize + 1 ≠ pendingBytePage d.pageSize) L
  last : img.pageSize < d.pageSize → (N * img.pageSize - 1) / d.pageSize + 1 ≤ d.dbSize ∨
    (N * img.pageSize - 1) / d.pageSize + 1 = pendingBytePage d.pageSize
  fits : ∀ codec ∈ d.codec, codec.pageSz = img.pageSize ∧ codec.reserve ≤ img.reserve

section Complete

variable {d d' : Dest} {img : Image} {N : Nat} {C : Nat → Prop} {L : Nat → UInt8}

theorem Dest.Complete.mono (h : d.Complete img N C L) (hd : d.Changes d' Header) :
    d'.Complete img N C L := by
  have hps := hd.frame.pageSize
  refine ⟨hd.frame.opened h.toOpen, hps ▸ h.target, ?_, ?_, hd.frame.codec ▸ h.fits⟩
  · rw [hps]
    exact h.prepared.mono hd
  · rw [hps]
    exact fun hlt => (h.last hlt).imp_left fun hle => hle.trans hd.frame.dbSize

theorem pendingBytePage_gt (ha : ValidPageSize a) : 2 ≤ pendingBytePage a := by
  have := Nat.div_pos (Nat.le_of_dvd (by decide) ha.dvd_pendingByte) ha.pos
  rw [pendingBytePage]
  omega

/-- Page 1 starts with the magic, if it is a page of the codec at all. -/
theorem Dest.Complete.magic (h : d.Complete img N C L) (hok : ¬ d.Failed) (codec : PageCodec)
    (hcodec : codec ∈ d.codec) (hsz : codec.pageSz = d.pageSize) (j : Nat) (hj : j < fileHeaderSz) :
    d.page1 j = Backup.magic j := by
  have hge := h.valid.ge
  have hfile : j < 16 := hj
  have hmod : j % d.pageSize = j := Nat.mod_eq_of_lt (by omega)
  have hdiv : j / d.pageSize = 0 := Nat.div_eq_of_lt (by omega)
  have hsee : d.see j = some (d.page1 j) := h.toHeld.see (by omega)
  obtain ⟨hC, hL⟩ := h.target.magic j hj
  rw [← hL]
  refine Option.some.inj (hsee.symm.trans ?_)
  refine h.prepared.see hok j ⟨hC, ?_⟩ ?_ ?_
  · have := pendingBytePage_gt h.valid
    omega
  · have hfits := h.fits codec hcodec
    have := img.usable
    rw [hmod, codecReserve, Option.mem_def.mp hcodec]
    dsimp only [Option.elim]
    omega
  · unfold Header
    omega

end Complete

structure Finished (s s' : State) (N : Nat) (C : Nat → Prop) (L : Nat → UInt8) : Prop where
  pageSize : s'.dest.pageSize = s.dest.pageSize
  codec : s'.dest.codec = s.dest.codec
  newDatabase : newDatabase s'.dest = newDatabase s.dest
  codecSize : ∀ codec ∈ s.dest.codec, codec.pageSz = s.dest.pageSize
  fileSize : s'.dest.fileSize = N * s.src.seen.pageSize
  committed : s'.src.codecError = false → ∀ off, C off →
    off % s.dest.pageSize < s.dest.pageSize - s.dest.codecReserve → ¬ Header off →
    s'.dest.committed off = some (L off)

section Finished

variable {N : Nat} {C : Nat → Prop} {L : Nat → UInt8}

/-- With pages no larger than those of the source, only the pending-byte page of the source meets
that of the destination. -/
theorem pendingBytePage_of_le (ha : ValidPageSize a) (hb : ValidPageSize b) (hba : b ≤ a)
    (h : off / b + 1 = pendingBytePage b) : off / a + 1 = pendingBytePage a := by
  obtain ⟨r, rfl⟩ := hb.dvd_of_le ha hba
  have hr : 0 < r := Nat.pos_of_mul_pos_left ha.pos
  rw [pendingBytePage, (pendingByte_div hb ha).1] at h
  rw [pendingBytePage, ← Nat.div_div_eq_div_mul, Nat.succ.inj h, Nat.mul_div_cancel_left _ hr]

theorem finishSmaller_wlp (h : s.dest.Complete s.src.seen N C L)
    (hle : s.dest.pageSize ≤ s.src.seen.pageSize) :
    gives (finishSmaller w s.src.seen.pageSize N) (fun _ s' => Finished s s' N C L) s := by
  have hps := h.valid.pos
  have hmul : N * (s.src.seen.pageSize / s.dest.pageSize) * s.dest.pageSize =
      N * s.src.seen.pageSize := by
    rw [Nat.mul_assoc, Nat.div_mul_cancel (h.valid.dvd_of_le s.src.seen.valid hle)]
  generalize hT : N * (s.src.seen.pageSize / s.dest.pageSize) = T at hmul
  have hTpos : 1 ≤ T :=
    Nat.pos_of_mul_pos_right (hmul ▸ Nat.mul_pos h.target.pos s.src.seen.valid.pos)
  -- the positions are in front of the new end
  have hfront : ∀ off, C off → off / s.dest.pageSize + 1 ≤ T := fun off hC =>
    (Nat.div_lt_iff_lt_mul hps).mpr (hmul ▸ h.target.lt off hC)
  have hTpend : T ≠ pendingBytePage s.dest.pageSize := by
    intro hTp
    refine h.target.ne_pending ?_
    have hlast := pendingBytePage_of_le s.src.seen.valid h.valid hle
      (show (T - 1) * s.dest.pageSize / s.dest.pageSize + 1 = _ by
        rw [Nat.mul_div_cancel _ hps, Nat.sub_add_cancel hTpos, hTp])
    have hpos := h.target.pos
    rw [Nat.sub_mul, hmul, Nat.one_mul, div_last hpos hps hle] at hlast
    omega
  refine .read (.bind (wp_onPart.mpr (.modify ?_)))
  rw [hT]
  refine .bind (wp_onPart.mpr ?_)
  have hprep : ({ s.dest with dbSize := T } : Dest).Prepared C L :=
    ⟨hfront, fun hok off hC hlt hnot => h.prepared.see hok off ⟨hC, fun hp =>
      (h.target.pending off hC hp).1
        (pendingBytePage_of_le s.src.seen.valid h.valid hle hp)⟩ hlt hnot⟩
  refine .imp (hprep.commitPhaseOne ⟨h.valid, h.page1, hTpos⟩ (fun off hC hp =>
    (h.target.pending off hC hp).1 (pendingBytePage_of_le s.src.seen.valid h.valid hle hp))
    h.magic) (fun _ d' hd => ?_)
  obtain ⟨d₁, hwritten, hframe, hdb, hfile, hdbFile, hsee⟩ := hd
  refine wp_onPart.mpr (.bind (request_wlp (fun _ => .modify ?_) fun _ _ => trivial))
  have hps' : d'.pageSize = s.dest.pageSize := hwritten.pageSize.trans hframe.pageSize
  have hfile' : T * s.dest.pageSize ≤ d'.fileSize := by
    rw [hwritten.fileSize, hdb, hframe.pageSize, if_neg hTpend]
    exact Nat.le_max_right _ _
  have hcut : (if d'.dbSize < d'.dbFileSize then
      { d' with fileSize := d'.dbSize * d'.pageSize } else d') =
      { d' with fileSize := T * s.dest.pageSize } := by
    split
    · rw [hwritten.dbSize, hdb, hps']
    · next hnot =>
      have hgrown : s.dest.dbFileSize ≤ T := by
        rw [hwritten.dbSize, hwritten.dbFileSize, hdb, hdbFile] at hnot
        have := Nat.le_max_left s.dest.dbFileSize T
        dsimp only at hnot
        omega
      have hsame : d'.fileSize = T * s.dest.pageSize := by
        rw [hwritten.fileSize, hdb, hfile, hframe.pageSize, if_neg hTpend]
        exact Nat.max_eq_right (h.size.trans (Nat.mul_le_mul_right _ hgrown))
      rw [← hsame]
  rw [hcut]
  have hcodec := hwritten.codec.trans hframe.codec
  refine ⟨hps', hcodec, ?_, ?_, hmul, fun _ off hC hlt hnot => ?_⟩
  · exact hwritten.newDatabase.trans hframe.newDatabase
  · intro codec hmem
    exact (hwritten.codecSize codec (hframe.codec ▸ hmem)).trans hframe.pageSize
  · have hend : (off / d'.pageSize + 1) * d'.pageSize ≤ T * s.dest.pageSize := by
      rw [hps']
      exact Nat.mul_le_mul_right _ (hfront off hC)
    rw [d'.committed_fileSize (hend.trans hfile') hend, hwritten.committed]
    exact hsee off hC hlt hnot

/-- A position is written past the pager if the pager does not get there. -/
theorem mem_extra (ha : ValidPageSize a) (hb : ValidPageSize b) (hab : a < b) :
    off / a ∈ (extraOffsets a b N).map (· / a) ↔
      off / b + 1 = pendingBytePage b ∧ off / a + 1 ≠ pendingBytePage a ∧ off / a < N := by
  have hdiv : off / a * a / b = off / b := by
    obtain ⟨r, rfl⟩ := ha.dvd_of_le hb hab.le
    rw [Nat.mul_comm, Nat.mul_div_mul_left _ _ ha.pos, Nat.div_div_eq_div_mul]
  rw [← hdiv, ← mem_extraOffsets ha hb hab, List.mem_map]
  constructor
  · rintro ⟨o, ho, heq⟩
    obtain ⟨k, -, rfl⟩ := List.mem_map.mp (List.mem_filter.mp ho).1
    have hmul : a ∣ pendingByte + (k + 1) * a :=
      Nat.dvd_add ha.dvd_pendingByte (Nat.dvd_mul_left _ _)
    rwa [← heq, Nat.div_mul_cancel hmul]
  · exact fun hmem => ⟨_, hmem, Nat.mul_div_cancel _ ha.pos⟩

structure Dest.Flushed (d d' : Dest) (img : Image) (N : Nat) (C : Nat → Prop) (L : Nat → UInt8) :
    Prop where
  pageSize : d'.pageSize = d.pageSize
  codec : d'.codec = none
  newDatabase : newDatabase d' = newDatabase d
  dbSize : d'.dbFileSize ≤ d'.dbSize
  fileSize : N * img.pageSize ≤ d'.fileSize ∨
    (N * img.pageSize - 1) / d.pageSize + 1 = pendingBytePage d.pageSize
  byte : ∀ off, C off → off / d.pageSize + 1 ≠ pendingBytePage d.pageSize → ¬ Header off →
    d'.byte off = L off

/-- A codec has pages of the size of the source, so there is none. -/
theorem Dest.Complete.commitPhaseOne (h : d.Complete img N C L) (hlt : img.pageSize < d.pageSize) :
    wlp (commitPhaseOne w) (fun _ d' => d.codec = none ∧ d.Flushed d' img N C L) Fatal d := by
  refine .post (h.prepared.commitPhaseOne h.toHeld (fun off hC => hC.2) h.magic) fun _ d' hd => ?_
  obtain ⟨d₁, hwritten, hframe, hdb, hfile, hdbFile, hsee⟩ := hd
  have hps := hframe.pageSize
  have hcodec : d.codec = none := by
    refine Option.eq_none_iff_forall_not_mem.mpr fun codec hmem => ?_
    have := hwritten.codecSize codec (hframe.codec ▸ hmem)
    have := (h.fits codec hmem).1
    omega
  have hcodec' : d'.codec = none := hwritten.codec.trans (hframe.codec.trans hcodec)
  have hps' : d'.pageSize = d.pageSize := hwritten.pageSize.trans hps
  refine ⟨hcodec, hps', hcodec', hwritten.newDatabase.trans hframe.newDatabase, ?_, ?_,
    fun off hC hpend hnot => ?_⟩
  · rw [hwritten.dbFileSize, hwritten.dbSize, hdb, hdbFile]
    exact Nat.max_le.mpr ⟨h.grown, le_rfl⟩
  · by_cases hpend : (N * img.pageSize - 1) / d.pageSize + 1 = pendingBytePage d.pageSize
    · exact .inr hpend
    · have hle := (h.last hlt).resolve_right hpend
      have hlast : N * img.pageSize - 1 < ((N * img.pageSize - 1) / d.pageSize + 1) * d.pageSize :=
        (Nat.div_lt_iff_lt_mul h.valid.pos).mp (Nat.lt_succ_self _)
      refine .inl ((Nat.le_of_pred_lt hlast).trans ?_)
      rw [hwritten.fileSize, hdb, hps]
      refine (Nat.mul_le_mul_right _ ?_).trans (Nat.le_max_right _ _)
      split <;> omega
  · have hbyte := committed_of_none hcodec' (hps' ▸ h.valid.pos) off
    refine Option.some.inj (hbyte.symm.trans ((hwritten.committed off).trans ?_))
    refine hsee off ⟨hC, hpend⟩ ?_ hnot
    rw [codecReserve, hcodec]
    exact Nat.mod_lt _ h.valid.pos

/-- What is behind the pending byte is written, and the file is cut. -/
theorem Dest.Flushed.cut {d d' d'' : Dest} (h : d.Flushed d' img N C L)
    (ht : Target img N d.pageSize C L) (hd : ValidPageSize d.pageSize)
    (hlt : img.pageSize < d.pageSize)
    (he : d'.Extra d'' img.pageSize
      fun n => n ∈ (extraOffsets img.pageSize d.pageSize N).map (· / img.pageSize)) :
    N * img.pageSize ≤ d''.fileSize := by
  rcases h.fileSize with hle | hpend
  · exact hle.trans he.le
  · have hpos := ht.pos
    have hdiv := div_last hpos le_rfl img.valid.pos
    have hmem := (mem_extra (N := N) img.valid hd hlt).mpr ⟨hpend, by
      rw [hdiv, Nat.sub_add_cancel hpos]
      exact ht.ne_pending, by omega⟩
    have := he.grown _ hmem
    rwa [hdiv, Nat.sub_add_cancel hpos] at this

theorem finishLarger_wlp (h : s.dest.Complete s.src.seen N C L)
    (hlt : s.src.seen.pageSize < s.dest.pageSize) :
    gives (finishLarger w s.src.seen.pageSize N) (fun _ s' => Finished s s' N C L) s := by
  have ha := s.src.seen.valid
  refine .read (.bind (wp_onPart.mpr ?_))
  refine .imp (journalRest_wlp _ fun _ => none) (fun _ d₁ h₁ => ?_)
  have hps₁ := h₁.frame.pageSize
  have hcomplete : d₁.Complete s.src.seen N C L := by
    refine h.mono (h₁.changes.weaken (fun _ => False.elim) fun o ho => ?_)
    rw [Nat.div_eq_of_lt (ho.lt.trans_le h.valid.ge)]
    exact h.dbSize.trans h₁.frame.dbSize
  refine .bind (wp_onPart.mpr (.imp (hcomplete.commitPhaseOne (hps₁ ▸ hlt)) (fun _ d₂ h₂ => ?_)))
  obtain ⟨hnone, hflushed⟩ := h₂
  refine .next (copyExtra_wlp (s := { s with dest := d₂ }) ha.pos _) (fun _ s₃ h₃ => ?_)
  obtain ⟨hsame, hextra, hread⟩ := h₃
  rw [← hps₁] at hextra hread
  have hlen := hflushed.cut hcomplete.target hcomplete.valid (hps₁ ▸ hlt) hextra
  refine .bind (wp_onPart.mpr (.bind (request_wlp (fun _ => .modify ?_) fun _ _ => trivial)))
  refine .bind (request_wlp (fun _ => wp_onPart.mpr ?_) fun _ _ => trivial)
  refine .bind (request_wlp (fun _ => .modify ?_) fun _ _ => trivial)
  have hgrown : ¬ s₃.dest.dbSize < s₃.dest.dbFileSize := by
    rw [hextra.same]
    exact not_lt.mpr hflushed.dbSize
  have hsize : min s₃.dest.fileSize (s.src.seen.pageSize * N) = N * s.src.seen.pageSize := by
    rw [Nat.mul_comm, Nat.min_eq_right hlen]
  simp only [if_neg hgrown, hsize]
  have hcodec : s₃.dest.codec = none := by
    rw [hextra.same]
    exact hflushed.codec
  have hnone' : s.dest.codec = none := h₁.frame.codec ▸ hnone
  have hps₃ : s₃.dest.pageSize = s.dest.pageSize := by
    rw [hextra.same]
    exact hflushed.pageSize.trans hps₁
  refine ⟨hps₃, hcodec.trans hnone'.symm, ?_, by simp [hnone'], rfl, fun hok off hC _ hnot => ?_⟩
  · rw [hextra.same]
    exact hflushed.newDatabase.trans h₁.frame.newDatabase
  · have hoff := h.target.lt off hC
    have hbyte : s₃.dest.byte off = L off := by
      by_cases hpend : off / s.dest.pageSize + 1 = pendingBytePage s.dest.pageSize
      · obtain ⟨hne, hL⟩ := h.target.pending off hC hpend
        rw [hL]
        refine hread hok off ?_
        rw [hps₁, mem_extra ha h.valid hlt]
        exact ⟨hpend, hne, (Nat.div_lt_iff_lt_mul ha.pos).mpr hoff⟩
      · rw [← hps₁] at hpend
        rw [hextra.outside off fun hmem =>
          hpend ((mem_extra ha hcomplete.valid (hps₁ ▸ hlt)).mp hmem).1]
        exact hflushed.byte off hC hpend hnot
    have hpos : 0 < s₃.dest.pageSize := hps₃ ▸ h.valid.pos
    rw [committed_of_none (by exact hcodec) (by exact hpos), ← hbyte]
    simp only [byte]
    rw [if_pos hoff, if_pos (hoff.trans_le hlen)]

theorem Dest.Complete.modifyPage1 (h : d.Complete img N C L)
    (hg : ∀ c j, ¬ Header j → g d c j = c j) :
    wlp (modifyPage1 g) (fun _ d' => d'.Complete img N C L ∧ d.Frame d') Fatal d :=
  .post (modifyPage1_wlp h.toHeld g) fun _ _ hd =>
    ⟨h.mono (hd.header h.valid fun j hj => hg _ j hj), hd.frame⟩

theorem updateMeta_wlp (h : d.Complete img N C L) (schema : Nat) :
    wlp (updateMeta w schema) (fun _ d' => d'.Complete img N C L ∧ d.Frame d') Fatal d := by
  refine .bind (request_wlp (fun _ => h.modifyPage1 fun c j hj => if_neg ?_) fun _ => id)
  unfold Header at hj
  omega

theorem setVersion_wlp (h : d.Complete img N C L) :
    wlp (setVersion w) (fun _ d' => d'.Complete img N C L ∧ d.Frame d') Fatal d := by
  refine .bind (request_wlp (fun _ => h.modifyPage1 fun c j hj => if_neg ?_) fun _ => id)
  unfold Header at hj
  omega

theorem Finished.of_frame (h : Finished { s with dest := d } s' N C L) (hd : s.dest.Frame d) :
    Finished s s' N C L := by
  have hps := hd.pageSize
  have hcodec := hd.codec
  refine ⟨h.pageSize.trans hps, h.codec.trans hcodec, h.newDatabase.trans hd.newDatabase, ?_,
    h.fileSize,
    ?_⟩
  · rw [← hps, ← hcodec]
    exact h.codecSize
  · rw [← hps, ← hd.codecReserve]
    exact h.committed

theorem finishCommit_wlp (h : s.dest.Complete s.src.seen N C L) :
    gives (finishCommit w N) (fun _ s' => Finished s s' N C L) s := by
  refine .read (.bind (wp_onPart.mpr (.imp (updateMeta_wlp h _) (fun _ d₁ h₁ => ?_))))
  refine .next (Q := fun _ t => ∃ d : Dest, t = { s with dest := d } ∧
    d.Complete s.src.seen N C L ∧ s.dest.Frame d) (E := fun _ _ => True)
    (.when ⟨fun _ => wp_onPart.mpr ?_, fun _ => ⟨d₁, rfl, h₁⟩⟩) fun _ t ht => ?_
  · exact .imp (setVersion_wlp h₁.1) fun _ d₂ h₂ => ⟨d₂, rfl, h₂.1, h₁.2.trans h₂.2⟩
  · obtain ⟨d, rfl, hd, hframe⟩ := ht
    have hps := hframe.pageSize
    refine .ite ⟨fun hlt => ?_, fun hle => ?_⟩
    · exact .post (finishLarger_wlp (s := { s with dest := d }) hd (hps ▸ hlt))
        fun _ _ hfin => hfin.of_frame hframe
    · exact .post (finishSmaller_wlp (s := { s with dest := d }) hd (hps ▸ not_lt.mp hle))
        fun _ _ hfin => hfin.of_frame hframe

end Finished

/-! ## What is in the destination at the end -/

/-- The committed file is that of the image, up to reserves and the header of the destination. An
empty image becomes a new database. -/
structure Dest.Holds (d : Dest) (img : Image) : Prop where
  fileSize : d.fileSize = max img.nPage 1 * img.pageSize
  page : ∀ n, 1 ≤ n → n ≤ img.nPage → n ≠ pendingBytePage img.pageSize →
    ∀ j < img.pageSize - img.reserve, (n = 1 → ¬ Header j) →
      d.committed ((n - 1) * img.pageSize + j) = some (img.page n j)
  blank : img.nPage = 0 → ∀ j < 108, ¬ Header j → d.committed j = some (newDatabase d .zero j)

/-- What the destination has got: its codec is the same, and the pages are those of the codec. -/
structure Dest.Received (d d' : Dest) (img : Image) : Prop where
  codec : d'.codec = d.codec
  codecSize : ∀ codec ∈ d.codec, codec.pageSz = d'.pageSize
  holds : d'.Holds img

/-- A codec of the destination has pages of the size of the source and no larger reserve. -/
def Dest.Fits (d : Dest) (img : Image) : Prop :=
  ∀ codec ∈ d.codec, codec.pageSz = img.pageSize ∧ codec.reserve ≤ img.reserve

def Image.Covers (img : Image) (off : Nat) : Prop :=
  off / img.pageSize < img.nPage ∧ off / img.pageSize + 1 ≠ pendingBytePage img.pageSize

def Image.byte (img : Image) (off : Nat) : UInt8 :=
  img.page (off / img.pageSize + 1) (off % img.pageSize)

theorem State.Ready.complete (h : s.Ready) (hfits : s.dest.Fits s.src.seen)
    (hok : s.src.codecError = false) (hn : 0 < s.src.seen.nPage)
    (hnext : s.src.seen.nPage < s.bk.iNext) :
    s.dest.Complete s.src.seen s.src.seen.nPage s.src.seen.Covers s.src.seen.byte := by
  generalize himg : s.src.seen = img at *
  have ha := img.valid
  have hopen := h.opened h.locked
  have hagrees : ∀ off, img.Covers off →
      s.dest.Agrees img.pageSize (off / img.pageSize + 1) (s.src.codecError = false)
        (img.page (off / img.pageSize + 1)) := by
    intro off hoff
    rw [← himg]
    refine h.copied _ _ (Nat.le_add_left 1 _) (by have := hoff.1; rw [himg]; omega) ?_
    rw [h.quiet, himg, Image.stored, if_pos ⟨Nat.le_add_left 1 _, hoff.1, hoff.2⟩]
  have hin : ∀ off, off / s.dest.pageSize + 1 ≠ pendingBytePage s.dest.pageSize →
      InPage img.pageSize s.dest.pageSize (off / img.pageSize + 1) off := by
    intro off hpend
    have := Nat.div_add_mod' off img.pageSize
    have := Nat.mod_lt off ha.pos
    rw [InPage, Nat.add_sub_cancel]
    exact ⟨by omega, hpend⟩
  have hpage1 : ∀ j < fileHeaderSz, j / img.pageSize = 0 ∧ j % img.pageSize = j := by
    intro j hj
    have := ha.ge
    have hlt : j < img.pageSize := lt_of_lt_of_le hj (by unfold fileHeaderSz; omega)
    exact ⟨Nat.div_eq_of_lt hlt, Nat.mod_eq_of_lt hlt⟩
  refine ⟨hopen, ⟨hn, img.ne_pending, fun off hoff => (Nat.div_lt_iff_lt_mul ha.pos).mp hoff.1,
    fun off hoff _ => ⟨hoff.2, rfl⟩, fun j hj => ?_⟩,
    ⟨fun off hoff => ?_, fun hfail off hoff hlt _ => ?_⟩,
    fun _ => ?_, hfits⟩
  · have := pendingBytePage_gt ha
    obtain ⟨hdiv, hmod⟩ := hpage1 j hj
    refine ⟨⟨by omega, by omega⟩, ?_⟩
    rw [Image.byte, hdiv, hmod]
    exact img.magic hn j hj
  · exact (hagrees off hoff.1).le_dbSize off (hin off hoff.2)
  · rw [(hagrees off hoff.1).see hok hfail off (hin off hoff.2) hlt, Nat.add_sub_cancel, Image.byte]
    congr 2
    have := Nat.div_add_mod' off img.pageSize
    omega
  · have hlast := div_last hn le_rfl ha.pos
    have hne := img.ne_pending
    refine or_iff_not_imp_right.mpr fun hpend => (hagrees _ ⟨?_, ?_⟩).le_dbSize _ (hin _ hpend)
    · omega
    · rwa [hlast, Nat.sub_add_cancel hn]

theorem newDb_wlp (ho : d.Open) (hfits : d.Fits img) :
    wlp (newDb w) (fun _ d' => d.Frame d' ∧
      d'.Complete img 1 (fun off => off < 108) (newDatabase d .zero)) Fatal d := by
  refine .bind (request_wlp (fun _ => ?_) fun _ => id)
  refine .post (modifyPage1_wlp ho.toHeld _) fun _ d' hd => ⟨hd.frame, ?_⟩
  have hps := hd.frame.pageSize
  have hge := ho.valid.ge
  have hge' := img.valid.ge
  have hpend := pendingBytePage_gt ho.valid
  have hpage1 : ∀ off < d.pageSize, off / d.pageSize + 1 = 1 := fun off hoff => by
    rw [Nat.div_eq_of_lt hoff]
  refine ⟨hd.frame.opened ho, ⟨le_rfl, ?_, fun off hoff => by omega, fun off hoff hp => ?_,
    fun j hj => ⟨?_, if_pos hj⟩⟩, ⟨fun off hoff => ?_, fun _ off hoff _ _ => ?_⟩,
    fun hlt => .inl ?_, ?_⟩
  · have := pendingBytePage_gt img.valid
    omega
  · rw [hps, hpage1 off (by omega)] at hp
    omega
  · unfold fileHeaderSz at hj
    omega
  · rw [hps, hpage1 off (by omega)]
    exact hd.held.dbSize
  · rw [hd.held.see (by omega), hd.page1]
    simp only [newDatabase, if_pos hoff.1]
  · rw [hps] at hlt ⊢
    rw [hpage1 _ (by omega)]
    exact hd.held.dbSize
  · rw [hd.frame.codec]
    exact hfits

theorem Dest.Fits.lt {d : Dest} (h : d.Fits img) (hd : 0 < d.pageSize)
    (hsz : ∀ codec ∈ d.codec, codec.pageSz = d.pageSize) (hj : j < img.pageSize - img.reserve) :
    (n * img.pageSize + j) % d.pageSize < d.pageSize - d.codecReserve := by
  cases hcodec : d.codec with
  | none =>
    rw [codecReserve, hcodec]
    exact Nat.mod_lt _ hd
  | some codec =>
    obtain ⟨hpage, hres⟩ := h codec hcodec
    have hps := hsz codec hcodec
    rw [codecReserve, hcodec, ← hps, hpage, mod_page _ (by omega)]
    dsimp only [Option.elim]
    omega

theorem Finished.holds (h : Finished s s' s.src.seen.nPage s.src.seen.Covers s.src.seen.byte)
    (hfits : s.dest.Fits s.src.seen) (hd : 0 < s.dest.pageSize) (hn : 0 < s.src.seen.nPage)
    (hok : s'.src.codecError = false) : s'.dest.Holds s.src.seen := by
  refine ⟨?_, fun n hn hle hpend j hj hheader => ?_, fun h0 => by omega⟩
  · rw [h.fileSize, Nat.max_eq_left hn]
  · have hdiv := div_page (n - 1) (show j < s.src.seen.pageSize by omega)
    have hmod := mod_page (n - 1) (show j < s.src.seen.pageSize by omega)
    have hn1 : n - 1 + 1 = n := Nat.sub_add_cancel hn
    rw [h.committed hok _ ?_ (hfits.lt hd h.codecSize hj)
      fun hin => ?_, Image.byte, hdiv, hmod, hn1]
    · exact ⟨by omega, by rwa [hdiv, hn1]⟩
    · by_cases h1 : n = 1
      · subst h1
        exact hheader rfl (by simpa using hin)
      · have hge := s.src.seen.valid.ge
        have := Nat.le_mul_of_pos_left s.src.seen.pageSize (show 0 < n - 1 by omega)
        have := hin.lt
        omega

theorem Finished.holds_blank
    (h : Finished s s' 1 (fun off => off < 108) (Backup.newDatabase s.dest .zero))
    (hfits : s.dest.Fits s.src.seen) (hd : 0 < s.dest.pageSize) (hn : s.src.seen.nPage = 0)
    (hok : s'.src.codecError = false) : s'.dest.Holds s.src.seen := by
  refine ⟨?_, fun n hn hle => by omega, fun _ j hj hnot => ?_⟩
  · rw [h.fileSize, hn]
    rfl
  · have := s.src.seen.usable
    have hlt := hfits.lt (n := 0) hd h.codecSize
      (show j < s.src.seen.pageSize - s.src.seen.reserve by omega)
    rw [h.newDatabase]
    exact h.committed hok j hj (by simpa using hlt) hnot

/-- When all pages are copied, the end of the backup makes the destination that of the source. -/
theorem finish_wlp (h : s.Ready) (hfits : s.dest.Fits s.src.seen) (hok : s.src.codecError = false)
    (hnext : s.src.seen.nPage < s.bk.iNext) :
    gives (finish w s.src.seen.nPage) (fun _ s' => s'.src.codecError = false →
      s.dest.Received s'.dest s.src.seen) s := by
  have hopen := h.opened h.locked
  refine .bind (.when ⟨fun h0 => ?_, fun hn => ?_⟩)
  · refine wp_onPart.mpr (.imp (newDb_wlp hopen hfits) (fun _ d₁ h₁ => ?_))
    rw [h0]
    refine .post (finishCommit_wlp (s := { s with dest := d₁ }) h₁.2) fun _ s' hfin hok' => ?_
    have hfin := hfin.of_frame h₁.1
    exact ⟨hfin.codec, hfin.pageSize ▸ hfin.codecSize,
      hfin.holds_blank hfits hopen.valid.pos h0 hok'⟩
  · have hn : 0 < s.src.seen.nPage := Nat.pos_of_ne_zero hn
    rw [Nat.max_eq_left hn]
    exact .post (finishCommit_wlp (h.complete hfits hok hn hnext))
      fun _ _ hfin hok' => ⟨hfin.codec, hfin.pageSize ▸ hfin.codecSize,
        hfin.holds hfits hopen.valid.pos hn hok'⟩

end SqlCipher.Backup
