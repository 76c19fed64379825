import Mathlib.Tactic.Ring
import SqlCipher.Backup.Dest

/-!
# What the destination of a backup holds

The bytes of the destination are compared by their position in the file (`Dest.see`), up to the
reserve of the codec. An operation is described by the positions at which it changes what is seen
(`Dest.Becomes`): a spilled page reads as before, and `backupOnePage` changes the positions of its
page outside the pending-byte page.
-/

namespace SqlCipher.Backup

open Proc Dest

variable {j base off n : Nat}

/-! ## Page sizes -/

section PageSize

variable {a b : Nat}

theorem ValidPageSize.ge (h : ValidPageSize a) : 512 ≤ a := by
  obtain ⟨k, hk, -, rfl⟩ := h
  exact Nat.pow_le_pow_right (show 0 < 2 by decide) hk

theorem ValidPageSize.pos (h : ValidPageSize a) : 0 < a := by
  have := h.ge
  omega

theorem ValidPageSize.dvd_pendingByte (h : ValidPageSize a) : a ∣ pendingByte := by
  obtain ⟨k, -, hk, rfl⟩ := h
  exact pow_dvd_pow 2 (show k ≤ 30 by omega)

theorem ValidPageSize.dvd_of_le (ha : ValidPageSize a) (hb : ValidPageSize b) (h : a ≤ b) :
    a ∣ b := by
  obtain ⟨k, -, -, rfl⟩ := ha
  obtain ⟨l, -, -, rfl⟩ := hb
  exact pow_dvd_pow 2 ((Nat.pow_le_pow_iff_right (by decide)).mp h)

theorem div_page (n : Nat) (h : j < a) : (n * a + j) / a = n := by
  rw [Nat.add_comm, Nat.add_mul_div_right _ _ (by omega), Nat.div_eq_of_lt h, Nat.zero_add]

theorem mod_page (n : Nat) (h : j < a) : (n * a + j) % a = j := by
  rw [Nat.add_comm, Nat.add_mul_mod_self_right, Nat.mod_eq_of_lt h]

/-- Where a part of a page of size `a` goes that starts at `off` in a file of pages of size `b`. -/
structure Part (a b base off : Nat) : Prop where
  base_le : base ≤ off
  start : off % a = off - base
  room : off % b + min a b ≤ b
  le_end : off + min a b ≤ base + a

theorem Part.div (h : Part a b base off) (hk : k < min a b) :
    (off + k) / b = off / b ∧ (off + k) % b = off % b + k := by
  have hlt : off % b + k < b := by
    have := h.room
    omega
  have heq : off + k = off / b * b + (off % b + k) := by
    have := Nat.div_add_mod' off b
    omega
  rw [heq]
  exact ⟨div_page _ hlt, mod_page _ hlt⟩

theorem mem_offsets_part (ha : ValidPageSize a) (hb : ValidPageSize b) (h : off ∈ offsets a b n) :
    Part a b ((n - 1) * a) off := by
  obtain ⟨k, hk, rfl⟩ := List.mem_map.mp h
  have hk := List.mem_range.mp hk
  have hbpos := hb.pos
  rcases Nat.le_total a b with hab | hab
  · obtain ⟨r, rfl⟩ := ha.dvd_of_le hb hab
    have hk0 : k = 0 := by
      have : (a + a * r - 1) / (a * r) < 2 := Nat.div_lt_of_lt_mul (by omega)
      omega
    subst hk0
    refine ⟨by omega, by simp, ?_, by omega⟩
    rw [Nat.min_eq_left hab, Nat.zero_mul, Nat.add_zero, Nat.mul_comm (n - 1), Nat.mul_mod_mul_left]
    have hr : 0 < r := Nat.pos_of_mul_pos_left hbpos
    calc a * ((n - 1) % r) + a = a * ((n - 1) % r + 1) := by ring
      _ ≤ a * r := Nat.mul_le_mul_left a (Nat.mod_lt _ hr)
  · obtain ⟨r, rfl⟩ := hb.dvd_of_le ha hab
    have hkr : k < r := by
      have : (b * r + b - 1) / b < r + 1 := Nat.div_lt_of_lt_mul (by rw [Nat.mul_add]; omega)
      omega
    have hlt : k * b + b ≤ b * r := by
      calc k * b + b = b * (k + 1) := by ring
        _ ≤ b * r := Nat.mul_le_mul_left b hkr
    refine ⟨by omega, ?_, ?_, ?_⟩
    · rw [Nat.mul_comm (n - 1), Nat.mul_add_mod, Nat.mod_eq_of_lt (by omega)]
      omega
    · have : ((n - 1) * (b * r) + k * b) % b = 0 :=
        Nat.mod_eq_zero_of_dvd ⟨(n - 1) * r + k, by ring⟩
      rw [this, Nat.min_eq_right hab, Nat.zero_add]
    · rw [Nat.min_eq_right hab]
      omega

theorem exists_mem_offsets (hb : ValidPageSize b) (h : (n - 1) * a ≤ off)
    (h' : off < (n - 1) * a + a) :
    ∃ start ∈ offsets a b n, start ≤ off ∧ off < start + min a b := by
  obtain ⟨x, rfl⟩ := Nat.exists_eq_add_of_le h
  have hbpos := hb.pos
  have hdiv := Nat.div_add_mod' x b
  have hmod := Nat.mod_lt x hbpos
  refine ⟨(n - 1) * a + x / b * b, List.mem_map.mpr ⟨x / b, List.mem_range.mpr ?_, rfl⟩, by omega,
    by omega⟩
  have := Nat.mul_comm b (x / b)
  exact (Nat.lt_div_iff_mul_lt hbpos).mpr (by omega)

end PageSize

/-! ## What is seen -/

def Dest.codecReserve (d : Dest) : Nat := d.codec.elim 0 PageCodec.reserve

def Dest.Failed (d : Dest) : Prop := d.codec.isSome = true ∧ d.codecError = true

def Dest.plain (d : Dest) (pgno : Nat) : Option Content :=
  match d.codec with
  | none => some (d.raw pgno)
  | some codec => codec.decode pgno (d.raw pgno)

def Dest.content (d : Dest) (pgno : Nat) : Option Content := (d.cache pgno).or (d.plain pgno)

def Dest.see (d : Dest) (off : Nat) : Option UInt8 :=
  (d.content (off / d.pageSize + 1)).map fun c => c (off % d.pageSize)

/-- A position within the database and in front of the codec's reserve. -/
def Dest.Visible (d : Dest) (off : Nat) : Prop :=
  off / d.pageSize + 1 ≤ d.dbSize ∧ off % d.pageSize < d.pageSize - d.codecReserve

structure Dest.Held (d : Dest) : Prop where
  valid : ValidPageSize d.pageSize
  page1 : (d.cache 1).isSome = true
  dbSize : 1 ≤ d.dbSize

/-- A destination in the course of a write transaction: the database has not become smaller. -/
structure Dest.Open (d : Dest) : Prop extends Held d where
  size : d.fileSize ≤ d.dbFileSize * d.pageSize
  grown : d.dbFileSize ≤ d.dbSize

structure Dest.Frame (d d' : Dest) : Prop where
  pageSize : d'.pageSize = d.pageSize
  codec : d'.codec = d.codec
  reserve : d'.reserve = d.reserve
  wal : d'.wal = d.wal
  autoVacuum : d'.autoVacuum = d.autoVacuum
  incrVacuum : d'.incrVacuum = d.incrVacuum
  failed : d.Failed → d'.Failed
  opened : d.Open → d'.Open
  dbSize : d.dbSize ≤ d'.dbSize

theorem Dest.Frame.refl (d : Dest) : d.Frame d := ⟨rfl, rfl, rfl, rfl, rfl, rfl, id, id, le_rfl⟩

theorem Dest.Frame.trans {d d' d'' : Dest} (h : d.Frame d') (h' : d'.Frame d'') : d.Frame d'' :=
  ⟨h'.pageSize.trans h.pageSize, h'.codec.trans h.codec, h'.reserve.trans h.reserve,
    h'.wal.trans h.wal, h'.autoVacuum.trans h.autoVacuum, h'.incrVacuum.trans h.incrVacuum,
    fun hf => h'.failed (h.failed hf), fun ho => h'.opened (h.opened ho), h.dbSize.trans h'.dbSize⟩

theorem Dest.Frame.codecReserve {d d' : Dest} (h : d.Frame d') :
    d'.codecReserve = d.codecReserve := by
  rw [Dest.codecReserve, Dest.codecReserve, h.codec]

theorem Dest.Frame.newDatabase (h : d.Frame d') : newDatabase d' = newDatabase d := by
  funext c j
  simp only [Backup.newDatabase, h.pageSize, h.reserve, h.autoVacuum, h.incrVacuum]

theorem Dest.Frame.visible {d d' : Dest} (h : d.Frame d') (hv : d.Visible off) :
    d'.Visible off := by
  unfold Visible at *
  rw [h.pageSize, h.codecReserve]
  exact ⟨hv.1.trans h.dbSize, hv.2⟩

/-- The operation changes what is seen at the positions in `R`, to `f`, and nowhere else. -/
structure Dest.Becomes (d d' : Dest) (R : Nat → Prop) (f : Nat → Option UInt8) : Prop where
  frame : d.Frame d'
  inside : ∀ off, R off → off / d.pageSize + 1 ≤ d'.dbSize ∧
    (¬ d'.Failed → off % d.pageSize < d.pageSize - d.codecReserve → d'.see off = f off)
  outside : ¬ d'.Failed → ∀ off, d.Visible off → ¬ R off → d'.see off = d.see off

section Becomes

variable {d d' d'' : Dest} {R R' : Nat → Prop} {f : Nat → Option UInt8}

theorem Dest.Becomes.refl (d : Dest) (f : Nat → Option UInt8) : d.Becomes d (fun _ => False) f :=
  ⟨.refl d, nofun, fun _ _ _ _ => rfl⟩

theorem Dest.Becomes.trans (h : d.Becomes d' R f) (h' : d'.Becomes d'' R' f) :
    d.Becomes d'' (fun off => R off ∨ R' off) f := by
  have hps := h.frame.pageSize
  have hres := h.frame.codecReserve
  refine ⟨h.frame.trans h'.frame, fun off hoff => ?_, fun hok off hv hno => ?_⟩
  · by_cases hR' : R' off
    · have := h'.inside off hR'
      rwa [hps, hres] at this
    · have hR := hoff.resolve_right hR'
      refine ⟨(h.inside off hR).1.trans h'.frame.dbSize, fun hok hlt => ?_⟩
      have hv : d'.Visible off := by
        rw [Visible, hps, hres]
        exact ⟨(h.inside off hR).1, hlt⟩
      exact (h'.outside hok off hv hR').trans
        ((h.inside off hR).2 (fun hf => hok (h'.frame.failed hf)) hlt)
  · obtain ⟨hR, hR'⟩ := not_or.mp hno
    exact (h'.outside hok off (h.frame.visible hv) hR').trans
      (h.outside (fun hf => hok (h'.frame.failed hf)) off hv hR)

theorem Dest.Becomes.congr (h : d.Becomes d' R f) (hR : ∀ off, R' off ↔ R off) :
    d.Becomes d' R' f := by
  have : R' = R := funext fun off => propext (hR off)
  exact this ▸ h

theorem Dest.Becomes.nothing_then (h : d.Becomes d' (fun _ => False) f) (h' : d'.Becomes d'' R f) :
    d.Becomes d'' R f :=
  (h.trans h').congr fun _ => by simp

theorem Dest.Becomes.then_nothing (h : d.Becomes d' R f) (h' : d'.Becomes d'' (fun _ => False) f) :
    d.Becomes d'' R f :=
  (h.trans h').congr fun _ => by simp

end Becomes

def isFailure (rc : ResultCode) : Bool := isFatalError rc && rc ≠ .done

theorem isFatalError_of_isFailure (h : isFailure rc = true) : isFatalError rc = true :=
  (Bool.and_eq_true_iff.mp h).1

theorem ends_of_isFailure (h : isFailure rc = true) :
    rc ≠ .done ∧ (isFatalError rc = true ∨ P) :=
  ⟨of_decide_eq_true (Bool.and_eq_true_iff.mp h).2, .inl (isFatalError_of_isFailure h)⟩

abbrev Fatal (e : ResultCode) (_ : Dest) : Prop := isFailure e = true

theorem Fault.fatal (fault : Fault) : isFailure fault.rc = true := by
  cases fault <;> rfl

theorem Refusal.ne_done (refusal : Refusal) : refusal.rc ≠ .done := by
  rcases refusal with _ | _ | _ | _ | _ | _ | _ <;> nofun

variable {w : World} {d : Dest} {σ : Type} {pgno : Nat} {c data : Content} {last : Option Nat}

theorem lock_wlp (hQ : Q () s) (hE : ∀ e, e ≠ .done → E e s) : wlp (lock w call) Q E s := by
  unfold lock
  split
  · exact hQ
  · exact hE _ (Refusal.ne_done _)

theorem request_wlp (hQ : w.fault call = none → Q () s) (hE : ∀ e, isFailure e = true → E e s) :
    wlp (request w call) Q E s := by
  unfold request
  split
  · exact hQ ‹_›
  · exact hE _ (Fault.fatal _)

/-! ## The pager -/

@[simp] theorem Dest.cache_setContent (d : Dest) (pgno : Nat) (c : Content) (n : Nat) :
    (d.setContent pgno c).cache n = if n = pgno then some c else d.cache n := rfl

@[simp] theorem Dest.pageSize_setContent (d : Dest) (pgno : Nat) (c : Content) :
    (d.setContent pgno c).pageSize = d.pageSize := rfl

@[simp] theorem Dest.plain_setContent (d : Dest) (pgno : Nat) (c : Content) :
    (d.setContent pgno c).plain = d.plain := rfl

@[simp] theorem Dest.cache_put (d : Dest) (pgno : Nat) (raw : Content) :
    (d.put pgno raw).cache = d.cache := rfl

@[simp] theorem Dest.pageSize_put (d : Dest) (pgno : Nat) (raw : Content) :
    (d.put pgno raw).pageSize = d.pageSize := rfl

@[simp] theorem Dest.cache_drop (d : Dest) (pgno n : Nat) :
    (d.drop pgno).cache n = if n = pgno then none else d.cache n := rfl

@[simp] theorem Dest.pageSize_drop (d : Dest) (pgno : Nat) :
    (d.drop pgno).pageSize = d.pageSize := rfl

@[simp] theorem Dest.plain_drop (d : Dest) (pgno : Nat) : (d.drop pgno).plain = d.plain := rfl

theorem Dest.isSome_setContent (c : Content) (h : (d.cache n).isSome = true) :
    ((d.setContent pgno c).cache n).isSome = true := by
  simp only [cache_setContent]
  split
  · rfl
  · exact h

theorem offset_lt (hn : 1 ≤ n) (hj : j < p) : (n - 1) * p + j < n * p := by
  have : (n - 1) * p + p = n * p := by
    rw [← Nat.succ_mul, Nat.succ_eq_add_one, Nat.sub_add_cancel hn]
  omega

theorem Dest.raw_put_self (d : Dest) (raw : Content) (hn : 1 ≤ pgno) (hj : j < d.pageSize) :
    (d.put pgno raw).raw pgno j = raw j := by
  have hoff := lt_max_of_lt_right (b := d.fileSize) (offset_lt hn hj)
  calc (d.put pgno raw).raw pgno j
      = (d.put pgno raw).file ((pgno - 1) * d.pageSize + j) := if_pos ⟨hj, hoff⟩
    _ = raw (((pgno - 1) * d.pageSize + j) % d.pageSize) := if_pos (by rw [div_page _ hj]; omega)
    _ = raw j := by rw [mod_page _ hj]

theorem Dest.raw_put_ne (d : Dest) (raw : Content) (hn : 1 ≤ n) (hne : n ≠ pgno) :
    (d.put pgno raw).raw n = d.raw n := by
  funext j
  simp only [Dest.raw, Dest.put, Dest.byte]
  by_cases hj : j < d.pageSize
  · rw [div_page _ hj, if_neg (show ¬ n - 1 + 1 = pgno by omega)]
    grind
  · simp [hj]

theorem Dest.plain_put_ne (d : Dest) (raw : Content) (hn : 1 ≤ n) (hne : n ≠ pgno) :
    (d.put pgno raw).plain n = d.plain n := by
  have hraw := d.raw_put_ne raw hn hne
  unfold plain
  rw [hraw]
  rfl

/-- A page that is in the file as `raw` reads as `c`. -/
def Dest.Reads (d : Dest) (pgno : Nat) (raw c : Content) : Prop :=
  ∀ d₁ : Dest, d₁.codec = d.codec → (∀ j < d.pageSize, d₁.raw pgno j = raw j) →
    ∀ j < d.pageSize - d.codecReserve, (d₁.plain pgno).map (fun c => c j) = some (c j)

theorem Dest.reads_none (hcodec : d.codec = none) : d.Reads pgno c c := by
  intro d₁ h₁ hraw j hj
  simp [plain, h₁, hcodec, hraw j (by omega)]

theorem Dest.reads_encode {codec : PageCodec} (nonce : Nat) (hcodec : d.codec = some codec)
    (hsz : codec.pageSz = d.pageSize) (hmagic : pgno = 1 → ∀ j < fileHeaderSz, c j = magic j) :
    d.Reads pgno (codec.encode nonce pgno c) c := by
  intro d₁ h₁ hraw j hj
  obtain ⟨c', hdec, hc'⟩ := codec.decode_encode nonce pgno c (d₁.raw pgno) hmagic
    (fun j hj => hraw j (hsz ▸ hj))
  simp only [plain, h₁, hcodec, hdec, Option.map_some]
  refine congrArg some (hc' j ?_)
  simpa [codecReserve, hcodec, hsz] using hj

theorem encoded_wlp (hn : 1 < pgno) :
    wlp (encoded w pgno c) (fun raw d' => d' = d ∧ d.Reads pgno raw c) Fatal d := by
  refine .read ?_
  cases hcodec : d.codec with
  | none => exact .pure ⟨rfl, reads_none hcodec⟩
  | some codec =>
    refine .ite ⟨fun _ => trivial, fun hsz => .ite ⟨fun _ => rfl, fun _ => ?_⟩⟩
    exact .pure ⟨rfl, reads_encode _ hcodec (by simpa using hsz) fun h1 => absurd h1 (by omega)⟩

theorem spill_wlp (f : Nat → Option UInt8) (pgno : Nat) :
    wlp (spill w pgno) (fun _ d' => d.Becomes d' (fun _ => False) f) Fatal d := by
  refine .read ?_
  cases hcache : d.cache pgno with
  | none => exact .refl d f
  | some c =>
    refine .ite ⟨fun _ => .refl d f, fun hn => ?_⟩
    obtain ⟨h1, hdb⟩ : 1 < pgno ∧ pgno ≤ d.dbSize := by omega
    refine .seq (encoded_wlp h1) fun raw d' h => ?_
    obtain ⟨rfl, hread⟩ := h
    refine .modify ⟨⟨rfl, rfl, rfl, rfl, rfl, rfl, id, fun ho => ?_, le_rfl⟩, nofun, ?_⟩
    · refine ⟨⟨ho.valid, ?_, ho.dbSize⟩, ?_, Nat.max_le.mpr ⟨ho.grown, hdb⟩⟩
      · simpa [drop, put, show 1 ≠ pgno by omega] using ho.page1
      · refine Nat.max_le.mpr ⟨ho.size.trans (Nat.mul_le_mul_right _ (Nat.le_max_left _ _)), ?_⟩
        exact Nat.mul_le_mul_right _ (Nat.le_max_right _ _)
    · intro _ off hv _
      by_cases hoff : off / d'.pageSize + 1 = pgno
      · have := hread ((d'.put pgno raw).drop pgno) rfl
          (fun j hj => d'.raw_put_self raw (by omega) hj) _ hv.2
        simpa [see, content, hoff, hcache] using this
      · have := d'.plain_put_ne raw (Nat.le_add_left 1 (off / d'.pageSize)) hoff
        simp [see, content, hoff, this]

theorem readDbPage_wlp (f : Nat → Option UInt8) :
    wlp (readDbPage pgno) (fun c d' => d.Becomes d' (fun _ => False) f ∧
      (d' = d ∨ d' = { d with codecError := true }) ∧
        (¬ d'.Failed → d'.plain pgno = some c)) Fatal d := by
  refine .read ?_
  cases hcodec : d.codec with
  | none => exact ⟨.refl d f, .inl rfl, fun _ => by simp [plain, hcodec]⟩
  | some codec =>
    have hfailed : d.codecError = true → d.Failed := fun h => ⟨by simp [hcodec], h⟩
    refine .ite ⟨fun _ => trivial, fun _ => .ite ⟨fun herr => ?_, fun _ => ?_⟩⟩
    · exact ⟨.refl d f, .inl rfl, fun hok => absurd (hfailed herr) hok⟩
    · cases hdec : codec.decode pgno (d.raw pgno) with
      | some c => exact ⟨.refl d f, .inl rfl, fun _ => by simp [plain, hcodec, hdec]⟩
      | none =>
        have hbad : ({ d with codecError := true } : Dest).Failed := ⟨by simp [hcodec], rfl⟩
        refine .write ⟨⟨⟨rfl, rfl, rfl, rfl, rfl, rfl, fun _ => hbad, ?_, le_rfl⟩,
          nofun, fun hok => absurd hbad hok⟩, .inr (by rw [hcodec]), fun hok => absurd hbad hok⟩
        exact fun ho => ⟨{ ho with }, ho.size, ho.grown⟩

theorem Dest.setContent_becomes (f : Nat → Option UInt8)
    (hn : pgno ≤ d.dbSize → ¬ d.Failed → d.content pgno = some c) :
    d.Becomes (d.setContent pgno c) (fun _ => False) f := by
  refine ⟨⟨rfl, rfl, rfl, rfl, rfl, rfl, id, fun ho => ?_, le_rfl⟩, nofun, fun hok off hv _ => ?_⟩
  · exact { ho with page1 := isSome_setContent c ho.page1 }
  · by_cases hoff : off / d.pageSize + 1 = pgno
    · have hcontent := hn (hoff ▸ hv.1) hok
      simp only [see, pageSize_setContent, hoff, hcontent]
      simp [content]
    · simp [see, content, hoff]

theorem Dest.write_becomes (d : Dest)
    (hin : ∀ o, R o → o / d.pageSize + 1 = pgno ∧ some (c (o % d.pageSize)) = f o)
    (hout : ∀ o, o / d.pageSize + 1 = pgno → d.Visible o → ¬ R o →
      some (c (o % d.pageSize)) = d.see o) :
    d.Becomes (({ d with dbSize := max d.dbSize pgno } : Dest).setContent pgno c) R f := by
  refine ⟨⟨rfl, rfl, rfl, rfl, rfl, rfl, id, fun ho => ?_, Nat.le_max_left _ _⟩, fun o ho => ?_,
    fun _ o hv ho => ?_⟩
  · have hle := Nat.le_max_left d.dbSize pgno
    exact { ho with
      page1 := isSome_setContent c ho.page1
      dbSize := ho.dbSize.trans hle
      grown := ho.grown.trans hle }
  · obtain ⟨hpg, hc⟩ := hin o ho
    refine ⟨hpg ▸ Nat.le_max_right _ _, fun _ _ => ?_⟩
    simpa [see, content, hpg] using hc
  · by_cases hpg : o / d.pageSize + 1 = pgno
    · simpa [see, content, hpg] using hout o hpg hv ho
    · simp only [see, content, pageSize_setContent, cache_setContent, if_neg hpg]
      rfl

theorem destGet_wlp (f : Nat → Option UInt8) (pgno : Nat) :
    wlp (destGet w pgno) (fun c d' => d.Becomes d' (fun _ => False) f ∧ d'.cache pgno = some c)
      Fatal d := by
  have hspill : wlp (forEach (spill w) (w.spill pgno))
      (fun _ d' => d.Becomes d' (fun _ => False) f) Fatal d :=
    .forEach (fun n d₁ h₁ => .post (spill_wlp f n) fun _ _ h => h₁.then_nothing h) (.refl d f)
  refine .seq hspill fun _ d₁ h₁ => ?_
  refine .bind (request_wlp (fun _ => .read ?_) fun _ => id)
  cases hcache : d₁.cache pgno with
  | some c => exact ⟨h₁, hcache⟩
  | none =>
    dsimp only
    split
    · next hdb =>
      exact .bind (.pure (.write (.pure
        ⟨h₁.then_nothing (setContent_becomes f fun hle => absurd hle (by omega)), by simp⟩)))
    · refine .seq (readDbPage_wlp f) fun c d₂ h => ?_
      obtain ⟨h₂, hd₂, hplain⟩ := h
      have hcache₂ : d₂.cache = d₁.cache := by
        rcases hd₂ with rfl | rfl <;> rfl
      refine .write ⟨(h₁.then_nothing h₂).then_nothing (setContent_becomes f fun _ hok => ?_), ?_⟩
      · simp [content, hcache₂, hcache, hplain hok]
      · simp

/-! ## Copying a page -/

theorem copied_byte (ha : ValidPageSize a) (hd : ValidPageSize d.pageSize)
    (hp : Part a d.pageSize base off) (j : Nat) :
    patched last off (c.copy (off % d.pageSize) data (off % a) (min a d.pageSize)) j =
    if off % d.pageSize ≤ j ∧ j < off % d.pageSize + min a d.pageSize then
      patched last base data (off - base + (j - off % d.pageSize)) else c j := by
  have hmin : 512 ≤ min a d.pageSize := Nat.le_min.mpr ⟨ha.ge, hd.ge⟩
  have hbase := hp.base_le
  have hstart := hp.start
  have hzero : off = 0 → off % d.pageSize = 0 := fun h => by simp [h]
  have hrest : off ≠ 0 → base = 0 → 512 ≤ off := by
    intro hne hb
    by_contra hlt
    have hmod : off % d.pageSize = off := Nat.mod_eq_of_lt (by have := hd.ge; omega)
    have := hp.room
    have := hp.le_end
    omega
  cases last with
  | none => simp only [patched, Content.copy, hstart]
  | some n =>
    by_cases h0 : off = 0
    · have hb : base = 0 := by omega
      simp only [patched, Content.copy, Content.put4byte, h0, hb, if_pos, Nat.zero_mod, Nat.zero_le,
        true_and, Nat.zero_add, Nat.sub_zero]
      grind
    · have hnot : ∀ k, off - base ≤ k → patched (some n) base data k = data k := by
        intro k hk
        simp only [patched]
        split
        · have := hrest h0 ‹_›
          exact if_neg (by omega)
        · rfl
      rw [patched, if_neg h0, Content.copy, hstart]
      split
      · rw [hnot _ (by omega)]
      · rfl

theorem copyPart_wlp (ha : ValidPageSize a) (hd : ValidPageSize d.pageSize)
    (hp : Part a d.pageSize base off) :
    wlp (copyPart w a last data off) (fun _ d' => d.Becomes d'
      (fun o => (off ≤ o ∧ o < off + min a d.pageSize) ∧
        o / d.pageSize + 1 ≠ pendingBytePage d.pageSize)
      fun o => some (patched last base data (o - base))) Fatal d := by
  have hpage : ∀ o, off ≤ o → o < off + min a d.pageSize →
      o / d.pageSize = off / d.pageSize ∧ o % d.pageSize = off % d.pageSize + (o - off) := by
    intro o hlo hhi
    have := hp.div (show o - off < min a d.pageSize by omega)
    rwa [Nat.add_sub_cancel' hlo] at this
  refine .read (.ite ⟨fun hpend => ?_, fun hpend => ?_⟩)
  · refine (Becomes.refl d _).congr fun o => iff_of_false ?_ id
    rintro ⟨⟨hlo, hhi⟩, hne⟩
    exact hne ((hpage o hlo hhi).1 ▸ hpend)
  · refine .seq (destGet_wlp (fun o => some (patched last base data (o - base))) _) fun c d₁ h₁
      => ?_
    obtain ⟨h₁, hcache⟩ := h₁
    have hps := h₁.frame.pageSize
    refine .bind (.bind (request_wlp (fun _ => ?_) fun _ => id))
    refine .modify (.modify (h₁.nothing_then (d₁.write_becomes (fun o ho => ?_)
      fun o hdiv hv ho => ?_)))
    · obtain ⟨⟨hlo, hhi⟩, hne⟩ := ho
      obtain ⟨hdiv, hmod⟩ := hpage o hlo hhi
      rw [hps, hdiv, hmod]
      refine ⟨rfl, ?_⟩
      rw [copied_byte ha hd hp, if_pos (by omega)]
      congr 2
      have := hp.base_le
      omega
    · rw [hps] at hdiv ⊢
      have hdiv' : o / d.pageSize = off / d.pageSize := by omega
      rw [copied_byte ha hd hp, if_neg]
      · simp [see, content, hps, hdiv', hcache]
      · intro hin
        have h1 := Nat.div_add_mod' o d.pageSize
        have h2 := Nat.div_add_mod' off d.pageSize
        rw [hdiv'] at h1
        exact ho ⟨by omega, hdiv ▸ hpend⟩

/-- The positions of a page of the source, without those in the pending-byte page. -/
def InPage (a b n off : Nat) : Prop :=
  ((n - 1) * a ≤ off ∧ off < (n - 1) * a + a) ∧ off / b + 1 ≠ pendingBytePage b

theorem checkGeometry_wlp (a reserve : Nat) (f : Nat → Option UInt8) :
    wlp (checkGeometry a reserve) (fun _ d' => d.Becomes d' (fun _ => False) f) Fatal d := by
  refine .read (.ite ⟨fun _ => ?_, fun _ => ?_⟩)
  · refine .write (.ite ⟨fun _ => rfl, fun _ => .pure ?_⟩)
    refine ⟨⟨rfl, rfl, rfl, rfl, rfl, rfl, id, fun ho => ?_, le_rfl⟩, nofun, fun _ _ _ _ => rfl⟩
    exact ⟨{ ho with }, ho.size, ho.grown⟩
  · exact .ite ⟨fun _ => rfl, fun _ => .pure (.refl d f)⟩

theorem backupOnePage_wlp {a reserve : Nat} (ha : ValidPageSize a) (hd : ValidPageSize d.pageSize) :
    wlp (backupOnePage w a reserve n data last) (fun _ d' => d.Becomes d' (InPage a d.pageSize n)
      fun o => some (patched last ((n - 1) * a) data (o - (n - 1) * a))) Fatal d := by
  refine .seq (checkGeometry_wlp a reserve fun o => some (patched last ((n - 1) * a) data (o - (n
    - 1) * a))) fun _ d₁ h₁ => ?_
  have hps := h₁.frame.pageSize
  refine .read ?_
  rw [hps]
  -- the parts copied so far
  have hloop : ∀ (L : List Nat) (d₂ : Dest), d₂.pageSize = d.pageSize →
      (∀ off ∈ L, Part a d.pageSize ((n - 1) * a) off) →
      wlp (forEach (copyPart w a last data) L) (fun _ d' => d₂.Becomes d'
        (fun o => ∃ off ∈ L, (off ≤ o ∧ o < off + min a d.pageSize) ∧
          o / d.pageSize + 1 ≠ pendingBytePage d.pageSize)
        fun o => some (patched last ((n - 1) * a) data (o - (n - 1) * a))) Fatal d₂ := by
    intro L
    induction L with
    | nil => exact fun d₂ _ _ => (Becomes.refl d₂ _).congr fun o => by simp
    | cons off L ih =>
      intro d₂ hps₂ hL
      have hpart := hL off List.mem_cons_self
      rw [← hps₂] at hpart
      refine .seq (copyPart_wlp ha (hps₂ ▸ hd) hpart) fun _ d₃ h₃ => ?_
      refine .post (ih d₃ (h₃.frame.pageSize.trans hps₂)
        fun o ho => hL o (List.mem_cons_of_mem off ho)) fun _ d₄ h₄ => ?_
      rw [hps₂] at h₃
      exact (h₃.trans h₄).congr fun o => by simp
  refine .post (hloop _ d₁ hps fun off hoff => mem_offsets_part ha hd hoff)
    fun _ d₂ h₂ => h₁.nothing_then (h₂.congr fun o => ?_)
  constructor
  · rintro ⟨⟨hlo, hhi⟩, hne⟩
    obtain ⟨off, hoff, hin⟩ := exists_mem_offsets hd hlo hhi
    exact ⟨off, hoff, hin, hne⟩
  · rintro ⟨off, hoff, ⟨hlo, hhi⟩, hne⟩
    have hpart := mem_offsets_part ha hd hoff
    have := hpart.base_le
    have := hpart.le_end
    exact ⟨⟨by omega, by omega⟩, hne⟩

/-! ## Failures are fatal -/

abbrev AllFatal {σ α : Type} (x : Proc σ ResultCode α) : Prop :=
  Maintains (fun _ => True) (fun e _ => isFailure e = true) x

theorem allFatal_request (w : World) (call : PageCall) :
    AllFatal (request w call : Proc σ ResultCode Unit) := fun _ _ =>
  request_wlp (fun _ => trivial) fun _ => id

theorem allFatal_destGet (w : World) (n : Nat) : AllFatal (destGet w n) := fun _ _ =>
  .post (destGet_wlp (fun _ => none) n) fun _ _ _ => trivial

theorem allFatal_destWrite (w : World) (n : Nat) : AllFatal (destWrite w n) :=
  .bind (allFatal_request w _) fun _ => .modify fun _ => id

theorem allFatal_modifyPage1 (g : Dest → Content → Content) : AllFatal (modifyPage1 g) :=
  .bind .get fun d => by
    cases d.cache 1 with
    | none => exact .undefined
    | some c => exact .modify fun _ => id

theorem allFatal_commitPhaseOne (w : World) : AllFatal (commitPhaseOne w) :=
  .bind (allFatal_modifyPage1 _) fun _ => .bind (allFatal_request w _)
    fun _ => .bind .get fun d => by
    cases d.codec with
    | none => exact .modify fun _ => id
    | some codec => exact .ite .undefined (.ite (.fail fun _ _ => rfl) (.modify fun _ => id))

theorem allFatal_journalRest (w : World) (n : Nat) : AllFatal (journalRest w n) :=
  .bind .get fun _ => .forEach fun m _ => .ite (.pure _) (.bind (allFatal_destGet w m) fun _ =>
    allFatal_destWrite w m)

/-! ## The first step -/

theorem Dest.setPageSize_grown (d : Dest) {pageSize : Nat} (h : 0 < pageSize) :
    (d.setPageSize pageSize).fileSize ≤ (d.setPageSize pageSize).dbFileSize * pageSize := by
  have := Nat.div_add_mod' (d.fileSize + pageSize - 1) pageSize
  have := Nat.mod_lt (d.fileSize + pageSize - 1) h
  simp only [setPageSize]
  omega

theorem setDestPgsz_wlp (ha : ValidPageSize a) (hd : ValidPageSize d.pageSize) :
    wlp (setDestPgsz w a) (fun _ d' => ValidPageSize d'.pageSize ∧
      d'.headerSize = d.headerSize ∧ d'.codec = d.codec) Fatal d := by
  refine .write (.read (.ite ⟨fun _ => ⟨hd, rfl, rfl⟩, fun _ => ?_⟩))
  refine .seq (.when ⟨fun _ => .modify ⟨?_, rfl, rfl⟩, fun _ => ⟨hd, rfl, rfl⟩⟩) fun _ d' h =>
    .ite ⟨fun _ => rfl, fun _ => .pure h⟩
  simp only [setPageSize]
  split
  · exact ⟨10, by decide, by decide, rfl⟩
  · exact ha

theorem Dest.opened_spec (d : Dest) (hd : ValidPageSize d.pageSize)
    (hh : ∀ p ∈ d.headerSize, ValidPageSize p) : ValidPageSize d.opened.pageSize ∧
      d.opened.fileSize ≤ d.opened.dbFileSize * d.opened.pageSize ∧
      d.opened.dbFileSize = d.opened.dbSize ∧ d.opened.codec = d.codec := by
  unfold opened
  split
  · next p _ hp => exact ⟨hh p hp, d.setPageSize_grown (hh p hp).pos, rfl, rfl⟩
  · exact ⟨hd, d.setPageSize_grown hd.pos, rfl, rfl⟩

theorem lockDest_wlp (ha : ValidPageSize a) (hd : ValidPageSize d.pageSize)
    (hh : ∀ p ∈ d.headerSize, ValidPageSize p) :
    wlp (lockDest w a) (fun _ d' => d'.Open ∧ d'.codec = d.codec)
      (fun e d' => e ≠ .done ∧ (isFatalError e = true ∨
        ValidPageSize d'.pageSize ∧ ∀ p ∈ d'.headerSize, ValidPageSize p)) d := by
  refine .bind (.mono (setDestPgsz_wlp ha hd) (fun _ d₁ h₁ => ?_) fun _ _ => ends_of_isFailure)
  obtain ⟨hd₁, hh₁, hcodec₁⟩ := h₁
  have hh₁ : ∀ p ∈ d₁.headerSize, ValidPageSize p := hh₁ ▸ hh
  refine .bind (lock_wlp (.write ?_) fun _ he =>
    ⟨he, .inr ⟨hd₁, hh₁⟩⟩)
  obtain ⟨hvalid, hsize, hgrown, hcodec⟩ := d₁.opened_spec hd₁ hh₁
  have hcodec := hcodec.trans hcodec₁
  refine .read (.ite ⟨fun hdb => ?_, fun hdb => ?_⟩)
  · refine .write (.pure ⟨⟨⟨hvalid, by simp, le_rfl⟩, hsize, ?_⟩, hcodec⟩)
    simp [setContent, hgrown, hdb]
  · refine .bind (.mono (readDbPage_wlp fun _ => none) (fun c d₂ h₂ => ?_)
      fun _ _ => ends_of_isFailure)
    refine .write (.pure ?_)
    obtain ⟨-, rfl | rfl, -⟩ := h₂ <;>
      exact ⟨⟨⟨hvalid, by simp, Nat.pos_of_ne_zero hdb⟩, hsize, hgrown.le⟩, hcodec⟩

/-! ## The last step -/

/-- What is seen changes at most at the positions in `R`. -/
abbrev Dest.Changes (d d' : Dest) (R : Nat → Prop) : Prop := d.Becomes d' R d'.see

section Changes

variable {d' : Dest} {R R' : Nat → Prop}

theorem Dest.Becomes.changes (h : d.Becomes d' R f) : d.Changes d' R :=
  ⟨h.frame, fun o ho => ⟨(h.inside o ho).1, fun _ _ => rfl⟩, h.outside⟩

theorem Dest.Becomes.weaken (h : d.Changes d' R) (hR : ∀ o, R o → R' o)
    (hin : ∀ o, R' o → o / d.pageSize + 1 ≤ d'.dbSize) : d.Changes d' R' :=
  ⟨h.frame, fun o ho => ⟨hin o ho, fun _ _ => rfl⟩,
    fun hok o hv hno => h.outside hok o hv fun hyes => hno (hR o hyes)⟩

end Changes

/-- The header bytes that belong to the destination: file format versions, change counter, schema
cookie and library version. -/
def Header (off : Nat) : Prop :=
  off = 18 ∨ off = 19 ∨ (24 ≤ off ∧ off < 28) ∨ (40 ≤ off ∧ off < 44) ∨ (92 ≤ off ∧ off < 100)

def Dest.page1 (d : Dest) : Content := (d.cache 1).getD .zero

theorem Dest.Held.see (h : d.Held) (hj : j < d.pageSize) : d.see j = some (d.page1 j) := by
  obtain ⟨c, hc⟩ := Option.isSome_iff_exists.mp h.page1
  simp [Dest.see, Nat.div_eq_of_lt hj, Nat.mod_eq_of_lt hj, Dest.content, Dest.page1, hc]

structure Dest.Page1 (d d' : Dest) (c : Content) : Prop where
  held : d'.Held
  frame : d.Frame d'
  dbSize : d'.dbSize = d.dbSize
  fileSize : d'.fileSize = d.fileSize
  dbFileSize : d'.dbFileSize = d.dbFileSize
  page1 : d'.page1 = c
  changes : ∀ R : Nat → Prop, (∀ j < d.pageSize, ¬ R j → c j = d.page1 j) →
    (∀ j, R j → j < d.pageSize) → d.Changes d' R

theorem modifyPage1_wlp (ho : d.Held) (g : Dest → Content → Content) :
    wlp (modifyPage1 g) (fun _ d' => d.Page1 d' (g d d.page1)) Fatal d := by
  obtain ⟨c, hc⟩ := Option.isSome_iff_exists.mp ho.page1
  have hpage1 : d.page1 = c := by simp [page1, hc]
  have hdb : max d.dbSize 1 = d.dbSize := Nat.max_eq_left ho.dbSize
  rw [modifyPage1]
  refine .read ?_
  rw [hc]
  refine .modify ?_
  have hsame : ({ d.setContent 1 (g d c) with dbSize := max d.dbSize 1 } : Dest) =
      ({ d with dbSize := max d.dbSize 1 } : Dest).setContent 1 (g d c) := rfl
  rw [hsame]
  have hbecomes : ∀ R : Nat → Prop, (∀ j < d.pageSize, ¬ R j → g d d.page1 j = d.page1 j) →
      (∀ j, R j → j < d.pageSize) →
      d.Changes (({ d with dbSize := max d.dbSize 1 } : Dest).setContent 1 (g d c)) R := by
    intro R hR hlt
    refine (d.write_becomes (f := fun o => some (g d c o)) (fun o hRo => ?_)
      fun o hpg _ hRo => ?_).changes
    · rw [Nat.div_eq_of_lt (hlt o hRo), Nat.mod_eq_of_lt (hlt o hRo)]
      exact ⟨rfl, rfl⟩
    · have hlt' : o < d.pageSize := by
        have := (Nat.div_eq_zero_iff).mp (show o / d.pageSize = 0 by omega)
        have := ho.valid.pos
        omega
      rw [ho.see hlt', Nat.mod_eq_of_lt hlt', ← hR o hlt' hRo, hpage1]
  have hframe := (hbecomes (fun j => j < d.pageSize) (fun j hj hn => absurd hj hn)
    fun _ => id).frame
  refine ⟨⟨ho.valid, by simp, hdb.symm ▸ ho.dbSize⟩, hframe, hdb, rfl, rfl, ?_, hbecomes⟩
  simp [page1, hc]

theorem Dest.raw_flush (d : Dest) (enc : Nat → Content → Content) (hn : 1 ≤ n) (hdb : n ≤ d.dbSize)
    (hpend : n ≠ pendingBytePage d.pageSize) (hj : j < d.pageSize) :
    (d.flush enc).raw n j = (d.cache n).elim (d.raw n j) fun c => enc n c j := by
  have hsize : (n - 1) * d.pageSize + j < (d.flush enc).fileSize := by
    refine (offset_lt hn hj).trans_le ((Nat.mul_le_mul_right _ ?_).trans (Nat.le_max_right _ _))
    split <;> omega
  have hpg : ((n - 1) * d.pageSize + j) / d.pageSize + 1 = n := by
    rw [div_page _ hj]
    omega
  calc (d.flush enc).raw n j = (d.flush enc).file ((n - 1) * d.pageSize + j) := if_pos ⟨hj, hsize⟩
    _ = (d.cache n).elim (d.raw n j) fun c => enc n c j := by
      simp only [flush, hpg, mod_page _ hj, hdb, if_true]
      cases d.cache n with
      | none => simp [byte, raw, hj]
      | some c => rfl

/-- What the file has after `sqlite3PagerCommitPhaseOne`. -/
structure Dest.Written (d d' : Dest) : Prop where
  pageSize : d'.pageSize = d.pageSize
  codec : d'.codec = d.codec
  newDatabase : newDatabase d' = newDatabase d
  codecSize : ∀ codec ∈ d.codec, codec.pageSz = d.pageSize
  ok : ¬ d.Failed
  clean : d'.cache = fun _ => none
  dbSize : d'.dbSize = d.dbSize
  dbFileSize : d'.dbFileSize = max d.dbFileSize d.dbSize
  fileSize : d'.fileSize = max d.fileSize
    ((if d.dbSize = pendingBytePage d.pageSize then d.dbSize - 1 else d.dbSize) * d.pageSize)
  see : ∀ off, d.Visible off → off / d.pageSize + 1 ≠ pendingBytePage d.pageSize →
    d'.see off = d.see off

theorem Dest.written_flush (enc : Nat → Content → Content) (hok : ¬ d.Failed)
    (hsz : ∀ codec ∈ d.codec, codec.pageSz = d.pageSize)
    (hread : ∀ n c, d.cache n = some c → d.Reads n (enc n c) c) : d.Written (d.flush enc) := by
  refine ⟨rfl, rfl, rfl, hsz, hok, rfl, rfl, rfl, rfl, fun off hv hpend => ?_⟩
  have hraw : ∀ j < d.pageSize, _ := fun j hj =>
    d.raw_flush enc (Nat.le_add_left 1 (off / d.pageSize)) hv.1 hpend hj
  have hsee : (d.flush enc).see off =
      ((d.flush enc).plain (off / d.pageSize + 1)).map fun c => c (off % d.pageSize) := rfl
  rw [hsee]
  cases hc : d.cache (off / d.pageSize + 1) with
  | none =>
    have hsame : (d.flush enc).raw (off / d.pageSize + 1) = d.raw (off / d.pageSize + 1) := by
      funext j
      by_cases hj : j < d.pageSize
      · rw [hraw j hj, hc]
        rfl
      · simp only [raw]
        rw [if_neg (fun h => hj h.1), if_neg (fun h => hj h.1)]
    simp only [see, content, hc, plain, hsame]
    rfl
  | some c =>
    rw [hread _ c hc (d.flush enc) rfl (fun j hj => by rw [hraw j hj, hc]; rfl) _ hv.2]
    simp [see, content, hc]

theorem changeCounter_of_not_header (w : World) (c : Content) (h : ¬ Header j) :
    changeCounter w c j = c j := by
  unfold Header at h
  simp only [changeCounter, Content.put4byte]
  rw [if_neg (by omega), if_neg (by omega), if_neg (by omega)]

theorem Header.lt (h : Header off) : off < 512 := by
  unfold Header at h
  omega

/-- The first phase of a commit: the change counter, and everything goes to the file. -/
theorem commitPhaseOne_wlp (ho : d.Held)
    (hmagic : ¬ d.Failed → ∀ codec ∈ d.codec, codec.pageSz = d.pageSize → ∀ j < fileHeaderSz,
      d.page1 j = magic j) :
    wlp (commitPhaseOne w) (fun _ d' => ∃ d₁, d.Page1 d₁ (changeCounter w d.page1) ∧
      d₁.Written d') Fatal d := by
  refine .seq (modifyPage1_wlp ho _) fun _ d₁ h₁ => ?_
  refine .bind (request_wlp (fun _ => .read ?_) fun _ => id)
  cases hcodec : d₁.codec with
  | none =>
    exact .modify ⟨d₁, h₁, d₁.written_flush _ (by simp [Failed, hcodec]) (by simp [hcodec])
      fun _ _ _ => reads_none hcodec⟩
  | some codec =>
    refine .ite ⟨fun _ => trivial, fun hsz => .ite ⟨fun _ => rfl, fun herr => ?_⟩⟩
    have hsz : codec.pageSz = d₁.pageSize := by simpa using hsz
    refine .modify ⟨d₁, h₁, d₁.written_flush _ (fun hf => herr hf.2) (by simp [hcodec, hsz])
      fun n c hc => reads_encode _ hcodec hsz ?_⟩
    rintro rfl j hj
    have hpage1 : d₁.page1 = c := by simp [page1, hc]
    have hnot : ¬ Header j := by
      unfold Header fileHeaderSz at *
      omega
    rw [← hpage1, h₁.page1, changeCounter_of_not_header w _ hnot]
    have hok : ¬ d.Failed := fun hf => herr (h₁.frame.failed hf).2
    exact hmagic hok codec (h₁.frame.codec ▸ hcodec) (hsz.trans h₁.frame.pageSize) j hj

theorem journalRest_wlp (n : Nat) (f : Nat → Option UInt8) :
    wlp (journalRest w n) (fun _ d' => d.Becomes d' (fun _ => False) f) Fatal d := by
  refine .read (wlp.forEach (fun m d₁ h₁ => ?_) (.refl d f))
  refine .ite ⟨fun _ => h₁, fun _ => ?_⟩
  refine .seq (destGet_wlp f m) fun c d₂ h₂ => ?_
  refine .bind (request_wlp (fun _ => .modify ?_) fun _ => id)
  refine (h₁.then_nothing h₂.1).then_nothing ⟨⟨rfl, rfl, rfl, rfl, rfl, rfl, id, fun ho => ?_,
    Nat.le_max_left _ _⟩, nofun, fun _ _ _ _ => rfl⟩
  have hle := Nat.le_max_left d₂.dbSize m
  exact { ho with dbSize := ho.dbSize.trans hle, grown := ho.grown.trans hle }

/-! ## What is committed -/

def Dest.committed (d : Dest) (off : Nat) : Option UInt8 :=
  (d.plain (off / d.pageSize + 1)).map fun c => c (off % d.pageSize)

theorem Dest.Written.committed (h : d.Written d') (off : Nat) : d'.committed off = d'.see off := by
  simp [Dest.committed, Dest.see, Dest.content, h.clean]

/-- At the positions in `C`, the header apart, `L` is what is seen. -/
structure Dest.Prepared (d : Dest) (C : Nat → Prop) (L : Nat → UInt8) : Prop where
  le : ∀ off, C off → off / d.pageSize + 1 ≤ d.dbSize
  see : ¬ d.Failed → ∀ off, C off → off % d.pageSize < d.pageSize - d.codecReserve →
    ¬ Header off → d.see off = some (L off)

section Prepared

variable {d' : Dest} {C : Nat → Prop} {L : Nat → UInt8}

theorem Dest.Prepared.mono (h : d.Prepared C L) (hd : d.Changes d' Header) : d'.Prepared C L := by
  have hps := hd.frame.pageSize
  have hres := hd.frame.codecReserve
  constructor
  · rw [hps]
    exact fun off hC => (h.le off hC).trans hd.frame.dbSize
  · rw [hps, hres]
    intro hfail off hC hlt hnot
    rw [hd.outside hfail off ⟨h.le off hC, hlt⟩ hnot]
    exact h.see (fun hf => hfail (hd.frame.failed hf)) off hC hlt hnot

theorem Dest.Page1.header (h : d.Page1 d' c) (hv : ValidPageSize d.pageSize)
    (hc : ∀ j, ¬ Header j → c j = d.page1 j) : d.Changes d' Header :=
  h.changes Header (fun j _ hj => hc j hj) fun j hj => by
    have := hj.lt
    have := hv.ge
    omega

theorem Dest.Prepared.commitPhaseOne (h : d.Prepared C L) (ho : d.Held)
    (hpend : ∀ off, C off → off / d.pageSize + 1 ≠ pendingBytePage d.pageSize)
    (hmagic : ¬ d.Failed → ∀ codec ∈ d.codec, codec.pageSz = d.pageSize → ∀ j < fileHeaderSz,
      d.page1 j = magic j) :
    wlp (commitPhaseOne w) (fun _ d' => ∃ d₁ : Dest, d₁.Written d' ∧ d.Frame d₁ ∧
      d₁.dbSize = d.dbSize ∧ d₁.fileSize = d.fileSize ∧ d₁.dbFileSize = d.dbFileSize ∧
      ∀ off, C off → off % d.pageSize < d.pageSize - d.codecReserve → ¬ Header off →
        d'.see off = some (L off)) Fatal d := by
  refine .post (commitPhaseOne_wlp ho hmagic) fun _ d' hd => ?_
  obtain ⟨d₁, hpage, hwritten⟩ := hd
  have hps := hpage.frame.pageSize
  have hres := hpage.frame.codecReserve
  have hprep := h.mono (hpage.header ho.valid fun j hj => changeCounter_of_not_header w _ hj)
  refine ⟨d₁, hwritten, hpage.frame, hpage.dbSize, hpage.fileSize, hpage.dbFileSize,
    fun off hC hlt hnot => ?_⟩
  have hlt' : off % d₁.pageSize < d₁.pageSize - d₁.codecReserve := by rwa [hps, hres]
  rw [hwritten.see off ⟨hprep.le off hC, hlt'⟩ (hps ▸ hpend off hC)]
  exact hprep.see hwritten.ok off hC hlt' hnot

end Prepared

theorem Dest.committed_of_none (hcodec : d.codec = none) (hd : 0 < d.pageSize) (off : Nat) :
    d.committed off = some (d.byte off) := by
  have hmod := Nat.mod_lt off hd
  have hoff : off / d.pageSize * d.pageSize + off % d.pageSize = off :=
    Nat.div_add_mod' off d.pageSize
  simp only [committed, plain, hcodec, Option.map_some, raw, byte,
    Nat.add_sub_cancel, hoff, hmod, true_and]

theorem Dest.committed_fileSize (d : Dest) (h : (off / d.pageSize + 1) * d.pageSize ≤ d.fileSize)
    (h' : (off / d.pageSize + 1) * d.pageSize ≤ size) :
    ({ d with fileSize := size } : Dest).committed off = d.committed off := by
  have hraw : ({ d with fileSize := size } : Dest).raw (off / d.pageSize + 1) =
      d.raw (off / d.pageSize + 1) := by
    funext j
    simp only [raw, Nat.add_sub_cancel]
    by_cases hj : j < d.pageSize
    · rw [Nat.add_mul, Nat.one_mul] at h h'
      rw [if_pos ⟨hj, by omega⟩, if_pos ⟨hj, by omega⟩]
    · rw [if_neg fun hh => hj hh.1, if_neg fun hh => hj hh.1]
  simp only [committed, plain, hraw]

end SqlCipher.Backup
