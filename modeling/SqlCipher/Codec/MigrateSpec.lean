import Mathlib.Data.List.TakeWhile
import SqlCipher.Codec.Migrate

/-!
# What a migration leaves behind

Wherever the process stops, the file under the main name is the old database or the migrated one
with the same content, and the connection reads nothing else. `migrate_safe` says exactly when. A
migration that fails before the files are closed is safe. One that gets there goes on to use the
main file and the first codec context whether or not they are still there. It also takes over the
key and the tables that the attached database has (`not_migrate_safe`).
-/

namespace SqlCipher.Migrate

open Proc State

variable {ρ : Type} {w : Step → Answer} {img : Image ρ} {s s₀ : State ρ}

/-! ## Reading the main database -/

/-- The file opens with the password of `img`, under the same settings or the current ones, and has
its content. -/
def File.Keeps (img : Image ρ) : File ρ → Prop
  | .keyed m => (m.compat = img.compat ∨ m.compat = 4) ∧ m.kdf = m.compat ∧ m.pass = img.pass ∧
    m.content = img.content
  | _ => False

def State.Kept (img : Image ρ) (s : State ρ) : Prop := ∀ d ∈ s.history, d.main.Keeps img

structure State.Safe (img : Image ρ) (s : State ρ) : Prop where
  kept : s.Kept img
  main : s.disk.main.Keeps img
  fd : s.fd = true
  cache : ∀ content ∈ s.cache, content = img.content

structure State.Open (img : Image ρ) (s : State ρ) : Prop extends Safe img s where
  codec : ∃ c m, s.codec = some c ∧ s.disk.main = .keyed m ∧ c.error = .ok ∧ c.opens m = true

theorem wp_request : wpOr N (request w step : M ρ Unit) Q E s ↔
      ((w step).rc = .ok → Q () s) ∧ ((w step).rc ≠ .ok → E (w step).rc s) := wp_ite

theorem request_bind (h : (w step).rc = .ok → wp (f ()) Q E s)
    (hE : (w step).rc ≠ .ok → E (w step).rc s) : wp (request w step >>= f) Q E s :=
  .bind (wp_request.mpr ⟨h, hE⟩)

theorem wp_setDisk : wp (setDisk f : M ρ Unit) Q E s ↔
    Q () { s with disk := f s.disk, history := s.history ++ [f s.disk] } := Iff.rfl

theorem State.Kept.push {f : Disk ρ → Disk ρ} (h : s.Kept img) (hf : (f s.disk).main.Keeps img) :
    ({ s with disk := f s.disk, history := s.history ++ [f s.disk] } : State ρ).Kept img := by
  intro d hd
  rcases List.mem_append.mp hd with hd | hd
  · exact h d hd
  · rw [List.mem_singleton.mp hd]
    exact hf

/-- A state that differs in the cache and the use of the codec's key only. -/
structure State.Same (s s' : State ρ) : Prop where
  frame : s' = { s with cache := s'.cache, codec := s'.codec }
  codec : ∀ c ∈ s'.codec, ∃ c₀ ∈ s.codec, c = c₀ ∨ c = { c₀ with keyUsed := true }

theorem State.Same.refl (s : State ρ) : s.Same s := ⟨rfl, fun c hc => ⟨c, hc, .inl rfl⟩⟩

theorem State.Safe.access (h : s.Safe img) (step : Step) :
    wp (access w step) (fun content s' => content = img.content ∧ s'.Safe img ∧ s.Same s')
      (fun _ s' => s' = s) s := by
  refine .read (.ite ⟨fun hfd => by simp [h.fd] at hfd, fun _ => ?_⟩)
  cases hcache : s.cache with
  | some content => exact .pure ⟨h.cache content hcache, h, .refl s⟩
  | none =>
    refine request_bind (fun _ => ?_) fun _ => rfl
    have hkeeps := h.main
    cases hmain : s.disk.main with
    | absent => simp [hmain, File.Keeps] at hkeeps
    | empty => simp [hmain, File.Keeps] at hkeeps
    | keyed m =>
      rw [hmain] at hkeeps
      cases hcodec : s.codec with
      | none => exact rfl
      | some c =>
        refine .ite ⟨fun _ => rfl, fun _ => .ite ⟨fun _ => ?_, fun _ => rfl⟩⟩
        refine .write (.pure ⟨hkeeps.2.2.2, { h with
          cache := fun _ hc => Option.some.inj hc ▸ hkeeps.2.2.2 }, rfl, ?_⟩)
        rintro c' ⟨⟩
        exact ⟨c, hcodec, .inr rfl⟩

/-- Reading from an open connection fails if the environment says so, and only then. -/
theorem State.Open.access (h : s.Open img) (step : Step) :
    wp (access w step) (fun content s' => content = img.content ∧ s'.Open img ∧ s.Same s')
      (fun _ s' => (w step).rc ≠ .ok ∧ s' = s) s := by
  obtain ⟨c, m, hcodec, hmain, herr, hopens⟩ := h.codec
  have hm : m.content = img.content := by
    have hkeeps := h.main
    rw [hmain] at hkeeps
    exact hkeeps.2.2.2
  refine .read (.ite ⟨fun hfd => by simp [h.fd] at hfd, fun _ => ?_⟩)
  cases hcache : s.cache with
  | some content => exact .pure ⟨h.cache content hcache, h, .refl s⟩
  | none =>
    refine request_bind (fun _ => ?_) fun hne => ⟨hne, rfl⟩
    rw [hcodec, hmain]
    refine .ite ⟨fun hno => absurd herr hno, fun _ => .ite ⟨fun _ => ?_, fun hno =>
      absurd hopens hno⟩⟩
    refine .write (.pure ⟨hm, ⟨{ h.toSafe with
      cache := fun _ hc => Option.some.inj hc ▸ hm }, ⟨_, m, rfl, hmain, herr, hopens⟩⟩, rfl, ?_⟩)
    rintro c' ⟨⟩
    exact ⟨c, hcodec, .inr rfl⟩

/-- The main database in another journal mode. -/
abbrev State.withMode (s : State ρ) (mode : JournalMode) : State ρ :=
  { s with
    disk := { s.disk with main := s.disk.main.setJournalMode mode }
    history := s.history ++ [{ s.disk with main := s.disk.main.setJournalMode mode }] }

theorem State.Safe.withMode (h : s.Safe img) (mode : JournalMode) : (s.withMode mode).Safe img := by
  have hmain : (s.disk.main.setJournalMode mode).Keeps img := by
    have hkeeps := h.main
    cases hfile : s.disk.main <;> rw [hfile] at hkeeps <;> exact hkeeps
  exact { h with
    kept := h.kept.push (f := fun d => { d with main := d.main.setJournalMode mode }) hmain
    main := hmain }

theorem State.Open.withMode (h : s.Open img) (mode : JournalMode) : (s.withMode mode).Open img := by
  obtain ⟨c, m, hcodec, hmain, herr, hopens⟩ := h.codec
  refine ⟨h.toSafe.withMode mode, c, { m with journalMode := mode }, hcodec, ?_, herr, hopens⟩
  simp [hmain, File.setJournalMode]

/-- Setting the journal mode keeps what reading the database and writing the mode keep. -/
theorem setJournalMode_wp {I : State ρ → Prop} {E : ResultCode → State ρ → Prop}
    (haccess : wp (access w step) (fun _ => I) E s)
    (hmode : ∀ s mode, I s → I (s.withMode mode))
    (hE : ∀ s, (w step).rc ≠ .ok → I s → E (w step).rc s) (mode : JournalMode) :
    wp (setJournalMode w step mode) (fun _ s' => (w step).rc = .ok ∧ I s') E s := by
  refine .seq haccess fun _ s' hs => .bind (.when ⟨fun _ => wp_setDisk.mpr ?_, fun _ => ?_⟩)
  · exact wp_request.mpr ⟨fun hok => ⟨hok, hmode s' mode hs⟩,
      fun hne => hE _ hne (hmode s' mode hs)⟩
  · exact wp_request.mpr ⟨fun hok => ⟨hok, hs⟩, fun hne => hE _ hne hs⟩

/-! ## Finding out the format -/

/-- The old database, before the first codec context is freed. -/
structure State.Intact (img : Image ρ) (s : State ρ) : Prop extends Safe img s where
  ctx : s.ctxFreed = false

/-- The codec has no error. -/
def State.Clean (s : State ρ) : Prop := ∀ c ∈ s.codec, c.error = .ok

/-- The connection as long as the main file is the old one, and what is known of the attached
database. The call began in `s₀`. -/
structure State.Old (img : Image ρ) (s s₀ : State ρ) (P : Option Codec → File ρ → Prop) : Prop
    extends Intact img s where
  old : ∃ mode, s.disk.main = .keyed { img with journalMode := mode }
  sharing : s.sharing = s₀.sharing
  storePass : s.storePass = s₀.storePass
  codec : ∃ c, s.codec = some c ∧ c.key = .password img.pass
  clean : s.sharing ≠ .all → s.Clean
  target : P s.attached s.disk.migrated

variable {P R : Option Codec → File ρ → Prop}

theorem State.Old.kdf (h : s.Old img s₀ P) : img.kdf = img.compat := by
  obtain ⟨mode, hmain⟩ := h.old
  have hkeeps := h.main
  rw [hmain] at hkeeps
  exact hkeeps.2.1

theorem State.Old.setCodec (h : s.Old img s₀ P) (hkey : c.key = .password img.pass)
    (herr : s.sharing ≠ .all → c.error = .ok) :
    ({ s with codec := some c } : State ρ).Old img s₀ P :=
  { h with codec := ⟨c, rfl, hkey⟩, clean := fun hne _ hc => Option.some.inj hc ▸ herr hne }

/-- A check finds the right settings with a clean codec. If all caches are shared, it leaves the
codec clean only if it does not get to the file. -/
theorem State.Old.checkConnection (h : s.Old img s₀ P) (compat : Nat) :
    wp (checkConnection w img.pass compat)
      (fun found s' => (compat = img.compat ∧ found.1 = img.content.userVersion) ∧
        (w (.checkConnection compat)).rc = .ok ∧ s.Clean ∧ s'.Clean ∧ s'.Old img s₀ P)
      (fun _ s' => s'.Old img s₀ P ∧
        (compat = img.compat → (w (.checkConnection compat)).rc = .ok → ¬ s.Clean) ∧
        (s'.Clean ↔ s.Clean ∧ (s₀.sharing = .all → (w (.checkConnection compat)).rc ≠ .ok))) s := by
  obtain ⟨mode, hmain⟩ := h.old
  obtain ⟨c, hcodec, hkey⟩ := h.codec
  have hkdf := h.kdf
  have hopens (c : Codec) (hkey : c.key = .password img.pass) :
      c.opens { img with journalMode := mode } = true ↔ c.compat = img.compat := by
    simp [Codec.opens, hkey, hkdf]
  rw [← h.sharing]
  by_cases hall : s.sharing = .all
  · have hold := h.setCodec (c := { c with compat := compat }) hkey fun hne => absurd hall hne
    have hclean : s.Clean ↔ c.error = .ok := by simp [Clean, hcodec]
    refine .write (request_bind (fun hok => .read ?_) fun hne => ?_) <;>
      simp only [hall, hcodec, if_true, Option.map_some] at hold ⊢
    · rw [hmain]
      refine .ite ⟨fun herr => ⟨hold, ?_, ?_⟩, fun herr => .ite ⟨fun heq => ?_, fun hne => ?_⟩⟩
      · exact fun _ _ => mt hclean.mp herr
      · simp [Clean, hcodec, hok, herr]
      · exact .pure ⟨⟨(hopens { c with compat := compat } hkey).mp heq, rfl⟩, hok,
          hclean.mpr (not_not.mp herr),
          by simpa [Clean] using herr, hold⟩
      · refine .bind (.when ⟨fun _ => .modify ⟨?_, ?_, ?_⟩, fun hno => absurd hall hno⟩)
        · exact { hold with codec := ⟨_, rfl, hkey⟩, clean := fun hne => absurd rfl hne }
        · exact fun heq => absurd ((hopens { c with compat := compat } hkey).mpr heq) hne
        · simp [Clean, hok]
    · exact ⟨hold, fun _ hok => absurd hok hne, by simp [Clean, hcodec, hne]⟩
  · have hclean := h.clean hall
    refine .write (request_bind (fun hok => .read ?_) fun hne => ?_) <;> simp only [hall, if_false]
    · rw [hmain]
      refine .ite ⟨fun herr => absurd rfl herr, fun _ => .ite ⟨fun heq => ?_, fun hne => ?_⟩⟩
      · exact .pure ⟨⟨(hopens _ rfl).mp heq, rfl⟩, hok, hclean, hclean, h⟩
      · refine .bind (.when ⟨fun hyes => absurd hyes hall, fun _ => ⟨h, fun heq => ?_, ?_⟩⟩)
        · exact absurd ((hopens _ rfl).mpr heq) hne
        · simp
    · exact ⟨h, fun _ hok => absurd hok hne, by simp⟩

variable (w) in
/-- The loop over the earlier versions finds `compat`. If all caches are shared, the checks before
do not get to the file. -/
def Finds (b : Sharing) (compat : Nat) : List Nat → Prop
  | [] => False
  | c :: rest => (w (.formatCompat c)).rc = .ok ∧ (c = compat ∧ (w (.checkConnection c)).rc = .ok ∨
    (b = .all → (w (.checkConnection c)).rc ≠ .ok) ∧ Finds b compat rest)

theorem State.Old.findCompat (h : s.Old img s₀ P) (rc : ResultCode) (versions : List Nat) :
    wp (findCompat w img.pass rc versions)
      (fun found s' => (found.1 = img.compat ∧ found.2.1 = img.content.userVersion) ∧
        (s.Clean ∧ Finds w s₀.sharing img.compat versions) ∧ s'.Clean ∧ s'.Old img s₀ P)
      (fun _ s' => s'.Old img s₀ P ∧ ¬ (s.Clean ∧ Finds w s₀.sharing img.compat versions)) s := by
  induction versions generalizing s rc with
  | nil => exact ⟨h, fun hno => hno.2⟩
  | cons compat rest ih =>
    refine .ite ⟨fun hne => ⟨h, fun hyes => hne hyes.2.1⟩, fun hok => .bind (.attempt ?_)⟩
    have hok := not_not.mp hok
    refine .mono (h.checkConnection compat) (fun found s' hs => ?_) fun e s' hs => ?_
    · obtain ⟨hfound, hrc, hclean, hs⟩ := hs
      exact ⟨hfound, ⟨hclean, hok, .inl ⟨hfound.1, hrc⟩⟩, hs⟩
    · obtain ⟨hold, hright, hiff⟩ := hs
      refine .mono (ih hold e) (fun found t ht => ?_) fun _ t ht => ⟨ht.1, ?_⟩
      · obtain ⟨hfound, ⟨hclean, hfinds⟩, ht⟩ := ht
        exact ⟨hfound, ⟨(hiff.mp hclean).1, hok, .inr ⟨(hiff.mp hclean).2, hfinds⟩⟩, ht⟩
      · rintro ⟨hclean, -, ⟨heq, hrc⟩ | ⟨hrc, hfinds⟩⟩
        · exact hright heq hrc hclean
        · exact ht.2 ⟨hiff.mpr ⟨hclean, hrc⟩, hfinds⟩

/-! ## Up to the key of the new database -/

/-- The connection with the old settings. -/
structure State.At (img : Image ρ) (s s₀ : State ρ) (P : Option Codec → File ρ → Prop) : Prop
    extends Old img s s₀ P where
  compat : ∀ c ∈ s.codec, c.compat = img.compat ∧ c.error = .ok

theorem State.At.open (h : s.At img s₀ P) : s.Open img := by
  obtain ⟨mode, hmain⟩ := h.old
  obtain ⟨c, hcodec, hkey⟩ := h.codec
  obtain ⟨hcompat, herr⟩ := h.compat c hcodec
  exact ⟨h.toSafe, c, _, hcodec, hmain, herr, by simp [Codec.opens, hkey, hcompat, h.kdf]⟩

theorem State.At.of_same (h : s.At img s₀ P) (hopen : s'.Open img) (hs : s.Same s') :
    s'.At img s₀ P := by
  obtain ⟨hframe, hcodecs⟩ := hs
  have hdisk : s'.disk = s.disk := by rw [hframe]
  have hcodec : ∀ c ∈ s'.codec, c.key = .password img.pass ∧ c.compat = img.compat ∧
      c.error = .ok := by
    intro c hc
    obtain ⟨c₀, hc₀, hsame⟩ := hcodecs c hc
    obtain ⟨c₁, hc₁, hkey⟩ := h.codec
    cases hc₁.symm.trans hc₀
    have hold := h.compat _ hc₀
    rcases hsame with rfl | rfl <;> exact ⟨hkey, hold⟩
  obtain ⟨c, m, hc, -⟩ := hopen.codec
  exact ⟨⟨⟨hopen.toSafe, (congrArg State.ctxFreed hframe).trans h.ctx⟩, hdisk ▸ h.old,
    (congrArg State.sharing hframe).trans h.sharing,
    (congrArg State.storePass hframe).trans h.storePass, ⟨c, hc, (hcodec c hc).1⟩,
    fun _ c hc => (hcodec c hc).2.2, (congrArg State.attached hframe).symm ▸ hdisk ▸ h.target⟩,
    fun c hc => (hcodec c hc).2⟩

abbrev State.withMigrated (s : State ρ) (f : File ρ) : State ρ :=
  { s with
    disk := { s.disk with migrated := f }
    history := s.history ++ [{ s.disk with migrated := f }] }

theorem State.Safe.withMigrated (h : s.Safe img) (f : File ρ) : (s.withMigrated f).Safe img :=
  { h with kept := h.kept.push (f := fun d => { d with migrated := f }) h.main }

theorem State.At.withMigrated (h : s.At img s₀ P) (hf : R a f) :
    ({ s.withMigrated f with attached := a } : State ρ).At img s₀ R :=
  { h with
    kept := (h.toSafe.withMigrated f).kept
    clean := h.clean
    target := hf
    compat := h.compat }

theorem State.Old.setCompat (h : s.Old img s₀ P) (hclean : s.Clean) :
    wp (setCompat w img.compat) (fun _ s' => (w .setCompat).rc = .ok ∧ s'.At img s₀ P)
      (fun _ s' => s'.Intact img ∧ (w .setCompat).rc ≠ .ok) s := by
  obtain ⟨c, hcodec, hkey⟩ := h.codec
  refine request_bind (fun hok => .modify ⟨hok, ?_⟩) fun hne => ⟨h.toIntact, hne⟩
  rw [hcodec, Option.map_some]
  refine ⟨h.setCodec hkey fun _ => hclean c hcodec, ?_⟩
  rintro c' ⟨⟩
  exact ⟨rfl, hclean c hcodec⟩

theorem State.At.setJournalMode (h : s.At img s₀ P) (step : Step) (mode : JournalMode) :
    wp (setJournalMode w step mode) (fun _ s' => (w step).rc = .ok ∧ s'.At img s₀ P)
      (fun _ s' => s'.Intact img ∧ (w step).rc ≠ .ok) s := by
  refine setJournalMode_wp ?_ (fun s mode hs => ?_) (fun s hne hs => ⟨hs.toIntact, hne⟩) mode
  · refine .mono (h.open.access step) (fun _ s' hs => h.of_same hs.2.1 hs.2.2) fun _ s' hs => ?_
    exact hs.2 ▸ ⟨h.toIntact, hs.1⟩
  · obtain ⟨old, hmain⟩ := hs.old
    exact { hs with
      toSafe := hs.toSafe.withMode mode
      old := ⟨mode, by simp [hmain, File.setJournalMode]⟩
      clean := hs.clean
      compat := hs.compat }

/-- The attached database has these tables. It is keyed with the password, or if `raw` with the key
of the main database. -/
def Target (img : Image ρ) (raw : Bool) (tables : List (Nat × ρ)) (a : Option Codec) (f : File ρ) :
    Prop :=
  ∃ c, a = some c ∧ (c.compat = 4 ∧ c.key = attachKey img.pass (!raw) img) ∧
    match f with
    | .keyed m => c.opens m = true ∧ m.content.tables = tables
    | _ => tables = []

def File.isKeyed : File ρ → Bool
  | .keyed _ => true
  | _ => false

/-- What an earlier attempt has left behind. -/
def State.leftTables (s : State ρ) : List (Nat × ρ) :=
  match s.disk.migrated with
  | .keyed m => m.content.tables
  | _ => []

/-- The attached database keeps the key that it gets from the main one. -/
def State.rawKey (s : State ρ) : Bool :=
  !s.storePass && (s.disk.migrated.isKeyed || s.sharing.ofAttached)

/-- A file that is left behind opens with the key of the main database. -/
def State.OpensLeft (img : Image ρ) (s : State ρ) : Prop :=
  ∀ m, s.disk.migrated = .keyed m →
    (⟨4, attachKey img.pass s.storePass img, false, .ok⟩ : Codec).opens m = true

theorem State.At.attach (h : s.At img s₀ fun _ f => f = s₀.disk.migrated) :
    wp (attach w img.pass) (fun _ s' => ((w .attach).rc = .ok ∧ s₀.OpensLeft img) ∧
        s'.At img s₀ fun a f => Target img (!s₀.storePass) s₀.leftTables a f ∧
          (∀ c ∈ a, c.keyUsed = f.isKeyed) ∧ f.isKeyed = s₀.disk.migrated.isKeyed)
      (fun _ s' => s'.Intact img ∧ ¬ ((w .attach).rc = .ok ∧ s₀.OpensLeft img)) s := by
  obtain ⟨mode, hmain⟩ := h.old
  have hleft : s.disk.migrated = s₀.disk.migrated := h.target
  refine request_bind (fun hok => .read ?_) fun hne => ⟨h.toIntact, fun hyes => hne hyes.1⟩
  rw [hmain, hleft, h.storePass]
  have hempty (hnot : ∀ m, s₀.disk.migrated ≠ .keyed m) : Target img (!s₀.storePass) s₀.leftTables
      (some ⟨4, attachKey img.pass s₀.storePass img, false, .ok⟩) .empty := by
    refine ⟨_, rfl, ⟨rfl, by rw [Bool.not_not]⟩, ?_⟩
    change s₀.leftTables = []
    unfold leftTables
    split
    · exact absurd ‹_› (hnot _)
    · rfl
  cases hfile : s₀.disk.migrated with
  | keyed m =>
    refine .ite ⟨fun hopens => .modify ⟨⟨hok, ?_⟩, ?_⟩, fun hno => ⟨h.toIntact, fun hyes => ?_⟩⟩
    · rintro m' hm'
      cases hfile.symm.trans hm'
      exact hopens
    · refine { h with clean := h.clean, compat := h.compat, target := ?_ }
      refine ⟨⟨_, rfl, ⟨rfl, by rw [Bool.not_not]; rfl⟩, ?_⟩, ?_, ?_⟩ <;> rw [hleft, hfile]
      · exact ⟨hopens, by rw [leftTables, hfile]⟩
      · rintro c ⟨⟩
        rfl
    · exact hno (hyes.2 m hfile)
  | _ =>
    have hnot : ∀ m, s₀.disk.migrated ≠ .keyed m := by simp [hfile]
    refine .bind (wp_setDisk.mpr (.modify ⟨⟨hok, fun m hm => absurd hm (hnot m)⟩, ?_⟩))
    refine h.withMigrated ⟨hempty hnot, ?_, rfl⟩
    rintro c ⟨⟩
    rfl

theorem State.At.keyMigrated (h : s.At img s₀ fun a f => Target img (!s₀.storePass) tables a f ∧
      (∀ c ∈ a, c.keyUsed = f.isKeyed) ∧ f.isKeyed = s₀.disk.migrated.isKeyed) :
    wp (keyMigrated w img.pass)
      (fun _ s' => (w .key).rc = .ok ∧ s'.At img s₀ (Target img s₀.rawKey tables))
      (fun _ s' => s'.Intact img ∧ (w .key).rc ≠ .ok) s := by
  obtain ⟨⟨c, hc, ⟨hcompat, hkey⟩, hfile⟩, hused, hkeyed⟩ := h.target
  refine request_bind (fun hok => .modify ⟨hok, ?_⟩) fun hne => ⟨h.toIntact, hne⟩
  refine { h with clean := h.clean, compat := h.compat, target := ?_ }
  simp only [hc, Option.map_some]
  have hraw : s₀.rawKey = (!s₀.storePass && (c.keyUsed || s.sharing.ofAttached)) := by
    rw [rawKey, h.sharing, hused c hc, hkeyed]
  split_ifs with hstay
  · have hyes : (c.keyUsed || s.sharing.ofAttached) = true := by simpa using hstay
    rw [hraw, hyes, Bool.and_true]
    exact ⟨c, rfl, ⟨hcompat, hkey⟩, hfile⟩
  · have hno : (c.keyUsed || s.sharing.ofAttached) = false := by simpa using hstay
    rw [hraw, hno, Bool.and_false]
    refine ⟨_, rfl, ⟨rfl, rfl⟩, ?_⟩
    have hnot : s.disk.migrated.isKeyed = false := (hused c hc).symm.trans (by simp_all)
    cases hf : s.disk.migrated <;> rw [hf] at hnot hfile
    · exact hfile
    · exact hfile
    · cases hnot

theorem Target.openMigrated (h : Target img raw tables s.attached s.disk.migrated) :
    wp (openMigrated w) (fun m s' => s' = s ∧ m.content.tables = tables ∧
        (∀ f, Target img raw f.tables s.attached (.keyed { m with content := f })) ∧
        ∀ m', s.disk.migrated = .keyed m' → m = m') (fun _ _ => False) s := by
  obtain ⟨⟨compat, key, used, rc⟩, hc, ⟨rfl, hkey⟩, hfile⟩ := h
  refine .read ?_
  rw [hc]
  cases hf : s.disk.migrated with
  | keyed m =>
    rw [hf] at hfile
    refine .ite ⟨fun _ => .pure ⟨rfl, hfile.2, fun f => ?_, ?_⟩, fun hno => absurd hfile.1 hno⟩
    · exact ⟨_, rfl, ⟨rfl, hkey⟩, hfile.1, rfl⟩
    · rintro m' ⟨⟩
      rfl
  | _ =>
    rw [hf] at hfile
    obtain rfl : tables = [] := hfile
    have hnew (m : Image ρ) (hm : (⟨4, key, used, rc⟩ : Codec).opens m = true) (f : Content ρ) :
        Target img raw f.tables (some ⟨4, key, used, rc⟩) (.keyed { m with content := f }) :=
      ⟨_, rfl, ⟨rfl, hkey⟩, hm, rfl⟩
    cases key <;> exact .pure ⟨rfl, rfl, hnew _ (by simp [Codec.opens]), nofun⟩

theorem State.At.sqlcipherExport (h : s.At img s₀ (Target img raw tables)) :
    wp (sqlcipherExport w) (fun _ s' => ((w .exportTables).rc = .ok ∧
          ∀ t ∈ img.content.tables, t.1 ∉ tables.map Prod.fst) ∧
        s'.At img s₀ (Target img raw (tables ++ img.content.tables)))
      (fun _ s' => s'.Intact img ∧ ¬ ((w .exportTables).rc = .ok ∧
        ∀ t ∈ img.content.tables, t.1 ∉ tables.map Prod.fst)) s := by
  refine .bind (.mono (h.open.access _) (fun content s' hs => ?_) fun _ s' hs => ?_)
  · obtain ⟨rfl, hopen, hsame⟩ := hs
    have hat := h.of_same hopen hsame
    refine .bind (.sure hat.target.openMigrated fun m t ht => ?_)
    obtain ⟨rfl, rfl, hm, -⟩ := ht
    have hfresh : (img.content.tables.takeWhile
      fun t => t.1 ∉ m.content.tables.map Prod.fst).length =
        img.content.tables.length ↔
          ∀ t ∈ img.content.tables, t.1 ∉ m.content.tables.map Prod.fst := by
      have hall := List.takeWhile_eq_self_iff (l := img.content.tables)
        (p := fun t => t.1 ∉ m.content.tables.map Prod.fst)
      simp only [decide_eq_true_eq] at hall
      exact ⟨fun hlen => hall.mp ((List.takeWhile_prefix _).eq_of_length hlen),
        fun h => congrArg List.length (hall.mpr h)⟩
    refine .bind (wp_setDisk.mpr (request_bind (fun hok => ?_) fun hne => ?_))
    · refine .ite ⟨fun hlen => ⟨⟨hok, hfresh.mp hlen⟩, ?_⟩, fun hlen => ?_⟩
      · rw [if_pos hok, (List.takeWhile_prefix _).eq_of_length hlen]
        exact hat.withMigrated (hm _)
      · exact ⟨{ hat with toSafe := hat.toSafe.withMigrated _ },
          fun hyes => hlen (hfresh.mpr hyes.2)⟩
    · exact ⟨{ hat with toSafe := hat.toSafe.withMigrated _ }, fun hyes => hne hyes.1⟩
  · exact hs.2 ▸ ⟨h.toIntact, fun hyes => hs.1 hyes.1⟩

/-- The new database has the tables and the user version, and can be opened with `key`. -/
def Ready (img : Image ρ) (raw : Bool) (tables : List (Nat × ρ)) (m : Image ρ) : Prop :=
  m.compat = 4 ∧ m.kdf = (if raw then img.kdf else 4) ∧ m.pass = img.pass ∧
    m.content = ⟨tables, img.content.userVersion⟩

theorem Target.ready (h : Target img raw tables a (.keyed m))
    (hversion : m.content.userVersion = img.content.userVersion) : Ready img raw tables m := by
  obtain ⟨c, -, ⟨hcompat, hkey⟩, hopens, rfl⟩ := h
  simp only [Codec.opens, hcompat, hkey, attachKey, decide_eq_true_eq] at hopens
  refine ⟨hopens.1.symm, ?_, ?_, by rw [← hversion]⟩ <;> cases raw <;> simp at hopens ⊢ <;> grind

theorem State.At.setUserVersion (h : s.At img s₀ (Target img raw tables)) :
    wp (setUserVersion w img.content.userVersion) (fun _ s' => (w .setUserVersion).rc = .ok ∧
        s'.At img s₀ fun a f => ∃ m, f = .keyed m ∧
          m.content.userVersion = img.content.userVersion ∧ Target img raw tables a f)
      (fun _ s' => s'.Intact img ∧ (w .setUserVersion).rc ≠ .ok) s := by
  refine .bind (.sure h.target.openMigrated fun m s' hs => ?_)
  obtain ⟨rfl, rfl, hm, -⟩ := hs
  have hnew := h.withMigrated (a := s'.attached)
    (f := .keyed { m with content := ⟨m.content.tables, img.content.userVersion⟩ })
    (R := fun a f => ∃ m', f = .keyed m' ∧
      m'.content.userVersion = img.content.userVersion ∧ Target img raw m.content.tables a f)
    ⟨_, rfl, rfl, hm _⟩
  refine .bind (.when ⟨fun _ => wp_setDisk.mpr (wp_request.mpr ⟨fun hok => ⟨hok, hnew⟩,
    fun hne => ⟨hnew.toIntact, hne⟩⟩), fun hno => ?_⟩)
  exact wp_request.mpr ⟨fun hok => absurd (.inl hok) hno, fun hne => ⟨h.toIntact, hne⟩⟩

theorem State.At.getKey (h : s.At img s₀ fun a f => ∃ m, f = .keyed m ∧
      m.content.userVersion = img.content.userVersion ∧ Target img raw tables a f) :
    wp (getKey w) (fun key s' => (w .getKey).rc = .ok ∧ s' = s ∧ ∃ m, s.disk.migrated = .keyed m ∧
        Ready img raw tables m ∧ key = .keyspec m.kdf m.pass m.salt)
      (fun _ s' => s'.Intact img ∧ (w .getKey).rc ≠ .ok) s := by
  obtain ⟨m, hfile, hversion, htarget⟩ := h.target
  refine .bind (.sure htarget.openMigrated fun m' s' hs => ?_)
  obtain ⟨rfl, -, -, heq⟩ := hs
  obtain rfl := heq m hfile
  exact request_bind (fun hok => .pure ⟨hok, rfl, m', hfile, (hfile ▸ htarget).ready hversion, rfl⟩)
    fun hne => ⟨h.toIntact, hne⟩

theorem State.At.setPageSize (h : s.At img s₀ P) :
    wp (setPageSize w) (fun _ s' => (w .setPageSize).rc = .ok ∧ s'.At img s₀ P)
      (fun _ s' => s'.Intact img ∧ (w .setPageSize).rc ≠ .ok) s :=
  request_bind (fun hok =>
    .modify ⟨hok, { h with cache := nofun, clean := h.clean, compat := h.compat }⟩)
    fun hne => ⟨h.toIntact, hne⟩

def Step.preparing : List Step :=
  [.formatTemp, .copyFilename, .formatAttach, .formatUserVersion, .setCompat, .journalDelete,
  .attach,
    .key, .exportTables, .setUserVersion, .inTransaction, .setPageSize, .getKey]

variable (w) in
/-- The new database can be written: no step fails, a file that is left behind opens with the key of
the main database, and has none of its tables. -/
structure Prepares (img : Image ρ) (s : State ρ) : Prop where
  steps : ∀ step ∈ Step.preparing, (w step).rc = .ok
  left : s.OpensLeft img
  fresh : ∀ t ∈ img.content.tables, t.1 ∉ s.leftTables.map Prod.fst

theorem State.Old.prepare (h : s.Old img s₀ fun _ f => f = s₀.disk.migrated) (hclean : s.Clean) :
    wp (prepare w img.pass img.compat img.content.userVersion)
      (fun key t => Prepares w img s₀ ∧ ∃ m, t.disk.migrated = .keyed m ∧
        Ready img s₀.rawKey (s₀.leftTables ++ img.content.tables) m ∧
        key = .keyspec m.kdf m.pass m.salt ∧ t.At img s₀ fun a _ => a.isSome = true)
      (fun _ t => t.Intact img ∧ ¬ Prepares w img s₀) s := by
  have stop {step : Step} (hmem : step ∈ Step.preparing) {t : State ρ}
      (ht : t.Intact img ∧ (w step).rc ≠ .ok) : t.Intact img ∧ ¬ Prepares w img s₀ :=
    ⟨ht.1, fun hp => ht.2 (hp.steps step hmem)⟩
  refine request_bind (fun hr₁ => ?_) fun hne => stop (by decide) ⟨h.toIntact, hne⟩
  refine request_bind (fun hr₂ => .write ?_) fun hne => stop (by decide) ⟨h.toIntact, hne⟩
  have h : ({ s with named := true } : State ρ).Old img s₀ fun _ f => f = s₀.disk.migrated :=
    { h with clean := h.clean }
  refine request_bind (fun hr₃ => ?_) fun hne => stop (by decide) ⟨h.toIntact, hne⟩
  refine request_bind (fun hr₄ => ?_) fun hne => stop (by decide) ⟨h.toIntact, hne⟩
  refine .bind (.mono (h.setCompat hclean) (fun _ s₁ ⟨hr₅, h₁⟩ => ?_) fun _ _ => stop (by decide))
  refine .bind (.mono (h₁.setJournalMode _ _) (fun _ s₂ ⟨hr₆, h₂⟩ => ?_)
    fun _ _ => stop (by decide))
  refine .bind (.mono h₂.attach (fun _ s₃ ⟨⟨hr₇, hleft⟩, h₃⟩ => ?_) fun _ _ ht => ⟨ht.1, fun hp =>
    ht.2 ⟨hp.steps _ (by decide), hp.left⟩⟩)
  refine .bind (.mono h₃.keyMigrated (fun _ s₄ ⟨hr₈, h₄⟩ => ?_) fun _ _ => stop (by decide))
  refine .bind (.mono h₄.sqlcipherExport (fun _ s₅ ⟨⟨hr₉, hfresh⟩, h₅⟩ => ?_) fun _ _ ht =>
    ⟨ht.1, fun hp => ht.2 ⟨hp.steps _ (by decide), hp.fresh⟩⟩)
  refine .bind (.mono h₅.setUserVersion (fun _ s₆ ⟨hr₁₀, h₆⟩ => ?_) fun _ _ => stop (by decide))
  refine request_bind (fun hr₁₁ => ?_) fun hne => stop (by decide) ⟨h₆.toIntact, hne⟩
  refine .bind (.mono h₆.setPageSize (fun _ s₇ ⟨hr₁₂, h₇⟩ => ?_) fun _ _ => stop (by decide))
  refine .mono h₇.getKey (fun key t ht => ?_) fun _ _ => stop (by decide)
  obtain ⟨hr₁₃, rfl, m, hfile, hready, rfl⟩ := ht
  refine ⟨⟨?_, hleft, hfresh⟩, m, hfile, hready, rfl, { h₇ with
    clean := h₇.clean, compat := h₇.compat, target := ?_ }⟩
  · simp only [Step.preparing, List.forall_mem_cons]
    exact ⟨hr₁, hr₂, hr₃, hr₄, hr₅, hr₆, hr₇, hr₈, hr₉, hr₁₀, hr₁₁, hr₁₂, hr₁₃, nofun⟩
  · obtain ⟨-, -, -, c, hc, -⟩ := h₇.target
    rw [hc]
    rfl

/-! ## From the new codec to the end -/

variable (w) in
/-- The files change places. -/
def Moves : Prop := (w .rename).rc = .ok ∧ (w .openSource).rc = .ok ∧ (w .openDest).rc = .ok

variable (w) in
/-- The connection once the files have changed places. With a shared cache it has the old codec. -/
structure State.Moved (img m : Image ρ) (s s₀ : State ρ) : Prop where
  history : ∀ d ∈ s.history, d.main.Keeps img ∨ d.main = .keyed m
  main : s.disk.main = .keyed m
  fd : s.fd = true
  cache : s.cache = none
  ctx : s.ctxFreed = !s₀.sharing.ofMain
  codec : if s₀.sharing.ofMain then ∃ c, s.codec = some c ∧ c.opens m = false
    else s.codec =
      if (w .codecAttach).rc = .ok then some ⟨4, .keyspec m.kdf m.pass m.salt, false, .ok⟩ else none

theorem State.At.replaceMain (h : s.At img s₀ fun a _ => a.isSome = true)
    (hfile : s.disk.migrated = .keyed m) (hm : m.compat = 4) (hold : img.compat ≠ 4) :
    wp (replaceMain w (.keyspec m.kdf m.pass m.salt))
      (fun _ s' => Moves w ∧ s'.Moved w img m s₀ ∧ s'.attached.isSome = true)
      (fun _ s' => s'.fd = false ∧ ¬ Moves w) s := by
  obtain ⟨c, hcodec, hkey⟩ := h.codec
  have hstale : c.compat ≠ m.compat := by rw [hm, (h.compat c hcodec).1]; exact hold
  have hhistory : ∀ d ∈ s.history ++ [⟨.keyed m, .absent⟩] ++ [⟨.keyed m, .empty⟩],
      d.main.Keeps img ∨ d.main = .keyed m := by
    simp only [List.mem_append, List.mem_cons, List.not_mem_nil, or_false]
    rintro d ((hd | rfl) | rfl)
    · exact .inl (h.kept d hd)
    · exact .inr rfl
    · exact .inr rfl
  have hsharing := h.sharing
  -- the attached and the new codec
  refine .bind (.write (.read (.when ⟨fun hprivate => .modify ?_, fun hshared => ?_⟩))) <;>
  · refine .write (.bind
      (request_bind (fun hr₁ => .read ?_) fun hne => ⟨rfl, fun hyes => hne hyes.1⟩))
    rw [hfile]
    refine .bind (request_bind (fun hr₂ => ?_) fun hne => ⟨rfl, fun hyes => hne hyes.2.1⟩)
    refine .bind (request_bind (fun hr₃ => ?_) fun hne => ⟨rfl, fun hyes => hne hyes.2.2⟩)
    refine .modify (.modify ⟨⟨hr₁, hr₂, hr₃⟩, ⟨hhistory, rfl, rfl, rfl, ?_, ?_⟩, h.target⟩)
    · simp_all [h.ctx]
    · simp_all [Codec.opens]

/-! ## The common exit -/

theorem State.Safe.deleteMigrated (h : s.Safe img) :
    wp (deleteMigrated w) (fun _ s' => s'.Safe img ∧ s'.ctxFreed = s.ctxFreed ∧ s'.codec = s.codec ∧
      s'.disk.main = s.disk.main) (fun _ _ => False) s :=
  .read (.when
    ⟨fun _ => wp_setDisk.mpr ⟨h.withMigrated _, rfl, rfl, rfl⟩, fun _ => ⟨h, rfl, rfl, rfl⟩⟩)

/-- The exit with an error, as long as the first codec is there. -/
theorem State.Intact.report_error (h : s.Intact img) (e : ResultCode) :
    wp (report (.error e)) (fun _ _ => False) (fun _ => Safe img) s := by
  refine .read (.ite ⟨fun hfreed => ?_, fun _ => ?_⟩)
  · simp [h.ctx] at hfreed
  · exact .write (.write { h.toSafe with cache := nofun })

theorem State.Intact.detach (h : s.Intact img) :
    wp (detach w : M ρ Unit) (fun _ => Intact img) (fun _ s' => s'.Intact img) s :=
  .read (.ite ⟨fun _ => request_bind (fun _ => .modify { h with }) fun _ => h, fun _ => h⟩)

theorem State.Intact.restoreJournalMode (h : s.Intact img) (mode : JournalMode) :
    wp (restoreJournalMode w mode) (fun _ => Intact img) (fun _ => Intact img) s := by
  refine .when ⟨fun _ => .post (setJournalMode_wp (I := Intact img) ?_ ?_ ?_ mode) ?_, fun _ => h⟩
  · refine .mono (h.access _) (fun _ s' hs => ⟨hs.2.1, ?_⟩) fun _ _ hs => hs ▸ h
    exact (congrArg State.ctxFreed hs.2.2.frame).trans h.ctx
  · exact fun s mode hs => ⟨hs.withMode mode, hs.ctx⟩
  · exact fun s _ hs => hs
  · exact fun _ _ hs => hs.2

theorem State.Intact.handleError (h : s.Intact img) (mode : JournalMode) (e : ResultCode) :
    wp (handleError w mode (.error e)) (fun _ _ => False) (fun _ => Safe img) s := by
  refine .caught (I := fun _ => Intact img) h.detach fun _ s h => ?_
  refine .caught (I := fun _ => Intact img) (h.restoreJournalMode mode) fun _ s h => ?_
  exact .bind (.sure h.deleteMigrated fun _ s' hs => State.Intact.report_error
    ⟨hs.1, hs.2.1.trans h.ctx⟩ e)

variable (w) in
/-- What must not happen to a migration that gets to the new codec. The new database has the
password as its key, and no other tables. The files change places. Without a shared cache the new
codec is attached and the connection restored; with one, the old codec is noticed. -/
structure Smooth (s : State ρ) : Prop where
  key : s.rawKey = false
  tables : s.leftTables = []
  moves : Moves w
  shared : s.sharing.ofMain = true → (w .formatJournalMode).rc = .ok ∨ (w .detach).rc ≠ .ok
  codecAttach : s.sharing.ofMain = false → (w .codecAttach).rc = .ok
  detach : s.sharing.ofMain = false → (w .detach).rc = .ok
  journalRestore : s.sharing.ofMain = false → (w .formatJournalMode).rc = .ok →
    (w .journalRestore).rc = .ok

theorem State.Moved.safe (h : s.Moved w img m s₀) (hm : (File.keyed m).Keeps img) : s.Safe img where
  kept d hd := (h.history d hd).elim id fun heq => heq ▸ hm
  main := h.main ▸ hm
  fd := h.fd
  cache := by simp [h.cache]

/-- The old codec does not open the new file, so that the journal mode cannot be restored. -/
theorem State.Moved.restoreJournalMode (h : s.Moved w img m s₀) (hb : s₀.sharing.ofMain = true)
    (hintact : s.Intact img) (hformat : (w .formatJournalMode).rc = .ok) (mode : JournalMode) :
    wp (restoreJournalMode w mode) (fun _ _ => False) (fun _ => Intact img) s := by
  have hcodec := h.codec
  rw [hb] at hcodec
  obtain ⟨c, hc, hopens⟩ := hcodec
  refine .when ⟨fun _ => .bind (.read (.ite ⟨fun hfd => ?_, fun _ => ?_⟩)), fun hno =>
    absurd hformat hno⟩
  · simp [h.fd] at hfd
  · rw [h.cache]
    refine request_bind (fun _ => ?_) fun _ => hintact
    rw [hc, h.main]
    exact .ite ⟨fun _ => hintact, fun _ => .ite ⟨fun hyes => by simp [hopens] at hyes,
      fun _ => hintact⟩⟩

theorem State.Moved.handleError (h : s.Moved w img m s₀) (hattached : s.attached.isSome = true)
    (hm : (File.keyed m).Keeps img) (hcompat : m.compat = 4) (hsm : Smooth w s₀)
    (mode : JournalMode) :
    wp (handleError w mode (.ok ())) (fun _ => Open img) (fun _ => Safe img) s := by
  have hsafe := h.safe hm
  cases hb : s₀.sharing.ofMain with
  | false =>
    have hopen : s.Open img := by
      have hcodec := h.codec
      rw [hb, hsm.codecAttach hb] at hcodec
      exact ⟨hsafe, _, m, hcodec, h.main, rfl, by simp [Codec.opens, hcompat]⟩
    have hdetach : wp (Migrate.detach w : M ρ Unit) (fun _ => Open img) (fun _ _ => False) s :=
      .read (.ite ⟨fun _ => request_bind (fun _ => .modify { hopen with }) fun hne =>
        hne (hsm.detach hb), fun hno => hno hattached⟩)
    have hrestore (s : State ρ) (h : s.Open img) : wp (Migrate.restoreJournalMode w mode)
        (fun _ => Open img) (fun _ _ => False) s := by
      refine .when ⟨fun hformat => ?_, fun _ => h⟩
      have hok := hsm.journalRestore hb hformat
      refine .post (setJournalMode_wp (I := Open img) ?_ (fun s mode hs => hs.withMode mode)
        (fun _ hne _ => hne hok) mode) fun _ _ hs => hs.2
      exact .mono (h.access _) (fun _ _ hs => hs.2.1) fun _ _ hs => hs.1 hok
    refine .bind (.attempt (.sure hdetach fun _ s₁ h₁ => ?_))
    refine .bind (.attempt (.sure (hrestore s₁ h₁) fun _ s₂ h₂ => ?_))
    refine .bind (.sure h₂.deleteMigrated fun _ s₃ h₃ => .pure ?_)
    exact ⟨h₃.1, h₃.2.2.1 ▸ h₃.2.2.2 ▸ h₂.codec⟩
  | true =>
    have hintact : s.Intact img := ⟨hsafe, by rw [h.ctx, hb]; rfl⟩
    have hdetach : wp (Migrate.detach w : M ρ Unit)
        (fun _ s' => (w .detach).rc = .ok ∧ s' = { s with attached := none })
        (fun _ s' => s' = s) s :=
      .read (.ite ⟨fun _ => request_bind (fun hok => .modify ⟨hok, rfl⟩) fun _ => rfl, fun hno =>
        absurd hattached hno⟩)
    have hreport (s : State ρ) (h : s.Intact img) (e : ResultCode) :
        wp (do
          Migrate.deleteMigrated w
          report (.error e)) (fun _ => Open img) (fun _ => Safe img) s :=
      .bind (.sure h.deleteMigrated fun _ s' hs => .mono
        (State.Intact.report_error ⟨hs.1, hs.2.1.trans h.ctx⟩ e)
          (fun _ _ => False.elim) fun _ _ => id)
    refine .bind (.attempt (.mono hdetach (fun _ s' ⟨hok, hs'⟩ => ?_) fun e s' hs' => ?_))
    · subst hs'
      have hmoved : ({ s with attached := none } : State ρ).Moved w img m s₀ := { h with }
      refine .bind (.attempt (.mono (hmoved.restoreJournalMode hb { hintact with }
        ((hsm.shared hb).resolve_right (not_not.mpr hok)) mode) (fun _ _ => False.elim) ?_))
      exact fun e t ht => hreport t ht e
    · subst hs'
      refine .caught (I := fun _ => Intact img) (hintact.restoreJournalMode mode) fun r t ht => ?_
      cases r <;> exact hreport t ht e

/-! ## What is necessary -/

/-- The exit once the main file is closed has no defined effect, or leaves it closed. -/
theorem handleError_closed (hfd : s.fd = false) (mode : JournalMode) (e : ResultCode) :
    wlp (handleError w mode (.error e)) (fun _ _ => False) (fun _ s' => s'.fd = false) s := by
  simp [handleError, detach, restoreJournalMode, setJournalMode, access, deleteMigrated, report,
    request, setDisk, pagerReset, firstError, hfd]

/-- The main file is `m` in some journal mode. -/
def State.Shows (m : Image ρ) (s : State ρ) : Prop :=
  ∃ mode, s.disk.main = .keyed { m with journalMode := mode }

/-- The journal mode can be restored only if the codec opens the file. -/
theorem restoreJournalMode_wlp (hmain : s.disk.main = .keyed m) (hcache : s.cache = none)
    (mode : JournalMode) :
    wlp (restoreJournalMode w mode)
      (fun _ s' => s'.Shows m ∧ s'.ctxFreed = s.ctxFreed ∧ ((w .formatJournalMode).rc = .ok →
        (w .journalRestore).rc = .ok ∧ ∃ c, s.codec = some c ∧ c.opens m = true) ∧
        ((w .formatJournalMode).rc ≠ .ok → s' = s))
      (fun _ s' => s'.Shows m ∧ s'.ctxFreed = s.ctxFreed ∧ (w .formatJournalMode).rc = .ok) s := by
  refine .when ⟨fun hformat => ?_,
    fun hno => ⟨⟨_, hmain⟩, rfl, fun hyes => absurd hyes hno, fun _ => rfl⟩⟩
  have hfail : s.Shows m ∧ s.ctxFreed = s.ctxFreed ∧ (w .formatJournalMode).rc = .ok :=
    ⟨⟨_, hmain⟩, rfl, hformat⟩
  refine .bind (.read (.ite ⟨fun _ => trivial, fun _ => ?_⟩))
  rw [hcache]
  refine .bind (wp_request.mpr ⟨fun hok => ?_, fun _ => hfail⟩)
  rw [hmain]
  cases hcodec : s.codec with
  | none => exact hfail
  | some c =>
    refine .ite ⟨fun _ => hfail, fun _ => .ite ⟨fun hopens => ?_, fun _ => hfail⟩⟩
    refine .write (.pure (.bind (.when ⟨fun _ => ?_, fun hno => absurd (.inl hok) hno⟩)))
    refine wp_request.mpr ⟨fun _ => ⟨⟨mode, ?_⟩, rfl, fun _ => ⟨hok, c, rfl, hopens⟩, fun hno =>
      absurd hformat hno⟩, fun hno => absurd hok hno⟩
    simp [hmain, File.setJournalMode]

/-- The rest of the exit. With an error it has a defined effect only if the first codec is there. -/
theorem exit_wlp (hmain : s.disk.main = .keyed m) (hcache : s.cache = none)
    (r : Except ResultCode Unit) (mode : JournalMode) :
    wlp (do
        let rcJournal ← attempt (restoreJournalMode w mode)
        deleteMigrated w
        report (firstError r rcJournal))
      (fun _ s' => s'.Shows m ∧ r = .ok () ∧ ((w .formatJournalMode).rc = .ok →
        (w .journalRestore).rc = .ok ∧ ∃ c, s.codec = some c ∧ c.opens m = true) ∧
        ((w .formatJournalMode).rc ≠ .ok → s'.cache = none ∧ s'.codec = s.codec))
      (fun _ s' => s'.Shows m ∧ s.ctxFreed = false ∧
        ((w .formatJournalMode).rc = .ok ∨ r ≠ .ok ())) s := by
  have hreport (t : State ρ) (e : ResultCode) (hshows : t.Shows m) : wlp (do
      deleteMigrated w
      report (.error e)) (fun _ _ => False) (fun _ t' => t'.Shows m ∧ t.ctxFreed = false) t := by
    simp only [Shows] at hshows ⊢
    simp [deleteMigrated, setDisk, report, pagerReset, hshows]
  refine .bind (.attempt (.mono (restoreJournalMode_wlp hmain hcache mode) ?_ ?_))
  · rintro _ t ⟨hshows, hctx, hyes, hno⟩
    cases r with
    | ok =>
      refine .bind (.read (.when ⟨fun _ => ?_, fun _ => ?_⟩)) <;>
        exact ⟨hshows, rfl, hyes, fun hf => by rw [hno hf]; exact ⟨hcache, rfl⟩⟩
    | error e =>
      exact .mono (hreport t e hshows) (fun _ _ => False.elim) fun _ _ ht =>
        ⟨ht.1, hctx.symm.trans ht.2, .inr nofun⟩
  · rintro e t ⟨hshows, hctx, hf⟩
    cases r <;> exact .mono (hreport t _ hshows) (fun _ _ => False.elim) fun _ _ ht =>
      ⟨ht.1, hctx.symm.trans ht.2, .inl hf⟩

/-! ## The whole function -/

/-- What the owner can rely on after `r`: all that has been on disk under the main name opens with
the password and has the content; the connection finds it or an error, after success only one of the
environment. -/
structure Preserved (img : Image ρ) (r : Except ResultCode Unit) (s : State ρ) : Prop where
  history : s.Kept img
  disk : s.disk.main.Keeps img
  later : ∀ ws, ∃ rs s', reads ws s = some (.ok rs, s') ∧
    ∀ r ∈ rs, r = .ok img.content ∨ ∃ e, r = .error e
  success : r = .ok () → ∀ ws, (∀ w ∈ ws, (w .read).rc = .ok) → ∃ rs s',
    reads ws s = some (.ok rs, s') ∧ ∀ r ∈ rs, r = .ok img.content

/-- The connection can be read once more, so that the file is open. -/
theorem Preserved.fd (h : Preserved img r s) : s.fd = true := by
  obtain ⟨rs, s', hreads, -⟩ := h.later [fun _ => ⟨.ok, true, 0, 0⟩]
  refine of_wp_ok (N := True) (Q := fun _ _ => s.fd = true) (E := fun _ _ => True) ?_ hreads
  refine .bind (.attempt (.read (.ite ⟨fun _ => trivial, fun hno => ?_⟩)))
  have hfd : s.fd = true := by simpa using hno
  exact .mono wlp_trivial (fun _ _ _ => hfd) fun _ _ _ => hfd

/-- After success the codec opens a file that is not in the cache. -/
theorem Preserved.readable (h : Preserved img (.ok ()) s) (hshows : s.Shows m)
    (hcache : s.cache = none) : ∃ c, s.codec = some c ∧ c.opens m = true := by
  obtain ⟨mode, hmain⟩ := hshows
  obtain ⟨rs, s', hreads, hall⟩ := h.success rfl [fun _ => ⟨.ok, true, 0, 0⟩] (by simp)
  have hno (e : ResultCode) : ¬ ∀ r ∈ [(.error e : Except ResultCode (Content ρ))],
      r = .ok img.content := by simp
  refine of_wp_ok (N := True) (Q := fun rs _ => (∀ r ∈ rs, r = .ok img.content) →
    ∃ c, s.codec = some c ∧ c.opens m = true) (E := fun _ _ => True) ?_ hreads hall
  refine .bind (.attempt (.read (.ite ⟨fun _ => trivial, fun _ => ?_⟩)))
  rw [hcache]
  refine .bind (wp_request.mpr ⟨fun _ => ?_, fun _ => fun h => absurd h (hno _)⟩)
  rw [hmain]
  cases hcodec : s.codec with
  | none => exact fun h => absurd h (hno _)
  | some c =>
    refine .ite ⟨fun _ => fun h => absurd h (hno _), fun _ => .ite ⟨fun hopens => ?_, fun _ =>
      fun h => absurd h (hno _)⟩⟩
    exact fun _ => ⟨c, rfl, hopens⟩

/-- What is read in a run of reads, from what one read finds and keeps. -/
theorem reads_wp {I : State ρ → Prop} {F : Except ResultCode (Content ρ) → Prop}
    (h : ∀ w ∈ ws, ∀ s, I s → wp (access w .read) (fun content s' => F (.ok content) ∧ I s')
      (fun e s' => F (.error e) ∧ I s') s) (hs : I s) :
    wp (reads ws) (fun rs _ => ∀ r ∈ rs, F r) (fun _ _ => False) s := by
  induction ws generalizing s with
  | nil => exact nofun
  | cons w ws ih =>
    refine .caught (I := fun r s => F r ∧ I s) (h w List.mem_cons_self s hs) fun r s hr => ?_
    exact .seq (ih (fun w' hw' => h w' (List.mem_cons_of_mem w hw')) hr.2) fun rs _ hrs =>
      List.forall_mem_cons.mpr ⟨hr.1, hrs⟩

theorem State.Safe.preserved (h : s.Safe img) (e : ResultCode) : Preserved img (.error e) s := by
  refine ⟨h.kept, h.main, fun ws => ?_, nofun⟩
  refine exists_of_sure (reads_wp (I := Safe img) (fun w _ s hs => ?_) h)
  exact .mono (hs.access .read) (fun _ _ hc => ⟨.inl (congrArg _ hc.1), hc.2.1⟩)
    fun e _ he => ⟨.inr ⟨e, rfl⟩, he ▸ hs⟩

theorem State.Open.preserved (h : s.Open img) : Preserved img (.ok ()) s := by
  refine ⟨h.kept, h.main, (h.toSafe.preserved .error).later, fun _ ws hws => ?_⟩
  refine exists_of_sure (reads_wp (I := Open img) (fun w hw s hs => ?_) h)
  exact .mono (hs.access .read) (fun _ _ hc => ⟨congrArg _ hc.1, hc.2.1⟩)
    fun _ _ he => absurd (hws w hw) he.1

/-- A connection to a database in an earlier format, keyed but unused. -/
structure State.Start (img : Image ρ) (s : State ρ) : Prop where
  disk : s.disk.main = .keyed img
  history : s.history = [s.disk]
  kdf : img.kdf = img.compat
  fd : s.fd = true
  ctx : s.ctxFreed = false
  codec : s.codec = some ⟨4, .password img.pass, false, .ok⟩
  cache : s.cache = none

theorem State.Start.old (h : s.Start img) : s.Old img s fun _ f => f = s.disk.migrated := by
  have hkeeps : (File.keyed img).Keeps img := ⟨.inl rfl, h.kdf, rfl, rfl⟩
  refine ⟨⟨⟨?_, h.disk ▸ hkeeps, h.fd, by simp [h.cache]⟩, h.ctx⟩, ⟨img.journalMode, h.disk⟩, rfl,
    rfl,
    ⟨_, h.codec, rfl⟩, fun _ => by simp [Clean, h.codec], rfl⟩
  simp [Kept, h.history, h.disk, hkeeps]

variable (w) in
/-- The migration gets to the new codec: the format is found, and the new database written. -/
structure Reaches (img : Image ρ) (s : State ρ) : Prop extends Prepares w img s where
  copyPass : (w .copyPass).rc = .ok
  current : s.sharing = .all → (w (.checkConnection 4)).rc ≠ .ok
  finds : Finds w s.sharing img.compat [3, 2, 1]

/-- The call fails with the old database in place, or goes on to replace it. -/
theorem codecCtxMigrate_cases (h : s.Start img) (hold : img.compat ≠ 4) :
    (¬ Reaches w img s ∧ ∃ e s', codecCtxMigrate w img.pass s = some (.error e, s') ∧ s'.Safe img) ∨
    Reaches w img s ∧ ∃ mode m t, Ready img s.rawKey (s.leftTables ++ img.content.tables) m ∧
      t.disk.migrated = .keyed m ∧ (t.At img s fun a _ => a.isSome = true) ∧
      codecCtxMigrate w img.pass s = (do
        let rc ← attempt (replaceMain w (.keyspec m.kdf m.pass m.salt))
        handleError w mode rc) t := by
  have hstart := h.old
  have hclean : s.Clean := by simp [Clean, h.codec]
  by_cases hcopy : (w .copyPass).rc = .ok
  swap
  · exact .inl ⟨fun hr => hcopy hr.copyPass, _, s, bind_of_error (congrFun (if_neg hcopy) s),
      hstart.toSafe⟩
  -- no check succeeds with the current settings
  obtain ⟨found, _, -, hs⟩ | ⟨rc, s₁, hrun₁, hold₁, -, hiff⟩ :=
    exists_of_wp (hstart.checkConnection (w := w) 4)
  · exact absurd hs.1.1.symm hold
  have hrun : codecCtxMigrate w img.pass s = (do
      let found ← findCompat w img.pass rc [3, 2, 1]
      let rc ← attempt (migrate w img.pass found.1 found.2.1)
      handleError w found.2.2 rc) s₁ :=
    (bind_of_ok (congrFun (if_pos hcopy) s)).trans (bind_of_ok (attempt_of_eq hrun₁))
  obtain ⟨⟨compat, userVersion, mode⟩, s₂, hrun₂, ⟨rfl, rfl⟩, ⟨hclean₁, hfinds⟩, hclean₂, hold₂⟩ |
    ⟨e, s₂, hrun₂, hold₂, hno⟩ := exists_of_wp (hold₁.findCompat (w := w) rc [3, 2, 1])
  swap
  · refine .inl ⟨fun hr => hno ⟨hiff.mpr ⟨hclean, hr.current⟩, hr.finds⟩, e, s₂, ?_, hold₂.toSafe⟩
    exact hrun.trans (bind_of_error hrun₂)
  have hrun := hrun.trans (bind_of_ok hrun₂)
  obtain ⟨_, t, hrun₃, hprep, m, hfile, hready, rfl, hat⟩ | ⟨e, t, hrun₃, hintact, hno⟩ :=
    exists_of_wp (hold₂.prepare (w := w) hclean₂)
  · refine .inr ⟨⟨hprep, hcopy, (hiff.mp hclean₁).2, hfinds⟩, mode, m, t, hready, hfile, hat, ?_⟩
    exact hrun.trans (attempt_bind_of_ok hrun₃)
  · obtain ⟨_, _, _, hfalse⟩ | ⟨e', t', hrun₄, hsafe⟩ :=
      exists_of_wp (hintact.handleError (w := w) mode e)
    · exact hfalse.elim
    · refine .inl ⟨fun hr => hno hr.toPrepares, e', t', ?_, hsafe⟩
      exact hrun.trans ((bind_of_ok (attempt_of_eq (bind_of_error hrun₃))).trans hrun₄)

/-- What can be relied on after the files have changed places shows that nothing has failed. -/
theorem State.Moved.smooth (h : s.Moved w img m s₀) (hattached : s.attached.isSome = true)
    (hmoves : Moves w) (hready : Ready img s₀.rawKey (s₀.leftTables ++ img.content.tables) m)
    (hkdf : img.kdf ≠ 4) (hrun : Migrate.handleError w mode (.ok ()) s = some (r, s'))
    (hp : Preserved img r s') : Smooth w s₀ := by
  have hnew (hshows : s'.Shows m) : s₀.rawKey = false ∧ s₀.leftTables = [] := by
    obtain ⟨mode, hmain⟩ := hshows
    obtain ⟨-, hkdf', -, hcontent⟩ : (File.keyed { m with journalMode := mode }).Keeps img :=
      hmain ▸ hp.disk
    obtain ⟨hcompat, hkey, -, htables⟩ := hready
    refine ⟨Bool.eq_false_iff.mpr fun hraw => ?_, ?_⟩
    · rw [hraw, if_pos rfl] at hkey
      exact hkdf (hkey.symm.trans (hkdf'.trans hcompat))
    · have hlist := congrArg Content.tables (htables.symm.trans hcontent)
      simpa using hlist
  have hexit : wlp (Migrate.handleError w mode (.ok ()))
      (fun _ s' => s'.Shows m ∧ (w .detach).rc = .ok ∧ ((w .formatJournalMode).rc = .ok →
        (w .journalRestore).rc = .ok ∧ ∃ c, s.codec = some c ∧ c.opens m = true) ∧
        ((w .formatJournalMode).rc ≠ .ok → s'.cache = none ∧ s'.codec = s.codec))
      (fun _ s' => s'.Shows m ∧ s.ctxFreed = false ∧
        ((w .formatJournalMode).rc = .ok ∨ (w .detach).rc ≠ .ok)) s := by
    refine .bind (.attempt (.read (.ite ⟨fun _ => ?_, fun hno => absurd hattached hno⟩)))
    refine .bind (wp_request.mpr ⟨fun hd => .modify ?_, fun hd => ?_⟩)
    · exact .mono (exit_wlp (s := { s with attached := none }) h.main h.cache (.ok ()) mode)
        (fun _ _ ht => ⟨ht.1, hd, ht.2.2⟩) fun _ _ ht => ⟨ht.1, ht.2.1, .inl (ht.2.2.resolve_right
          fun hno => hno rfl)⟩
    · exact .mono (exit_wlp h.main h.cache (.error (w .detach).rc) mode)
        (fun _ _ ht => absurd ht.2.1 nofun) fun _ _ ht => ⟨ht.1, ht.2.1, .inr hd⟩
  have hcodec := h.codec
  unfold wlp wpOr at hexit
  rw [hrun] at hexit
  cases r with
  | error e =>
    obtain ⟨hshows, hctx, hnoticed⟩ := hexit
    have hb : s₀.sharing.ofMain = true := by simpa [h.ctx] using hctx
    obtain ⟨hkey, htables⟩ := hnew hshows
    exact ⟨hkey, htables, hmoves, fun _ => hnoticed, by simp [hb], by simp [hb], by simp [hb]⟩
  | ok =>
    obtain ⟨hshows, hd, hformat, hplain⟩ := hexit
    -- the codec opens the file, whether or not this was needed for the journal mode
    obtain ⟨c, hc, hopens⟩ : ∃ c, s.codec = some c ∧ c.opens m = true := by
      by_cases hf : (w .formatJournalMode).rc = .ok
      · exact (hformat hf).2
      · exact (hplain hf).2 ▸ hp.readable hshows (hplain hf).1
    obtain ⟨hkey, htables⟩ := hnew hshows
    cases hb : s₀.sharing.ofMain with
    | true =>
      rw [hb] at hcodec
      obtain ⟨c', hc', hno⟩ := hcodec
      cases hc.symm.trans hc'
      simp [hopens] at hno
    | false =>
      rw [hb, hc] at hcodec
      refine ⟨hkey, htables, hmoves, by simp [hb], fun _ => ?_, fun _ => hd, fun _ hf =>
        (hformat hf).1⟩
      by_contra hno
      simp [hno] at hcodec

/-- A migration from any earlier format loses and hides nothing if and only if, where it gets to the
new codec, nothing is wrong with the new database and no later step fails. -/
theorem migrate_safe {ρ : Type} (w : Step → Answer) (img : Image ρ) (s : State ρ)
    (hcompat : img.compat ∈ [1, 2, 3]) (hstart : s.Start img) :
    (∃ r s', codecCtxMigrate w img.pass s = some (r, s') ∧ Preserved img r s') ↔
      (Reaches w img s → Smooth w s) := by
  have hold : img.compat ≠ 4 := by
    rintro h
    simp [h] at hcompat
  obtain ⟨hno, e, s', hrun, hsafe⟩ | ⟨hreach, mode, m, t, hready, hfile, hat, hrun⟩ :=
    codecCtxMigrate_cases (w := w) hstart hold
  · exact iff_of_true ⟨_, s', hrun, hsafe.preserved e⟩ fun h => absurd h hno
  rw [hrun]
  obtain ⟨_, t₁, hrep, hmoves, hmoved, hattached⟩ | ⟨e, t₁, hrep, hfd, hno⟩ :=
    exists_of_wp (hat.replaceMain (w := w) hfile hready.1 hold)
  all_goals rw [bind_of_ok (attempt_of_eq hrep)]
  · constructor
    · rintro ⟨r, s', hexit, hp⟩ -
      exact hmoved.smooth hattached hmoves hready (hstart.kdf ▸ hold) hexit hp
    · intro h
      have hsm := h hreach
      have hkeeps : (File.keyed m).Keeps img := by
        obtain ⟨hm, hkdf, hpass, hcontent⟩ := hready
        rw [hsm.key] at hkdf
        exact ⟨.inr hm, hkdf.trans hm.symm, hpass, by rw [hcontent, hsm.tables]; rfl⟩
      obtain ⟨_, s', hexit, hs'⟩ | ⟨e, s', hexit, hs'⟩ :=
        exists_of_wp (hmoved.handleError hattached hkeeps hready.1 hsm mode)
      · exact ⟨_, s', hexit, hs'.preserved⟩
      · exact ⟨_, s', hexit, hs'.preserved e⟩
  · refine iff_of_false ?_ fun h => hno (h hreach).moves
    rintro ⟨r, s', hexit, hp⟩
    have hclosed : s'.fd = false := of_wp (P := fun s => s.fd = false)
      (.mono (handleError_closed hfd mode e) (fun _ _ => False.elim) fun _ _ => id) hexit
    simp [hp.fd] at hclosed

def Image.toy : Image Nat := ⟨3, 3, 7, 5, .wal, ⟨[(1, 10)], 2⟩⟩

def State.toy (sharing : Sharing) : State Nat where
  disk := ⟨.keyed .toy, .absent⟩
  history := [⟨.keyed .toy, .absent⟩]
  sharing := sharing
  storePass := false
  codec := some ⟨4, .password 7, false, .ok⟩
  ctxFreed := false
  fd := true
  cache := none
  attached := none
  named := false

theorem State.toy_start (sharing : Sharing) : (toy sharing).Start .toy :=
  ⟨rfl, rfl, rfl, rfl, rfl, rfl, rfl⟩

def Answer.except (steps : List Step) (step : Step) : Answer :=
  ⟨if step ∈ steps then .ioerr else .ok, false, 0, 9⟩

def outcome (w : Step → Answer) (s : State Nat) : Option (Except ResultCode Unit × File Nat) :=
  (codecCtxMigrate w 7 s).map fun r => (r.1, r.2.disk.main)

/-- A migration that succeeds, one that fails in the export, and one where the cache of the main
database is shared. -/
theorem migrate_safe_toy :
    (∃ r s', codecCtxMigrate (Answer.except []) 7 (.toy .none) = some (r, s') ∧
      Preserved .toy r s') ∧
    (∃ r s', codecCtxMigrate (Answer.except [.exportTables]) 7 (.toy .none) = some (r, s') ∧
      Preserved .toy r s') ∧
    (∃ r s', codecCtxMigrate (Answer.except []) 7 (.toy .main) = some (r, s') ∧
      Preserved .toy r s') ∧
    outcome (.except []) (.toy .none) =
      some (.ok (), .keyed ⟨4, 4, 7, 9, .wal, ⟨[(1, 10)], 2⟩⟩) ∧
    outcome (.except [.exportTables]) (.toy .none) = some (.error .ioerr, .keyed .toy) ∧
    outcome (.except []) (.toy .main) =
      some (.error .notadb, .keyed ⟨4, 4, 7, 9, .delete, ⟨[(1, 10)], 2⟩⟩) := by
  refine ⟨?_, ?_, ?_, by decide +kernel, by decide +kernel, by decide +kernel⟩
  · exact (migrate_safe _ .toy _ (by decide) (toy_start .none)).mpr fun _ =>
      ⟨rfl, rfl, ⟨rfl, rfl, rfl⟩, nofun, fun _ => rfl, fun _ => rfl, fun _ _ => rfl⟩
  · exact (migrate_safe _ .toy _ (by decide) (toy_start .none)).mpr fun h =>
      absurd (h.steps .exportTables (by decide)) (by decide)
  · exact (migrate_safe _ .toy _ (by decide) (toy_start .main)).mpr fun _ =>
      ⟨rfl, rfl, ⟨rfl, rfl, rfl⟩, fun _ => .inl rfl, nofun, nofun, nofun⟩

/-- The connection of `State.toy` with the password stored, and another table in a migrated file
that an earlier attempt has left. -/
def State.toyLeftover : State Nat :=
  { toy .none with
    storePass := true
    disk := ⟨.keyed .toy, .keyed ⟨4, 4, 7, 6, .delete, ⟨[(2, 20)], 0⟩⟩⟩
    history := [⟨.keyed .toy, .keyed ⟨4, 4, 7, 6, .delete, ⟨[(2, 20)], 0⟩⟩⟩] }

/-- A rename or `DETACH` that fails lets the function use the main file or the codec context after
it is gone. A new database in a shared cache stays keyed with the old key, which the password does
not open. With the password stored, a table in a left-over file is taken as migrated. -/
theorem not_migrate_safe :
    outcome (.except [.rename]) (.toy .none) = none ∧
    outcome (.except [.detach]) (.toy .none) = none ∧
    outcome (.except []) (.toy .attached) =
      some (.error .notadb, .keyed ⟨4, 3, 7, 5, .delete, ⟨[(1, 10)], 2⟩⟩) ∧
    outcome (.except []) .toyLeftover =
      some (.ok (), .keyed ⟨4, 4, 7, 6, .wal, ⟨[(2, 20), (1, 10)], 2⟩⟩) ∧
    (¬ ∃ r s', codecCtxMigrate (Answer.except [.rename]) 7 (.toy .none) = some (r, s') ∧
      Preserved .toy r s') ∧
    (¬ ∃ r s', codecCtxMigrate (Answer.except [.detach]) 7 (.toy .none) = some (r, s') ∧
      Preserved .toy r s') ∧
    (¬ ∃ r s', codecCtxMigrate (Answer.except []) 7 (.toy .attached) = some (r, s') ∧
      Preserved .toy r s') ∧
    ¬ ∃ r s', codecCtxMigrate (Answer.except []) 7 .toyLeftover = some (r, s') ∧
      Preserved .toy r s' := by
  have hnone (w : Step → Answer) (s : State Nat) (h : outcome w s = none) :
      ¬ ∃ r s', codecCtxMigrate w 7 s = some (r, s') ∧ Preserved .toy r s' := by
    rintro ⟨r, s', hrun, -⟩
    simp [outcome, hrun] at h
  have hlost (s : State Nat) {r : Except ResultCode Unit} {m : Image Nat}
      (h : outcome (Answer.except []) s = some (r, .keyed m)) (hm : ¬ (File.keyed m).Keeps .toy) :
      ¬ ∃ r s', codecCtxMigrate (Answer.except []) 7 s = some (r, s') ∧ Preserved .toy r s' := by
    rintro ⟨r, s', hrun, hp⟩
    simp only [outcome, hrun, Option.map_some, Option.some.injEq, Prod.mk.injEq] at h
    exact hm (h.2 ▸ hp.disk)
  have hrename : outcome (.except [.rename]) (.toy .none) = none := by decide +kernel
  have hdetach : outcome (.except [.detach]) (.toy .none) = none := by decide +kernel
  have hshared : outcome (.except []) (.toy .attached) =
      some (.error .notadb, .keyed ⟨4, 3, 7, 5, .delete, ⟨[(1, 10)], 2⟩⟩) := by decide +kernel
  have hleft : outcome (.except []) .toyLeftover =
      some (.ok (), .keyed ⟨4, 4, 7, 6, .wal, ⟨[(2, 20), (1, 10)], 2⟩⟩) := by decide +kernel
  refine ⟨hrename, hdetach, hshared, hleft, hnone _ _ hrename, hnone _ _ hdetach,
    hlost _ hshared fun h => absurd h.2.1 (by decide), hlost _ hleft fun h => ?_⟩
  exact absurd h.2.2.2 (by decide)

end SqlCipher.Migrate
