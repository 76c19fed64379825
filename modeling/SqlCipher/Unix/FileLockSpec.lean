import SqlCipher.Unix.FileLock

/-!
# What the lock counters of a process say

`Good` relates the `unixInodeInfo` of a process to the locks that its connections believe they hold
and to those that the process has on the system. The calls of a connection keep it at every point
at which another process can act: one lemma for each way in which the counters change, and one for
each of the functions.
-/

namespace SqlCipher.Unix

open Coroutine Function

variable {m : Nat} {l' eFileLock t : FileLock} {now : Shared × Row} {sharingShm : Bool}

/-! ## The invariant of a process -/

def believers (held : Fin m → FileLock) : Nat := (Finset.univ.filter fun c => .shared ≤ held c).card

/-- The system's locks that a connection relies on, besides the one on the SHARED range. -/
def Backed (row : Row) : FileLock → Prop
  | .none => True
  | .shared => True
  | .reserved => row .reserved = some .write
  | .pending => row .reserved = some .write ∧ row .pending = some .write
  | .exclusive => row .shared = some .write

/-- The beliefs of a process's connections agree with the level `top` and the count `nShared` of its
inode. -/
structure Agreed (top : FileLock) (nShared : Nat) (held : Fin m → FileLock) : Prop where
  counted : believers held ≤ nShared
  below : ∀ c, held c ≤ top
  write : ∀ c, .shared < held c → held c = top
  unique : ∀ c d, .shared < held c → .shared < held d → c = d

/-- The counters of a process agree with its locks. In a `wide` process all connections are
read-write through `unix-excl`, in others none is. -/
structure Counters (wide : Bool) (inode : InodeInfo) (row : Row) : Prop where
  alone : inode.eFileLock = .exclusive → inode.nShared ≤ 1
  locks : inode.nShared ≤ inode.nLock
  outstanding : inode.eFileLock ≠ .none → 0 < inode.nLock
  system : inode.eFileLock ≠ .none → row .shared ≠ none
  process : wide = true → inode.eFileLock ≠ .none → inode.bProcessLock = true
  whole : wide = true → inode.bProcessLock = true →
    row .shared = some .write ∧ inode.nShared < inode.nLock

/-- The inode of a process with the locks `row` whose connections believe they hold `held`. -/
structure Good (wide : Bool) (inode : InodeInfo) (held : Fin m → FileLock) (row : Row) : Prop where
  agreed : Agreed inode.eFileLock inode.nShared held
  counters : Counters wide inode row
  backed : wide = false → ∀ c, Backed row (held c)

theorem FileLock.le_none {l : FileLock} : l ≤ .none ↔ l = .none := by cases l <;> decide

theorem FileLock.none_le {l : FileLock} : .none ≤ l := by cases l <;> decide

theorem FileLock.shared_le {l : FileLock} : .shared ≤ l ↔ l ≠ .none := by cases l <;> decide

theorem FileLock.le_shared {l : FileLock} : l ≤ .shared ↔ l = .none ∨ l = .shared := by
  cases l <;> decide

theorem believers_update (held : Fin m → FileLock) (c : Fin m) (l : FileLock) :
    believers (update held c l) =
      believers (update held c .none) + if .shared ≤ l then 1 else 0 := by
  have hothers : ∀ l, (Finset.univ.filter fun d => .shared ≤ update held c l d).erase c =
      (Finset.univ.filter fun d => .shared ≤ update held c .none d).erase c := by
    intro l
    ext d
    by_cases hd : d = c <;> simp [hd]
  have hnone : c ∉ Finset.univ.filter fun d => .shared ≤ update held c .none d := by
    simp [show ¬ FileLock.shared ≤ .none by decide]
  unfold believers
  by_cases hl : .shared ≤ l
  · have hmem : c ∈ Finset.univ.filter fun d => .shared ≤ update held c l d := by
      simp [hl]
    rw [← Finset.card_erase_add_one hmem, hothers, Finset.erase_eq_of_notMem hnone, if_pos hl]
  · have hnot : c ∉ Finset.univ.filter fun d => .shared ≤ update held c l d := by
      simp [hl]
    rw [← Finset.erase_eq_of_notMem hnot, hothers, Finset.erase_eq_of_notMem hnone, if_neg hl]
    rfl

theorem believers_eq_zero {held : Fin m → FileLock} (h : believers held = 0) (c : Fin m) :
    held c = .none := by
  have hempty := Finset.card_eq_zero.mp h
  have hc : c ∉ Finset.univ.filter fun d => .shared ≤ held d := by simp [hempty]
  simpa [FileLock.shared_le] using hc

/-! ## Beliefs -/

section Beliefs

variable {top : FileLock} {n : Nat} {held : Fin m → FileLock} {c : Fin m} {l : FileLock}

theorem Agreed.of_none (h : ∀ d, held d = .none) : Agreed top n held where
  counted := by simp [believers, h, show ¬ FileLock.shared ≤ .none by decide]
  below d := h d ▸ FileLock.none_le
  write d hd := absurd hd (by rw [h d]; decide)
  unique d _ hd := absurd hd (by rw [h d]; decide)

theorem Agreed.eq_none (h : Agreed top 0 held) (d : Fin m) : held d = .none :=
  believers_eq_zero (Nat.le_zero.mp h.counted) d

/-- What it means to agree, for the connection `c` and for the others. -/
theorem agreed_update : Agreed top n (update held c l) ↔
    believers (update held c .none) + (if .shared ≤ l then 1 else 0) ≤ n ∧
      l ≤ top ∧ (.shared < l → l = top) ∧
      (∀ d ≠ c, held d ≤ top ∧ (.shared < held d → held d = top ∧ l ≤ .shared)) ∧
      ∀ d ≠ c, ∀ e ≠ c, .shared < held d → .shared < held e → d = e := by
  rw [← believers_update]
  constructor
  · rintro ⟨hcounted, hbelow, hwrite, hunique⟩
    simp only [update_apply] at hbelow hwrite hunique
    grind [hbelow c, hwrite c, hunique c]
  · rintro ⟨hcounted, hbelow, hwrite, hothers, hunique⟩
    constructor <;> grind [update_apply]

/-- Nobody else has more than SHARED if a connection has, or if the process has not. -/
theorem Agreed.quiet (h : Agreed top n (update held c l)) (hl : .shared < l ∨ top ≤ .shared)
    (hd : d ≠ c) : held d ≤ .shared := by
  grind [agreed_update.mp h]

theorem Agreed.join (h : Agreed top n (update held c .none)) (htop : .shared ≤ top) :
    Agreed top (n + 1) (update held c .shared) := by
  rw [agreed_update] at h ⊢
  grind

/-- A connection that has the level of the process raises both. -/
theorem Agreed.raise (h : Agreed top n (update held c top)) (htop : .shared ≤ top)
    (hle : top ≤ top') : Agreed top' n (update held c top') := by
  rw [agreed_update] at h ⊢
  grind

theorem Agreed.lower (h : Agreed top n (update held c l)) (hle : l' ≤ l) (hl' : l' ≤ .shared) :
    Agreed top n (update held c l') := by
  rw [agreed_update] at h ⊢
  grind

theorem Agreed.relax (h : Agreed top n (update held c l)) (hl : .shared < l) :
    Agreed .shared n (update held c .shared) := by
  rw [agreed_update] at h ⊢
  grind

theorem Agreed.leave (h : Agreed top n (update held c .shared)) :
    Agreed top (n - 1) (update held c .none) := by
  rw [agreed_update] at h ⊢
  grind [FileLock.shared_le]

theorem Agreed.pos (h : Agreed top n (update held c l)) (hl : .shared ≤ l) : 0 < n := by
  grind [agreed_update.mp h]

end Beliefs

/-! ## How the counters change -/

section Counters

variable {wide : Bool} {inode : InodeInfo} {held : Fin m → FileLock} {c : Fin m} {l : FileLock}
  {row row' : Row}

theorem Backed.of_le_shared (h : l ≤ .shared) : Backed row l := by
  obtain rfl | rfl := FileLock.le_shared.mp h <;> trivial

theorem Backed.update (hquiet : ∀ d, d ≠ c → held d ≤ .shared) (hl : Backed row l) (d : Fin m) :
    Backed row (update held c l d) := by
  grind [update_apply, Backed.of_le_shared]

/-- The locks of a process do not matter while it is at no level. -/
theorem Good.setRow (h : Good wide inode held row) (hnone : inode.eFileLock = .none)
    (hwide : wide = true → inode.bProcessLock = true → row' .shared = some .write) :
    Good wide inode held row' where
  agreed := h.agreed
  counters :=
    { h.counters with
      system := fun hne => absurd hnone hne
      whole := fun hw hp => ⟨hwide hw hp, (h.counters.whole hw hp).2⟩ }
  backed _ d := .of_le_shared ((hnone ▸ h.agreed.below d).trans FileLock.none_le)

/-- Another connection of the process has a lock already. -/
theorem Good.join (h : Good wide inode (update held c .none) row) (hne : inode.eFileLock ≠ .none)
    (hex : inode.eFileLock ≠ .exclusive) :
    Good wide { inode with nShared := inode.nShared + 1, nLock := inode.nLock + 1 }
      (update held c .shared) row := by
  obtain ⟨hagreed, ⟨⟩, hbacked⟩ := h
  refine ⟨hagreed.join (FileLock.shared_le.mpr hne), ?_, fun hw d => ?_⟩
  · constructor <;> grind
  · grind [update_apply, Backed, hbacked hw d]

theorem Good.first (h : Good wide inode (update held c .none) row) (hnone : inode.eFileLock = .none)
    (hrow : row .shared ≠ none) (hwide : wide = true → inode.bProcessLock = true) :
    Good wide { inode with nLock := inode.nLock + 1, nShared := 1, eFileLock := .shared }
      (update held c .shared) row := by
  have hothers (d : Fin m) : update held c .none d = .none :=
    FileLock.le_none.mp (hnone ▸ h.agreed.below d)
  obtain ⟨-, ⟨⟩, -⟩ := h
  refine ⟨(Agreed.of_none hothers : Agreed .shared 0 _).join le_rfl, ?_, fun _ d => ?_⟩
  · constructor <;> grind
  · grind [update_apply, Backed, hothers d]

theorem Good.raise (h : Good wide inode (update held c inode.eFileLock) row)
    (hne : inode.eFileLock ≠ .none) (hle : inode.eFileLock ≤ l)
    (halone : l = .exclusive → inode.nShared ≤ 1) (hrow : row' .shared ≠ none)
    (hwide : wide = true → row' = row) (hbacked : wide = false → Backed row' l) :
    Good wide { inode with eFileLock := l } (update held c l) row' := by
  have hquiet (d : Fin m) (hd : d ≠ c) := h.agreed.quiet (lt_or_ge .shared inode.eFileLock) hd
  obtain ⟨hagreed, ⟨⟩, -⟩ := h
  refine ⟨hagreed.raise (FileLock.shared_le.mpr hne) hle, ?_, fun hw => ?_⟩
  · constructor <;> grind
  · exact Backed.update hquiet (hbacked hw)

/-- A connection no longer relies on more than SHARED, and the process may give it back. -/
theorem Good.lower (h : Good wide inode (update held c l) row) (hle : l' ≤ l) (hl' : l' ≤ .shared) :
    Good wide inode (update held c l') row where
  agreed := h.agreed.lower hle hl'
  counters := h.counters
  backed hw d := by grind [update_apply, Backed.of_le_shared, h.backed hw d]

/-- A connection has more than SHARED: the process may change its locks but for those it relies on.
-/
theorem Good.change (h : Good wide inode (update held c l) row) (hl : .shared < l)
    (hl' : l' = l ∨ l' ≤ .shared) (hrow : row' .shared ≠ none) (hwide : wide = true → row' = row)
    (hbacked : wide = false → Backed row' l') : Good wide inode (update held c l') row' where
  agreed := by
    rcases hl' with rfl | hl'
    · exact h.agreed
    · exact h.agreed.lower (hl'.trans hl.le) hl'
  counters :=
    { h.counters with
      system := fun _ => hrow
      whole := fun hw => hwide hw ▸ h.counters.whole hw }
  backed hw := Backed.update (fun _ hd => h.agreed.quiet (.inl hl) hd) (hbacked hw)

theorem Good.relax (h : Good wide inode (update held c l) row) (hl : .shared < l)
    (hrow : row' .shared ≠ none) (hwide : wide = true → row' = row) :
    Good wide { inode with eFileLock := .shared } (update held c .shared) row' := by
  have hne : inode.eFileLock ≠ .none :=
    FileLock.shared_le.mp (hl.le.trans (by simpa using h.agreed.below c))
  have hquiet (d : Fin m) (hd : d ≠ c) := h.agreed.quiet (.inl hl) hd
  obtain ⟨hagreed, ⟨⟩, -⟩ := h
  refine ⟨hagreed.relax hl, ?_, fun hw => Backed.update hquiet trivial⟩
  constructor <;> grind

theorem Good.leave (h : Good wide inode (update held c .shared) row) :
    Good wide { inode with nShared := inode.nShared - 1 } (update held c .none) row := by
  refine ⟨h.agreed.leave, ?_, (h.lower (by decide) (by decide)).backed⟩
  obtain ⟨-, ⟨⟩, -⟩ := h
  constructor <;> grind

theorem Good.release (h : Good wide inode (update held c .shared) row)
    (hpos : inode.nShared - 1 ≠ 0) :
    Good wide { inode with nShared := inode.nShared - 1, nLock := inode.nLock - 1 }
      (update held c .none) row := by
  refine ⟨h.leave.agreed, ?_, h.leave.backed⟩
  obtain ⟨-, ⟨⟩, -⟩ := h
  constructor <;> grind

theorem Good.releaseLast (h : Good wide inode (update held c .shared) row)
    (hzero : inode.nShared - 1 = 0) (hwide : wide = true → row' = row) :
    Good wide
      { inode with
        nShared := inode.nShared - 1
        nLock := inode.nLock - 1
        eFileLock := .none }
      (update held c .none) row' := by
  have hothers : ∀ d, update held c .none d = .none := Agreed.eq_none (hzero ▸ h.leave.agreed)
  have hpos := h.agreed.pos le_rfl
  refine ⟨.of_none hothers, ?_, fun _ d => by rw [hothers d]; trivial⟩
  obtain ⟨-, ⟨⟩, -⟩ := h
  constructor <;> grind

end Counters

/-! ## What others see of a call -/

/-- A connection newly gets a lock only by asking for SHARED, if its process had a lock or no other
can have had the PENDING byte. -/
def Fair (call : Call) (last now : Shared × Row) : Prop :=
  last.1.file.eFileLock = .none → now.1.file.eFileLock ≠ .none →
    (∃ sharingShm, call = .lock .shared sharingShm) ∧ now.1.inode.eFileLock ≤ .reserved ∧
      (last.1.inode.eFileLock ≠ .none ∨ now.2 .shared = some .write ∨
        last.2 .pending ≠ none ∧ last.2 .shared ≠ none)

/-- What holds when others see a call, or its end. -/
structure Seen (wide : Bool) (held : Fin m → FileLock) (call : Call) (last now : Shared × Row) :
    Prop where
  good : Good wide now.1.inode held now.2
  kind : now.1.file.processLock = wide
  fair : Fair call last now

/-- What holds while a call waits. A connection without a lock waits only if its process has none.
-/
structure Waits (wide : Bool) (held : Fin m → FileLock) (call : Call) (last now : Shared × Row) :
    Prop extends Seen wide held call last now where
  first : call ≠ .checkReservedLock → now.1.file.eFileLock = .none → now.1.inode.eFileLock = .none

/-- A call of the connection `c` to a process whose connections believe they hold `held`. From
EXCLUSIVE to SHARED, PENDING and RESERVED can be unlocked. -/
def contract (wide : Bool) (held : Fin m → FileLock) (c : Fin m) (call : Call) :
    Contract Shared SysCall Reply Row where
  after := Row.after
  admits s request reply := call = .unlock .shared → s.file.eFileLock = .exclusive →
    request = .setlk ⟨.unlck, [.pending, .reserved]⟩ → reply = .ok
  seen last now :=
    Waits wide (update held c (call.belief now.1.file.eFileLock)) call last now

/-- The locks of a process after a lock has been granted. A `wide` process asks for none. -/
def Row.grant (wide : Bool) (lock : Flock) (row : Row) : Row :=
  if wide then row else row.after (.setlk lock) .ok

section Calls

variable {wide : Bool} {held : Fin m → FileLock} {c : Fin m} {call : Call} {s : Shared}
  {last : Shared × Row} {row : Row}

theorem Fair.of_held (h : last.1.file.eFileLock ≠ .none) : Fair call last now :=
  fun hnone => absurd hnone h

theorem Fair.of_none (h : now.1.file.eFileLock = .none) : Fair call last now :=
  fun _ hne => absurd h hne

theorem held_ite (h : last.1.file.eFileLock ≠ .none) (h' : now.1.file.eFileLock ≠ .none) :
    (if wide = true then last else now).1.file.eFileLock ≠ .none := by
  split
  · exact h
  · exact h'

theorem Row.grant_of_wide (lock : Flock) (row : Row) (hw : wide = true) :
    row.grant wide lock = row := by
  rw [hw]
  rfl

@[simp] theorem Row.grant_apply (lock : Flock) (row : Row) (b : LockByte) :
    row.grant false lock b = if b ∈ lock.range then lock.lType.mode else row b := rfl

theorem Row.after_of_ne_ok (lock : Flock) (row : Row) (h : reply ≠ .ok) :
    row.after (.setlk lock) reply = row := by
  cases reply <;> first | rfl | contradiction

theorem Row.grant_ne_none (h : row b ≠ none) (hlock : lock.lType.mode = none → b ∉ lock.range) :
    row.grant wide lock b ≠ none := by
  cases wide with
  | true => exact h
  | false =>
    rw [Row.grant_apply]
    split
    · exact fun hnone => hlock hnone ‹_›
    · exact h

/-- A process that is not `wide`, or that has its lock already, asks for a lock. -/
theorem unixFileLock_wp (hseen : (contract wide held c call).seen last (s, row))
    (hwide : wide = true → s.inode.bProcessLock = true)
    (hok : Q .ok s (if wide then last else (s, row)) (row.grant wide lock))
    (hfail : wide = false → ∀ reply, reply ≠ .ok →
      (contract wide held c call).admits s (.setlk lock) reply → Q reply s (s, row) row) :
    (unixFileLock lock).wp (contract wide held c call) Q s last row := by
  unfold unixFileLock
  have hkind : s.file.processLock = wide := hseen.kind
  cases wide with
  | true => simpa [hkind, hwide, Row.grant] using hok
  | false =>
    simp only [hkind, wp_bind, wp_get, wp_ite, wp_await, Bool.false_eq_true, false_implies,
      not_false_eq_true, true_implies, true_and]
    refine ⟨hseen, fun reply hadm => ?_⟩
    by_cases hr : reply = .ok
    · subst hr
      exact hok
    · have := hfail rfl reply hr hadm
      simpa [contract, Row.after_of_ne_ok lock row hr] using this

/-- The end of a call that is not `close`: the connection believes in the lock of its file. -/
def Ends (wide : Bool) (held : Fin m → FileLock) (c : Fin m) (call : Call) (s : Shared)
    (last : Shared × Row) (row : Row) : Prop :=
  Seen wide (update held c s.file.eFileLock) call last (s, row)

theorem sqliteErrorFromPosixError_ne_ok (hr : reply ≠ .ok) (hio : ioerr ≠ .ok) :
    sqliteErrorFromPosixError reply ioerr ≠ .ok := by
  fun_cases sqliteErrorFromPosixError reply ioerr <;> simp_all

/-- The last steps towards SHARED, with a read-lock on the PENDING byte. -/
theorem lockSystem_shared (h : Good wide s.inode (update held c .none) row)
    (hfile : s.file.eFileLock = .none) (hinode : s.inode.eFileLock = .none)
    (hkind : s.file.processLock = wide) (hwide : wide = true → s.inode.bProcessLock = true)
    (hpend : wide = false → row .pending ≠ none) :
    (lockSystem sharingShm .shared).wp (contract wide held c (.lock .shared sharingShm))
      (fun _ => Ends wide held c (.lock .shared sharingShm)) s last row := by
  have hgood {row' : Row} (hrow' : wide = true → row' = row) :
      Good wide s.inode (update held c .none) row' :=
    h.setRow hinode fun hw hp => hrow' hw ▸ (h.counters.whole hw hp).1
  have hend {last : Shared × Row} {row' : Row} (hrow' : wide = true → row' = row) :
      Ends wide held c (.lock .shared sharingShm) s last row' :=
    ⟨hfile ▸ hgood hrow', hkind, .of_none hfile⟩
  have hwait {last : Shared × Row} {row' : Row} (hrow' : wide = true → row' = row) :
      (contract wide held c (.lock .shared sharingShm)).seen last (s, row') :=
    ⟨hend hrow', fun _ _ => hinode⟩
  have hgrant (lock : Flock) {row' : Row} (hrow' : wide = true → row' = row) (hw : wide = true) :
      row'.grant wide lock = row := (Row.grant_of_wide lock row' hw).trans (hrow' hw)
  unfold lockSystem lockShared
  simp only [if_true, wp_bind]
  refine unixFileLock_wp (hwait fun _ => rfl) hwide ?_ fun hw locked hlocked _ => ?_
  · have hrow := hgrant ⟨.rdlck, [.shared]⟩ fun _ => rfl
    refine unixFileLock_wp (hwait hrow) hwide ?_ fun hw dropped hdropped _ => ?_
    · have hshared : ((row.grant wide ⟨.rdlck, [.shared]⟩).grant wide ⟨.unlck, [.pending]⟩) .shared
          ≠ none := by
        cases wide with
        | true => simp [Row.grant, (h.counters.whole rfl (hwide rfl)).1]
        | false => simp [LockType.mode]
      have hdone := (hgood (hgrant ⟨.unlck, [.pending]⟩ hrow)).first hinode hshared hwide
      simp only [ne_eq, not_true_eq_false, if_false, wp_bind, setFileLock, setInode, wp_modify,
        wp_pure, if_true]
      refine ⟨hdone, hkind, fun _ _ =>
        ⟨⟨sharingShm, rfl⟩, (by decide : FileLock.shared ≤ .reserved), .inr ?_⟩⟩
      cases wide with
      | true => exact .inl (h.counters.whole rfl (hwide rfl)).1
      | false => exact .inr (by simpa [LockType.mode] using hpend rfl)
    · simpa [hdropped] using hend hrow
  · refine unixFileLock_wp (hwait fun _ => rfl) hwide ?_ fun _ dropped hdropped _ => ?_
    · simpa [hlocked, sqliteErrorFromPosixError_ne_ok] using hend (hgrant _ fun _ => rfl)
    · simpa [hlocked, sqliteErrorFromPosixError_ne_ok] using hend fun _ => rfl

/-- The last steps towards RESERVED or EXCLUSIVE, from the level of the process. -/
theorem lockSystem_write (h : Good wide s.inode (update held c s.inode.eFileLock) row)
    (hfile : s.file.eFileLock = s.inode.eFileLock) (hne : s.inode.eFileLock ≠ .none)
    (hkind : s.file.processLock = wide) (hlast : last.1.file.eFileLock ≠ .none)
    (hle : s.inode.eFileLock ≤ eFileLock) (hlock : eFileLock = .reserved ∨ eFileLock = .exclusive) :
    (lockSystem sharingShm eFileLock).wp (contract wide held c (.lock eFileLock sharingShm))
      (fun _ => Ends wide held c (.lock eFileLock sharingShm)) s last row := by
  have hshared : eFileLock ≠ .shared := by rcases hlock with rfl | rfl <;> decide
  have hend {last : Shared × Row} (hlast : last.1.file.eFileLock ≠ .none) :
      Ends wide held c (.lock eFileLock sharingShm) s last row := ⟨hfile ▸ h, hkind, .of_held hlast⟩
  unfold lockSystem lockWrite
  simp only [hshared, if_false, wp_bind, wp_get, wp_ite, wp_pure, reduceCtorEq, false_implies,
    not_false_eq_true, true_implies, true_and]
  refine ⟨fun _ => hend hlast, fun halone => ⟨fun _ => hend hlast, fun _ => ?_⟩⟩
  refine unixFileLock_wp ⟨hend hlast, fun _ hnone => absurd (hfile ▸ hnone) hne⟩
    (fun hw => h.counters.process hw hne) ?_
    fun _ reply hreply _ => ?_
  · simp only [sqliteErrorFromPosixError, true_implies, setFileLock, setInode, wp_modify,
      not_true_eq_false, false_implies, and_true]
    refine ⟨h.raise hne hle (fun he => ?_) ?_ (fun hw => ?_) fun hw => ?_, hkind,
      .of_held (held_ite hlast ?_)⟩
    · simpa [he] using halone
    · exact Row.grant_ne_none (h.counters.system hne) fun hm => by cases hm
    · exact Row.grant_of_wide _ _ hw
    · subst hw
      rcases hlock with rfl | rfl <;> simp [Backed, LockType.mode]
    · exact hfile ▸ hne
  · simpa [sqliteErrorFromPosixError_ne_ok, hreply] using hend (hfile ▸ hne)

/-- The first lock of a `wide` process, which is a write-lock on the whole range. -/
theorem Good.processLock (h : Good wide s.inode held row) (hnone : s.inode.eFileLock = .none) :
    Good wide { s.inode with bProcessLock := true, nLock := s.inode.nLock + 1 } held
      (row.after (.setlk ⟨.wrlck, [.shared]⟩) .ok) := by
  have hbacked := (h.setRow hnone fun _ _ => rfl :
    Good wide s.inode held (row.after (.setlk ⟨.wrlck, [.shared]⟩) .ok)).backed
  obtain ⟨hagreed, ⟨⟩, -⟩ := h
  refine ⟨hagreed, ?_, hbacked⟩
  constructor <;> grind [Row.after, LockType.mode]

/-- The first step towards SHARED, in a process that has no lock. -/
theorem lockPending_shared (h : Good wide s.inode (update held c .none) row)
    (hfile : s.file.eFileLock = .none) (hinode : s.inode.eFileLock = .none)
    (hkind : s.file.processLock = wide) :
    (unixFileLock ⟨.rdlck, [.pending]⟩).wp (contract wide held c (.lock .shared sharingShm))
      (fun reply s last row =>
        (reply ≠ .ok → Ends wide held c (.lock .shared sharingShm) s last row) ∧
        (reply = .ok → (lockSystem sharingShm .shared).wp
          (contract wide held c (.lock .shared sharingShm)) (fun _ => Ends wide held c
            (.lock .shared sharingShm)) s last row))
      s last row := by
  have hend {last : Shared × Row} : Ends wide held c (.lock .shared sharingShm) s last row :=
    ⟨hfile ▸ h, hkind, .of_none hfile⟩
  have hwait {last : Shared × Row} :
      (contract wide held c (.lock .shared sharingShm)).seen last (s, row) :=
    ⟨hend, fun _ _ => hinode⟩
  by_cases hfirst : wide = true → s.inode.bProcessLock = true
  · refine unixFileLock_wp hwait hfirst ⟨fun hne => absurd rfl hne, fun _ => ?_⟩
      fun _ reply hreply _ => ⟨fun _ => hend, fun hok => absurd hok hreply⟩
    refine lockSystem_shared ?_ hfile hinode hkind hfirst fun hw => ?_
    · refine h.setRow hinode fun hw hp => ?_
      rw [Row.grant_of_wide _ _ hw]
      exact (h.counters.whole hw hp).1
    · subst hw
      simp [LockType.mode]
  · obtain ⟨rfl, hp⟩ : wide = true ∧ s.inode.bProcessLock = false := by simpa using hfirst
    unfold unixFileLock
    simp only [wp_bind, wp_get, hkind, hp, if_true, Bool.false_eq_true, if_false, wp_await,
      setInode]
    refine ⟨hwait, fun reply _ => ?_⟩
    by_cases hreply : reply = .ok
    · subst hreply
      simp only [if_true, wp_bind, wp_modify, wp_pure]
      refine ⟨fun hne => absurd rfl hne, fun _ => ?_⟩
      exact lockSystem_shared (h.processLock hinode) hfile hinode hkind (fun _ => rfl) (by simp)
    · simp only [hreply, if_false, wp_pure, contract, Row.after_of_ne_ok _ row hreply]
      exact ⟨fun _ => hend, False.elim⟩

theorem unixLock_safe (hordered : (Call.lock eFileLock sharingShm).Ordered s.file.eFileLock)
    (hend : Ends wide held c (.lock eFileLock sharingShm) s (s, row) row) :
    (unixLock sharingShm eFileLock).wp (contract wide held c (.lock eFileLock sharingShm))
      (fun _ => Ends wide held c (.lock eFileLock sharingShm)) s (s, row) row := by
  obtain ⟨h, hkind, -⟩ := id hend
  unfold unixLock
  simp only [wp_bind, wp_get, wp_ite, wp_pure]
  refine ⟨fun _ => hend, fun hlt => ⟨fun _ => hend, fun hbusy => ⟨fun hfast => ?_, fun hslow =>
    ⟨fun hpend => ?_, fun hdirect => ?_⟩⟩⟩⟩
  · -- another connection of the process has a lock already
    obtain ⟨rfl, hin⟩ := hfast
    have hfile : s.file.eFileLock = .none := by simpa [FileLock.shared_le] using hlt
    rw [hfile] at h
    have hne : s.inode.eFileLock ≠ .none := by rcases hin with hin | hin <;> rw [hin] <;> decide
    have hex : s.inode.eFileLock ≠ .exclusive := by
      rcases hin with hin | hin <;> rw [hin] <;> decide
    refine ⟨h.join hne hex, hkind, fun _ _ => ⟨⟨sharingShm, rfl⟩, ?_, .inl hne⟩⟩
    show s.inode.eFileLock ≤ .reserved
    rcases hin with hin | hin <;> rw [hin]
    decide
  · by_cases hshared : eFileLock = .shared
    · subst hshared
      have hfile : s.file.eFileLock = .none := by simpa [FileLock.shared_le] using hlt
      have hinode : s.inode.eFileLock = .none := by
        rw [hfile] at hbusy
        revert hbusy hslow
        cases s.inode.eFileLock <;> decide
      rw [hfile] at h
      refine wp_mono (lockPending_shared h hfile hinode hkind) fun reply s last row hs => ?_
      exact ⟨hs.1, fun hok => ⟨(by simp), fun _ => hs.2 (not_not.mp hok)⟩⟩
    · obtain ⟨rfl, hres⟩ := hpend.resolve_left hshared
      have hinode : s.inode.eFileLock = .reserved := by
        by_contra hne
        exact hbusy ⟨fun heq => hne (heq ▸ hres), .inr (by decide)⟩
      have hne : s.inode.eFileLock ≠ .none := by rw [hinode]; decide
      have hfile : s.file.eFileLock ≠ .none := by rw [hres]; decide
      refine unixFileLock_wp ⟨hend, fun _ hnone => absurd hnone hfile⟩
        (fun hw => h.counters.process hw hne) ?_ fun _ reply hreply _ => ?_
      · simp only [not_true_eq_false, false_implies, true_and, true_implies, reduceCtorEq, if_false,
          not_false_eq_true, setFileLock, setInode, wp_modify, ne_eq, and_true]
        have hraised : Good wide { s.inode with eFileLock := .pending }
            (update held c .pending) (row.grant wide ⟨.wrlck, [.pending]⟩) := by
          refine (hres.trans hinode.symm ▸ h).raise hne (by rw [hinode]; decide) (by simp)
            (Row.grant_ne_none (h.counters.system hne) (by simp)) (Row.grant_of_wide _ _)
            fun hw => ?_
          subst hw
          have hreserved := h.backed rfl c
          rw [update_self, hres] at hreserved
          exact ⟨hreserved, rfl⟩
        exact lockSystem_write hraised rfl (by simp) hkind (held_ite hfile hfile)
          (by decide : FileLock.pending ≤ .exclusive) (.inr rfl)
      · simp only [hreply, not_false_eq_true, true_implies, not_true_eq_false, false_implies,
          and_true, ne_eq]
        exact ⟨h, hkind, .of_held hfile⟩
  · have hshared : eFileLock ≠ .shared := fun he => hdirect (.inl he)
    rcases hordered with hle | ⟨hheld, hpending, hreserved⟩
    · exact absurd hle hlt
    have hfile : s.file.eFileLock ≠ .none := hheld.resolve_right hshared
    have hlock : eFileLock = .reserved ∨ eFileLock = .exclusive := by
      revert hshared hpending hlt
      cases eFileLock <;> simp [FileLock.none_le]
    have hinode : s.file.eFileLock = s.inode.eFileLock := by
      by_contra hne
      exact hbusy ⟨hne, .inr (by rcases hlock with rfl | rfl <;> decide)⟩
    exact lockSystem_write (hinode ▸ h) hinode (hinode ▸ hfile) hkind hfile
      (hinode ▸ (not_le.mp hlt).le) hlock

theorem Good.setUnused (h : Good wide inode held row) :
    Good wide { inode with pUnused := n } held row :=
  ⟨h.agreed, { h.counters with }, h.backed⟩

theorem Good.eq_none (h : Good wide inode held row) (hlock : inode.nLock = 0) :
    inode.eFileLock = .none := by
  by_contra hne
  exact (h.counters.outstanding hne).ne' hlock

theorem Good.close (h : Good wide inode held row) (hlock : inode.nLock = 0)
    (row' : Row) : Good wide inode held row' :=
  h.setRow (h.eq_none hlock) fun hw hp => absurd (h.counters.whole hw hp).2 (by omega)

theorem closeFds_wp (n : Nat) (h : Good wide s.inode (update held c .none) row)
    (hkind : s.file.processLock = wide) (hlock : s.inode.nLock = 0)
    (hbelief : ∀ l, call.belief l = .none)
    (hlast : last.1.file.eFileLock ≠ .none ∨ s.file.eFileLock = .none) :
    (closeFds n).wp (contract wide held c call) (fun _ s' last row => s' = s ∧
      Good wide s.inode (update held c .none) row ∧
      (last.1.file.eFileLock ≠ .none ∨ s.file.eFileLock = .none)) s last row := by
  induction n generalizing last row with
  | zero => exact ⟨rfl, h, hlast⟩
  | succ n ih =>
    have hfair : Fair call last (s, row) := hlast.elim .of_held fun hnone => .of_none hnone
    refine wp_bind.mpr (wp_await.mpr ⟨⟨⟨(hbelief _).symm ▸ h, hkind, hfair⟩, fun _ _ => ?_⟩,
      fun reply _ => ?_⟩)
    · exact h.eq_none hlock
    refine ih (h.close hlock _) ?_
    exact (eq_or_ne s.file.eFileLock .none).symm

theorem dropLock_wp
    (h : Good wide { s.inode with nLock := s.inode.nLock - 1 } (update held c .none) row)
    (hkind : s.file.processLock = wide) (hbelief : ∀ l, call.belief l = .none)
    (hlast : last.1.file.eFileLock ≠ .none ∨ s.file.eFileLock = .none) :
    dropLock.wp (contract wide held c call) (fun _ s' last row => s'.file = s.file ∧
      Good wide s'.inode (update held c .none) row ∧
      (last.1.file.eFileLock ≠ .none ∨ s.file.eFileLock = .none)) s last row := by
  unfold dropLock closePendingFds setInode
  simp only [wp_bind, wp_modify, wp_get, wp_ite, wp_pure]
  refine ⟨fun hlock => ?_, fun _ => ⟨trivial, h, hlast⟩⟩
  refine wp_mono (closeFds_wp _ h hkind hlock hbelief hlast) ?_
  rintro _ s' last row ⟨rfl, hgood, hlast⟩
  exact ⟨rfl, hgood.setUnused, hlast⟩

/-- The connection has given up its lock; its file says so at the latest when the call fails. -/
def Leaves (wide : Bool) (held : Fin m → FileLock) (c : Fin m) (rc : Rc) (s : Shared)
    (last : Shared × Row) (row : Row) : Prop :=
  Good wide s.inode (update held c .none) row ∧ s.file.processLock = wide ∧
    (rc ≠ .ok → s.file.eFileLock = .none) ∧
    (last.1.file.eFileLock ≠ .none ∨ s.file.eFileLock = .none)

theorem unlockShared_wp (h : Good wide s.inode (update held c .shared) row)
    (hkind : s.file.processLock = wide) (hfile : s.file.eFileLock ≠ .none)
    (hbelief : ∀ l, call.belief l = .none) (hlast : last.1.file.eFileLock ≠ .none) :
    unlockShared.wp (contract wide held c call) (Leaves wide held c) s last row := by
  have hne : s.inode.eFileLock ≠ .none := FileLock.shared_le.mp (by simpa using h.agreed.below c)
  -- how the call goes on, once it has been decided whether the system's lock is given back
  have hdrop {rc : Rc} {s : Shared} {last : Shared × Row} {row : Row}
      (hs : Leaves wide held c rc { s with inode := { s.inode with nLock := s.inode.nLock - 1 } }
        last row) :
      (do dropLock; return rc : M Rc).wp (contract wide held c call) (Leaves wide held c) s last
        row := by
    refine wp_bind.mpr (wp_mono (dropLock_wp hs.1 hs.2.1 hbelief hs.2.2.2) ?_)
    rintro _ s' last row ⟨hf, hgood, hlast⟩
    exact wp_pure.mpr ⟨hgood, hf ▸ hs.2.1, fun hne => hf ▸ hs.2.2.1 hne, hf ▸ hlast⟩
  unfold unlockShared
  simp only [setInode]
  refine wp_bind.mpr (wp_modify.mpr (wp_bind.mpr (wp_get.mpr (wp_ite.mpr
    ⟨fun hzero => wp_bind.mpr ?_, fun hpos => wp_bind.mpr (wp_pure.mpr ?_)⟩))))
  · unfold unlockLast
    refine wp_bind.mpr (unixFileLock_wp
      ⟨⟨(hbelief _).symm ▸ h.leave, hkind, .of_held hlast⟩, fun _ hnone => absurd hnone hfile⟩
      (fun hw => h.counters.process hw hne) ?_ fun hw reply hreply _ => ?_)
    · exact hdrop ⟨h.releaseLast hzero (Row.grant_of_wide _ _), hkind, fun hok => absurd rfl hok,
        .inl (held_ite hlast hfile)⟩
    · refine wp_bind.mpr (wp_modify.mpr (wp_ite.mpr ⟨fun hok => absurd hok hreply, fun _ => ?_⟩))
      refine wp_bind.mpr (wp_modify.mpr (wp_pure.mpr (hdrop ?_)))
      exact ⟨h.releaseLast hzero fun _ => rfl, hkind, fun _ => rfl, .inr rfl⟩
  · exact hdrop ⟨h.release hpos, hkind, fun hok => absurd rfl hok, .inl hlast⟩

/-- What a part of `unixUnlock` above SHARED comes to, in terms of the state it began with. -/
def Lowers (wide : Bool) (held : Fin m → FileLock) (c : Fin m) (s : Shared) (rc : Rc) (s' : Shared)
    (last : Shared × Row) (row : Row) : Prop :=
  s'.file = s.file ∧ last.1.file.eFileLock ≠ .none ∧
    (rc = .ok → Good wide s'.inode (update held c .shared) row) ∧
    (rc ≠ .ok → Good wide s'.inode (update held c s.file.eFileLock) row)

section

variable (h : Good wide s.inode (update held c s.file.eFileLock) row)
  (hl : .shared < s.file.eFileLock) (hkind : s.file.processLock = wide)
  (hlast : last.1.file.eFileLock ≠ .none) (hbelief : ∀ l, call.belief l ≤ .shared)

include h hl

theorem Good.locked : s.file.eFileLock ≠ .none ∧ s.inode.eFileLock ≠ .none := by
  have hle : s.file.eFileLock ≤ s.inode.eFileLock := by simpa using h.agreed.below c
  exact ⟨FileLock.shared_le.mp hl.le, FileLock.shared_le.mp (hl.le.trans hle)⟩

include hkind hlast hbelief

/-- The PENDING and RESERVED bytes are unlocked, with a lock on the SHARED range. -/
theorem unlockBytes_wp (hrow : row' .shared ≠ none) (hwide : wide = true → row' = row)
    (hfail : wide = false → (call = .unlock .shared → s.file.eFileLock ≠ .exclusive) →
      Backed row' s.file.eFileLock) :
    unlockBytes.wp (contract wide held c call) (Lowers wide held c s) s last row' := by
  obtain ⟨hfile, hne⟩ := h.locked hl
  have hseen : (contract wide held c call).seen last (s, row') :=
    ⟨⟨h.change hl (.inr (hbelief _)) hrow hwide fun _ => .of_le_shared (hbelief _), hkind,
      .of_held hlast⟩, fun _ hnone => absurd hnone hfile⟩
  unfold unlockBytes
  refine wp_bind.mpr (unixFileLock_wp hseen (fun hw => h.counters.process hw hne) ?_
    fun hw reply hreply hadm => ?_)
  · refine ⟨rfl, held_ite hlast hfile, fun _ => ?_, fun hok => absurd rfl hok⟩
    exact h.relax hl (Row.grant_ne_none hrow fun _ => by decide)
      fun hw => (Row.grant_of_wide _ _ hw).trans (hwide hw)
  · rw [if_pos hreply]
    refine ⟨rfl, hfile, fun hok => absurd hok (by decide), fun _ => ?_⟩
    refine h.change hl (.inl rfl) hrow hwide fun hw => hfail hw fun hc hex => ?_
    exact hreply (hadm hc hex rfl)

theorem unlockWrite_wp (hcall : t = .shared → call = .unlock .shared) :
    (unlockWrite t).wp (contract wide held c call) (Lowers wide held c s) s last row := by
  obtain ⟨hfile, hne⟩ := h.locked hl
  have hbacked (hw : wide = false) : Backed row s.file.eFileLock := by simpa using h.backed hw c
  unfold unlockWrite
  split
  · next ht =>
    have hseen : (contract wide held c call).seen last (s, row) :=
      ⟨⟨h.lower ((hbelief _).trans hl.le) (hbelief _), hkind, .of_held hlast⟩,
        fun _ hnone => absurd hnone hfile⟩
    refine wp_bind.mpr (unixFileLock_wp hseen (fun hw => h.counters.process hw hne) ?_
      fun hw reply hreply _ => ?_)
    · rw [if_neg (by decide)]
      refine unlockBytes_wp h hl hkind (held_ite hlast hfile) hbelief
        (Row.grant_ne_none (h.counters.system hne) nofun) (Row.grant_of_wide _ _) fun hw hexcl => ?_
      -- the range is only read-locked now, which is enough for RESERVED and PENDING
      have hnot := hexcl (hcall ht)
      have hold := hbacked hw
      subst hw
      revert hnot hold
      cases s.file.eFileLock <;> simp [Backed]
    · rw [if_pos hreply]
      exact ⟨rfl, hfile, fun hok => absurd hok (by decide), fun _ => h⟩
  · exact unlockBytes_wp h hl hkind hlast hbelief (h.counters.system hne) (fun _ => rfl)
      fun hw _ => hbacked hw

end

theorem unlockRest_wp (h : Good wide s.inode (update held c .shared) row)
    (hkind : s.file.processLock = wide) (hfile : s.file.eFileLock ≠ .none)
    (hlast : last.1.file.eFileLock ≠ .none) (ht : t ≤ .shared)
    (hbelief : t = .none → ∀ l, call.belief l = .none) :
    (unlockRest t).wp (contract wide held c call) (fun _ => Ends wide held c call) s last row := by
  unfold unlockRest
  obtain rfl | rfl := FileLock.le_shared.mp ht
  · refine wp_ite.mpr ⟨fun _ => ?_, fun hne => absurd rfl hne⟩
    refine wp_bind.mpr (wp_mono (unlockShared_wp h hkind hfile (hbelief rfl) hlast) ?_)
    rintro rc s last row ⟨hgood, hkind, hrc, hlast⟩
    refine wp_ite.mpr ⟨fun _ => ?_, fun hne => ?_⟩
    · exact ⟨hgood, hkind, .of_none rfl⟩
    · exact ⟨(hrc hne).symm ▸ hgood, hkind, .of_none (hrc hne)⟩
  · exact ⟨h, hkind, .of_held hlast⟩

theorem unixUnlock_safe (hend : Ends wide held c call s (s, row) row) (ht : t ≤ .shared)
    (hbelief : ∀ l, call.belief l ≤ t) (hcall : t = .shared → call = .unlock .shared) :
    (unixUnlock t).wp (contract wide held c call) (fun _ => Ends wide held c call) s
      (s, row) row := by
  obtain ⟨h, hkind, -⟩ := id hend
  unfold unixUnlock
  refine wp_bind.mpr (wp_get.mpr (wp_ite.mpr ⟨fun _ => hend, fun hlt => ?_⟩))
  have hfile : s.file.eFileLock ≠ .none := fun hnone => hlt (hnone ▸ FileLock.none_le)
  have hnone : t = .none → ∀ l, call.belief l = .none := fun hn l =>
    FileLock.le_none.mp (hn ▸ hbelief l)
  refine wp_ite.mpr ⟨fun hl => wp_bind.mpr ?_, fun hl => wp_bind.mpr (wp_pure.mpr ?_)⟩
  · refine wp_mono (unlockWrite_wp h hl hkind hfile (fun l => (hbelief l).trans ht) hcall) ?_
    rintro rc s' last row ⟨hf, hlast, hok, hfail⟩
    refine wp_ite.mpr ⟨fun hne => ?_, fun hrc => ?_⟩
    · exact ⟨hf ▸ hfail hne, hf ▸ hkind, .of_held hlast⟩
    · exact unlockRest_wp (hok (not_not.mp hrc)) (hf ▸ hkind) (hf ▸ hfile) hlast ht hnone
  · have hshared : s.file.eFileLock = .shared :=
      (FileLock.le_shared.mp (not_lt.mp hl)).resolve_left hfile
    exact unlockRest_wp (hshared ▸ h) hkind hfile hfile ht hnone

theorem checkReservedLock_safe (hend : Ends wide held c .checkReservedLock s (s, row) row) :
    Call.checkReservedLock.run.wp (contract wide held c .checkReservedLock)
      (fun _ => Ends wide held c .checkReservedLock) s (s, row) row := by
  unfold Call.run unixCheckReservedLock
  simp only [wp_bind, wp_get, wp_ite, wp_pure, wp_await]
  refine ⟨fun _ => hend, fun _ => ⟨fun _ => hend, fun _ => ⟨⟨hend, fun hne => absurd rfl hne⟩, ?_⟩⟩⟩
  intro reply _
  cases reply <;> exact hend

def Call.outcome : Call → FileLock → FileLock
  | .close, _ => .none
  | _, held => held

theorem Call.run_safe (hordered : call.Ordered s.file.eFileLock)
    (h : Good wide s.inode (update held c s.file.eFileLock) row)
    (hkind : s.file.processLock = wide) :
    call.run.wp (contract wide held c call) (fun _ s last row =>
      Seen wide (update held c (call.outcome s.file.eFileLock)) call last (s, row))
      s (s, row) row := by
  have hend : Ends wide held c call s (s, row) row := ⟨h, hkind, fun hnone hne => absurd hnone hne⟩
  cases call with
  | lock eFileLock sharingShm => exact unixLock_safe hordered hend
  | unlock t => exact unixUnlock_safe hend hordered (fun l => min_le_right l t) fun ht => ht ▸ rfl
  | checkReservedLock => exact checkReservedLock_safe hend
  | close =>
    refine wp_mono (unixUnlock_safe hend (by decide) (fun _ => le_rfl) nofun) ?_
    intro _ s last row hend
    exact ⟨hend.good.lower FileLock.none_le FileLock.none_le, hend.kind, hend.fair⟩

theorem unixLock_eq_done (h : eFileLock ≤ s.file.eFileLock) :
    unixLock sharingShm eFileLock s = .done .ok s :=
  congrFun (if_pos h) s

theorem unixUnlock_eq_done (h : s.file.eFileLock ≤ t) : unixUnlock t s = .done .ok s :=
  congrFun (if_pos h) s

/-- A connection without a lock changes nothing, unless it asks for SHARED. -/
theorem Call.run_always (hordered : call.Ordered s.file.eFileLock)
    (hfile : s.file.eFileLock = .none) (hcall : ∀ sharingShm, call ≠ .lock .shared sharingShm) :
    (call.run s).Always (· = s) := by
  cases call with
  | lock eFileLock sharingShm =>
    have hnone : eFileLock = .none := by
      rcases hordered with hle | ⟨hheld, -, -⟩
      · exact FileLock.le_none.mp (hfile ▸ hle)
      · exact absurd (hheld.resolve_left (not_not.mpr hfile) ▸ rfl) (hcall sharingShm)
    have hrun : (Call.lock eFileLock sharingShm).run s = .done .ok s :=
      unixLock_eq_done (hnone ▸ FileLock.none_le)
    rw [hrun]
    rfl
  | unlock t =>
    have hrun : (Call.unlock t).run s = .done .ok s := unixUnlock_eq_done (hfile ▸ FileLock.none_le)
    rw [hrun]
    rfl
  | checkReservedLock =>
    have hwp : Call.checkReservedLock.run.wp (.always (· = s)) (fun _ s' _ _ => s' = s) s
        (s, ()) () := by
      unfold Call.run unixCheckReservedLock
      simp only [wp_bind, wp_get, wp_ite, wp_pure, wp_await, Contract.always, implies_true,
        true_and]
      intro _ _ reply _
      cases reply <;> rfl
    exact Suspended.always_of_wp hwp
  | close =>
    have hrun : Call.close.run s = .done .ok s := unixUnlock_eq_done (hfile.trans_le le_rfl)
    rw [hrun]
    rfl

end Calls

end SqlCipher.Unix
