import SqlCipher.Unix.FileLockSpec

/-!
# File locks exclude each other

Processes with connections to one database file call `unixLock`, `unixUnlock`,
`unixCheckReservedLock` and `unixClose`, and any `fcntl` call may fail. In the runs that `Legal`
admits the locks that the connections believe in exclude each other, and are backed by locks of the
system (`locks_exclude`). Each of the four kinds of steps that are not admitted breaks the protocol
(`not_locks_exclude`).
-/

namespace SqlCipher.Unix

open Coroutine Function Option State Unix.Process

variable {n m : Nat} {locks : Fin n → Row} {d : Fin m} {held : Fin m → FileLock} {inode : InodeInfo}

/-! ## The system's table -/

def Exclusive (locks : Fin n → Row) : Prop :=
  ∀ p q b, p ≠ q → locks p b = some .write → locks q b = none

theorem Exclusive.replace (h : Exclusive locks)
    (hwrite : ∀ q b, q ≠ p → row b = some .write → locks q b = none)
    (hread : ∀ q b, q ≠ p → locks q b = some .write → row b = none) :
    Exclusive (update locks p row) := by
  intro p' q b hne hw
  simp only [update_apply] at hw ⊢
  grind [h p' q b]

theorem Exclusive.close (h : Exclusive locks) (p : Fin n) :
    Exclusive (update locks p fun _ => none) :=
  h.replace nofun fun _ _ _ _ => rfl

theorem Exclusive.after {request : SysCall} (h : Exclusive locks)
    (hanswer : Answers locks p request reply) :
    Exclusive (update locks p ((locks p).after request reply)) := by
  cases request with
  | getlk lock => rwa [show (locks p).after (.getlk lock) reply = locks p from rfl,
      update_eq_self]
  | close => exact h.close p
  | setlk lock =>
    by_cases hreply : reply = .ok
    · subst hreply
      have hcompat : Compatible locks p lock := hanswer
      refine h.replace (fun q b hq hw => ?_) fun q b hq hw => ?_
      all_goals
        have hlock := hcompat q hq b
        simp only [Row.after] at hw ⊢
        grind [LockType.mode, h p q b, h q p b]
    · rwa [Row.after_of_ne_ok lock _ hreply, update_eq_self]

/-! ## One process -/

/-- The lock that a connection believes it holds while it is in no call. -/
def Process.rest (pr : Process m) (c : Fin m) : FileLock :=
  match pr.files c with
  | none => .none
  | some file => if pr.closing c = true then .none else file.eFileLock

theorem Process.holds_of_idle {pr : Process m}
    (h : ∀ a, pr.active = some a → a.conn ≠ c) : pr.holds c = pr.rest c := by
  unfold Process.holds rest
  cases hactive : pr.active with
  | none => rfl
  | some a =>
    have hconn := h a hactive
    cases pr.files c with
    | none => rfl
    | some file => simp [hconn]

def Final (wide : Bool) (held : Fin m → FileLock) (c : Fin m) (call : Call) (_ : Rc) (s : Shared)
    (last : Shared × Row) (row : Row) : Prop :=
  Seen wide (update held c (call.outcome s.file.eFileLock)) call last (s, row)

/-- A call that waits in a process keeps its contract when it goes on. -/
structure Process.Waiting (pr : Process m) (wide : Bool) (row : Row) (a : Active m)
    (file : UnixFile) : Prop where
  isOpen : pr.files a.conn = some file
  closing : pr.closing a.conn = true ↔ a.call = .close
  first : a.call ≠ .checkReservedLock → file.eFileLock = .none → pr.inode.eFileLock = .none
  resume : ∀ reply,
    (contract wide pr.rest a.conn a.call).admits ⟨pr.inode, file⟩ a.request reply →
    (a.resume reply).wp (contract wide pr.rest a.conn a.call) (Final wide pr.rest a.conn a.call)
      (⟨pr.inode, file⟩, row) (row.after a.request reply)

structure Process.Sound (pr : Process m) (wide : Bool) (row : Row) : Prop where
  kind : ∀ c file, pr.files c = some file → file.processLock = wide
  good : Good wide pr.inode pr.holds row
  active : ∀ a, pr.active = some a → ∃ file, pr.Waiting wide row a file

def Process.opened (pr : Process m) : Finset (Fin m) :=
  Finset.univ.filter fun c => (pr.files c).isSome

/-- The process has no lock, and the call that waits in it does not ask for one. -/
structure Process.Quiet (pr : Process m) : Prop where
  nLock : pr.inode.nLock = 0
  active : ∀ a file, pr.active = some a → pr.files a.conn = some file →
    file.eFileLock = .none ∧ ∀ reply, (a.resume reply).Always (· = ⟨pr.inode, file⟩)

/-- The invariant of a process. A descriptor about to be closed is closed while the process has no
lock. -/
structure Process.Inv (pr : Process m) (row : Row) : Prop where
  nRef : pr.nRef = pr.opened.card
  fresh : pr.nRef = 0 → pr.inode = .zero
  closed : ∀ c, pr.files c = none → pr.closing c = false
  closing : ∀ c, pr.bigLock = some c → pr.closing c = true
  other : ∀ c a, pr.bigLock = some c → pr.active = some a → a.conn ≠ c
  quiet : ∀ c file, pr.bigLock = some c → pr.files c = some file → file.h = true → pr.Quiet
  sound : ∃ wide, pr.Sound wide row

section Settle

variable {pr : Process m} {c : Fin m} {call : Call} {wide : Bool} {row : Row}
  {x : Suspended Shared SysCall Reply Rc} {last : Shared × Row}

theorem contract_update (held : Fin m → FileLock) (c : Fin m) (l : FileLock) :
    contract wide (update held c l) c call = contract wide held c call := by
  simp [contract]

theorem final_update (held : Fin m → FileLock) (c : Fin m) (l : FileLock) :
    Final wide (update held c l) c call = Final wide held c call := by
  funext _ s last row
  simp [Final]

theorem rest_settle (pr : Process m) (c : Fin m) (call : Call)
    (x : Suspended Shared SysCall Reply Rc) :
    (pr.settle c call x).rest = update pr.rest c
      (if pr.closing c = true then .none else x.state.file.eFileLock) := by
  funext d
  simp only [rest, settle, update_apply]
  grind

theorem holds_settle_of_ne (hd : d ≠ c) : (pr.settle c call x).holds d = pr.rest d := by
  rw [holds_of_idle, rest_settle, update_of_ne hd]
  intro a ha
  cases x with
  | done => cases ha
  | waiting =>
    obtain rfl := some.inj ha
    exact Ne.symm hd

theorem holds_settle (hclosing : pr.closing c = true ↔ call = .close) :
    (pr.settle c call x).holds = update pr.rest c
      (match x with
        | .done _ s => call.outcome s.file.eFileLock
        | .waiting s _ _ => call.belief s.file.eFileLock) := by
  funext d
  by_cases hd : d = c
  · subst hd
    simp only [Process.holds, settle, update_self]
    cases x <;> grind [Suspended.state, Call.outcome, Call.belief]
  · rw [update_of_ne hd, holds_settle_of_ne hd]

/-- A call that keeps its contract leaves the process sound at its next request or its end. -/
theorem Process.Sound.settle (pr : Process m)
    (hkind : ∀ d file, pr.files d = some file → file.processLock = wide)
    (hclosing : pr.closing c = true ↔ call = .close)
    (hx : x.wp (contract wide pr.rest c call) (Final wide pr.rest c call) last row) :
    (pr.settle c call x).Sound wide row ∧ Fair call last (x.state, row) := by
  have hkinds (hk : x.state.file.processLock = wide) (d : Fin m) (file : UnixFile)
      (hfile : (pr.settle c call x).files d = some file) : file.processLock = wide := by
    simp only [Process.settle, update_apply] at hfile
    grind
  cases x with
  | done a s =>
    have hend : Seen _ _ _ _ _ := hx
    refine ⟨⟨hkinds hend.kind, ?_, nofun⟩, hend.fair⟩
    rw [holds_settle hclosing]
    exact hend.good
  | waiting s request resume =>
    have hwait : Waits _ _ _ _ _ := hx.1
    refine ⟨⟨hkinds hwait.kind, ?_, ?_⟩, hwait.fair⟩
    · rw [holds_settle hclosing]
      exact hwait.good
    · intro a ha
      obtain rfl := some.inj ha
      refine ⟨s.file, by simp [Process.settle, Suspended.state], hclosing, hwait.first, ?_⟩
      rw [rest_settle, contract_update, final_update]
      exact hx.2

end Settle

section Steps

variable {pr : Process m} {c : Fin m} {file : UnixFile} {row : Row}

theorem Process.mem_opened : c ∈ pr.opened ↔ (pr.files c).isSome := by simp [opened]

theorem Process.Inv.nRef_pos (h : pr.Inv row) (hc : pr.files c = some file) : 0 < pr.nRef := by
  rw [h.nRef]
  exact Finset.card_pos.mpr ⟨c, mem_opened.mpr (by simp [hc])⟩

theorem Process.holds_none (hc : pr.files c = none) : pr.holds c = .none := by
  simp [Process.holds, hc]

theorem Good.zero (h : ∀ d, held d = .none) : Good wide .zero held row where
  agreed := .of_none h
  counters := ⟨nofun, le_rfl, fun hne => absurd rfl hne, fun hne => absurd rfl hne,
    fun _ hne => absurd rfl hne, nofun⟩
  backed _ d := by rw [h d]; trivial

theorem Good.forget (h : Good wide inode held row)
    (hnone : ∀ d, held' d = .none) : Good wide inode held' row :=
  ⟨.of_none hnone, h.counters, fun _ d => by rw [hnone d]; trivial⟩

theorem Process.good_of_card_eq_zero (hzero : pr.opened.card = 0) :
    Good wide .zero pr.holds row := by
  refine .zero fun d => holds_none (not_isSome_iff_eq_none.mp fun hd => ?_)
  exact absurd (mem_opened.mpr hd) (by simp [Finset.card_eq_zero.mp hzero])

/-- Which kind the connections of a process are of does not matter while it has none. -/
theorem Process.Inv.good (h : pr.Inv row)
    (hkind : ∀ d file, pr.files d = some file → file.processLock = wide) :
    Good wide pr.inode pr.holds row := by
  obtain ⟨wide', hsound⟩ := h.sound
  by_cases hzero : pr.nRef = 0
  · rw [h.fresh hzero]
    exact good_of_card_eq_zero (h.nRef ▸ hzero)
  · obtain ⟨d, hd⟩ := Finset.card_pos.mp (Nat.pos_of_ne_zero (h.nRef ▸ hzero))
    obtain ⟨file, hfile⟩ := isSome_iff_exists.mp (mem_opened.mp hd)
    rw [← hkind d file hfile, hsound.kind d file hfile]
    exact hsound.good

theorem Process.Inv.openFile (h : pr.Inv row) (hnone : pr.files c = none)
    (hactive : pr.active = none) (hbig : pr.bigLock = none)
    (hkind : ∀ d file, pr.files d = some file → file.processLock = (excl && !rdonly)) :
    (pr.openFile c excl rdonly reuse).Inv row := by
  have hholds : (pr.openFile c excl rdonly reuse).holds = pr.holds := by
    funext d
    simp only [Process.holds, Process.openFile, update_apply]
    grind [h.closed d]
  have hopened : (pr.openFile c excl rdonly reuse).opened = insert c pr.opened := by
    ext d
    simp only [mem_opened, Process.openFile, update_apply]
    grind [mem_opened]
  refine ⟨?_, nofun, ?_, ?_, ?_, ?_, excl && !rdonly, ?_, ?_, ?_⟩
  · rw [hopened, Finset.card_insert_of_notMem (by simp [mem_opened, hnone])]
    exact congrArg (· + 1) h.nRef
  case refine_7 =>
    rw [hholds]
    simp only [Process.openFile]
    split
    · exact (h.good hkind).setUnused
    · exact h.good hkind
  all_goals
    simp only [Process.openFile, update_apply]
    grind [UnixFile.processLock, h.closed]

theorem Process.Inv.settle (h : pr.Inv row) (hfile : pr.files c = some file)
    (hquiet : ∀ d f, pr.bigLock = some d → pr.files d = some f → f.h = true →
      pr.inode.nLock = 0 ∧ file.eFileLock = .none ∧ x.Always (· = ⟨pr.inode, file⟩))
    (hbig : pr.bigLock ≠ some c) (hsound : ∃ wide, (pr.settle c call x).Sound wide row') :
    (pr.settle c call x).Inv row' := by
  have hopened : (pr.settle c call x).opened = pr.opened := by
    ext d
    simp only [mem_opened, Process.settle, update_apply]
    grind
  refine ⟨?_, ?_, ?_, h.closing, ?_, ?_, hsound⟩
  · rw [hopened]
    exact h.nRef
  · intro hzero
    exact absurd hzero (h.nRef_pos hfile).ne'
  · simp only [Process.settle, update_apply]
    grind [h.closed]
  · intro d a hd ha
    cases x with
    | done => cases ha
    | waiting =>
      obtain rfl := some.inj ha
      rintro rfl
      exact hbig hd
  · intro d f hd hf hh
    have hdc : d ≠ c := fun heq => hbig (heq ▸ hd)
    obtain ⟨hlock, hnone, halways⟩ := hquiet d f hd (by simpa [Process.settle, hdc] using hf) hh
    have hstate : x.state = ⟨pr.inode, file⟩ := halways.state
    refine ⟨by simpa [Process.settle, hstate] using hlock, fun a f ha hf => ?_⟩
    cases x with
    | done => cases ha
    | waiting s request resume =>
      obtain rfl := some.inj ha
      obtain rfl : s = ⟨pr.inode, file⟩ := hstate
      obtain rfl : file = f := by simpa [Process.settle, Suspended.state] using hf
      exact ⟨hnone, halways.2⟩

theorem Process.rest_enter (call : Call) (d : Fin m) (hd : d ≠ c) :
    (pr.enter c call).rest d = pr.rest d := by
  simp only [rest, enter, update_of_ne hd]

theorem Process.Inv.enter (h : pr.Inv row) (hfile : pr.files c = some file)
    (hactive : pr.active = none) (hclosing : pr.closing c = false) (call : Call) :
    (pr.enter c call).Inv row := by
  have hidle (d : Fin m) : pr.holds d = pr.rest d := holds_of_idle (by simp [hactive])
  have hidle' (d : Fin m) : (pr.enter c call).holds d = (pr.enter c call).rest d :=
    holds_of_idle (by simp [Process.enter, hactive])
  refine ⟨h.nRef, h.fresh, ?_, ?_, h.other, fun d f hd hf hh => ?_, ?_⟩
  · simp only [Process.enter, update_apply]
    grind [h.closed]
  · simp only [Process.enter, update_apply]
    grind [h.closing]
  · exact ⟨(h.quiet d f hd hf hh).nLock, (h.quiet d f hd hf hh).active⟩
  · obtain ⟨wide, hsound⟩ := h.sound
    refine ⟨wide, hsound.kind, ?_, fun a ha => absurd ha (by simp [Process.enter, hactive])⟩
    by_cases hcall : call = .close
    · have hholds : (pr.enter c call).holds = update pr.holds c .none := by
        funext d
        rw [hidle']
        simp only [hidle, rest, Process.enter, update_apply]
        grind
      rw [hholds]
      refine Good.lower (l := pr.holds c) ?_ FileLock.none_le FileLock.none_le
      rw [update_eq_self]
      exact hsound.good
    · have hsame : pr.enter c call = pr := by
        simp [Process.enter, hcall, ← hclosing]
      rw [hsame]
      exact hsound.good

theorem Process.Inv.call {call : Call} (h : pr.Inv row) (hfile : pr.files c = some file)
    (hactive : pr.active = none) (hclosing : pr.closing c = false)
    (hordered : call.Ordered file.eFileLock)
    (hrace : (∃ sharingShm, call = .lock .shared sharingShm) →
      ∀ d f, pr.bigLock = some d → pr.files d = some f → f.h = false) :
    ((pr.enter c call).settle c call (call.run ⟨pr.inode, file⟩)).Inv row ∧
      Fair call (⟨pr.inode, file⟩, row) ((call.run ⟨pr.inode, file⟩).state, row) := by
  obtain ⟨wide, hsound⟩ := h.sound
  have hrest : pr.holds = pr.rest := by
    funext d
    exact holds_of_idle (by simp [hactive])
  have hheld : pr.rest c = file.eFileLock := by simp [rest, hfile, hclosing]
  have hupdate (l : FileLock) : update (pr.enter c call).rest c l = update pr.rest c l := by
    funext d
    simp only [rest, Process.enter, update_apply]
    grind
  have hgood : Good wide pr.inode (update (pr.enter c call).rest c file.eFileLock) row := by
    rw [hupdate, ← hheld, update_eq_self, ← hrest]
    exact hsound.good
  have hrun := Call.run_safe (s := ⟨pr.inode, file⟩) hordered hgood (hsound.kind c file hfile)
  have hcall : (pr.enter c call).closing c = true ↔ call = .close := by simp [Process.enter]
  obtain ⟨hsound', hfair⟩ := Sound.settle (pr.enter c call) hsound.kind hcall hrun
  refine ⟨(h.enter hfile hactive hclosing call).settle hfile ?_ ?_ ⟨wide, hsound'⟩, hfair⟩
  · intro d f hd hf hh
    have hlock := (h.quiet d f hd hf hh).nLock
    have hnone : file.eFileLock = .none := by
      have := hsound.good.agreed.below c
      rw [hsound.good.eq_none hlock, FileLock.le_none, hrest, hheld] at this
      exact this
    have halways := Call.run_always (s := ⟨pr.inode, file⟩) hordered hnone
        fun sharingShm hlockcall =>
      absurd (hrace ⟨sharingShm, hlockcall⟩ d f hd hf) (by simp [hh])
    exact ⟨hlock, hnone, halways⟩
  · intro hbig
    exact absurd (h.closing c hbig) (by simp [hclosing])

theorem Process.Inv.reply {reply : Reply} (h : pr.Inv row)
    (hactive : pr.active = some a) (hfile : pr.files a.conn = some file)
    (hadmits : a.call = .unlock .shared → file.eFileLock = .exclusive →
      a.request = .setlk ⟨.unlck, [.pending, .reserved]⟩ → reply = .ok) :
    (pr.settle a.conn a.call (a.resume reply)).Inv (row.after a.request reply) ∧
      Fair a.call (⟨pr.inode, file⟩, row)
        ((a.resume reply).state, row.after a.request reply) ∧
      (a.call ≠ .checkReservedLock → file.eFileLock = .none → pr.inode.eFileLock = .none) := by
  obtain ⟨wide, hsound⟩ := h.sound
  obtain ⟨file', hwait⟩ := hsound.active a hactive
  obtain rfl := Option.mem_unique hfile hwait.isOpen
  obtain ⟨hsound', hfair⟩ := Sound.settle pr hsound.kind hwait.closing (hwait.resume reply hadmits)
  refine ⟨h.settle hfile ?_ ?_ ⟨wide, hsound'⟩, hfair, hwait.first⟩
  · intro d f hd hf hh
    have hquiet := h.quiet d f hd hf hh
    obtain ⟨hnone, halways⟩ := hquiet.active a file hactive hfile
    exact ⟨hquiet.nLock, hnone, halways reply⟩
  · exact fun hbig => h.other a.conn a hbig hactive rfl

theorem Process.Inv.closeCheck (h : pr.Inv row) (hfile : pr.files c = some file)
    (hactive : pr.active = none) (hclosing : pr.closing c = true) :
    (pr.closeCheck c file).Inv row := by
  obtain ⟨wide, hsound⟩ := h.sound
  unfold Process.closeCheck
  split
  · refine ⟨h.nRef.trans (congrArg Finset.card ?_), ?_, ?_, ?_, ?_, ?_, wide, ?_, ?_, ?_⟩
    · ext d
      simp only [mem_opened, update_apply]
      grind
    case refine_8 =>
      have hgood : Good wide { pr.inode with pUnused := pr.inode.pUnused + 1 } pr.holds row :=
        hsound.good.setUnused
      convert hgood using 1
      funext d
      simp only [Process.holds, update_apply]
      grind
    all_goals
      simp only [update_apply]
      grind [h.nRef_pos hfile, h.closed, hsound.kind c file hfile, hsound.kind,
        UnixFile.processLock]
  · next hlock =>
    refine ⟨h.nRef, h.fresh, h.closed, ?_, ?_, fun _ _ _ _ _ => ⟨not_not.mp hlock, ?_⟩, wide,
      hsound.kind, hsound.good, ?_⟩
    all_goals grind

theorem Call.belief_none (call : Call) : call.belief .none = .none := by
  cases call with
  | unlock t => exact min_eq_left FileLock.none_le
  | _ => rfl

theorem Call.outcome_none (call : Call) : call.outcome .none = .none := by cases call <;> rfl

/-- A call that changes nothing keeps its contract while the process has no lock. -/
theorem wp_of_always {x : Suspended Shared SysCall Reply Rc} (hx : x.Always (· = s))
    (hgood : ∀ row, Good wide s.inode (update held c .none) row) (hkind : s.file.processLock = wide)
    (hfile : s.file.eFileLock = .none) (hinode : s.inode.eFileLock = .none) (row : Row) :
    x.wp (contract wide held c call) (Final wide held c call) last row := by
  induction x generalizing last row with
  | done a s' =>
    obtain rfl : s' = s := hx
    refine ⟨?_, hkind, .of_none hfile⟩
    rw [hfile, Call.outcome_none]
    exact hgood row
  | waiting s' request resume ih =>
    obtain ⟨rfl, hrest⟩ := hx
    refine ⟨⟨⟨?_, hkind, .of_none hfile⟩, fun _ _ => hinode⟩,
      fun reply _ => ih reply (hrest reply) _⟩
    rw [hfile, Call.belief_none]
    exact hgood row

theorem Process.Inv.closeFinish (h : pr.Inv row) (hfile : pr.files c = some file)
    (hbig : pr.bigLock = some c) (hactive : pr.nRef - 1 = 0 → pr.active = none) :
    (pr.closeFinish c).Inv (pr.closeRow file row) := by
  obtain ⟨wide, hsound⟩ := h.sound
  have hopened : (pr.closeFinish c).opened = pr.opened.erase c := by
    ext d
    simp only [mem_opened, Process.closeFinish, update_apply]
    grind [mem_opened]
  have hnRef : (pr.closeFinish c).nRef = (pr.closeFinish c).opened.card := by
    rw [hopened, Finset.card_erase_of_mem (mem_opened.mpr (by simp [hfile])), ← h.nRef]
    rfl
  have hholds : (pr.closeFinish c).holds = pr.holds := by
    funext d
    simp only [Process.holds, Process.closeFinish, update_apply]
    grind [h.closing]
  have hrest : (pr.closeFinish c).rest = pr.rest := by
    funext d
    simp only [rest, Process.closeFinish, update_apply]
    grind [h.closing]
  have hfree : ∀ d, (pr.closeFinish c).bigLock ≠ some d := fun d h => by cases h
  refine ⟨hnRef, fun hzero => if_pos hzero, ?_, fun d h => absurd h (hfree d),
    fun d _ h => absurd h (hfree d), fun d _ h => absurd h (hfree d), wide, ?_, ?_, ?_⟩
  · simp only [Process.closeFinish, update_apply]
    grind [h.closed]
  · simp only [Process.closeFinish, update_apply]
    grind [hsound.kind]
  · by_cases hzero : pr.nRef - 1 = 0
    · rw [show (pr.closeFinish c).inode = .zero from if_pos hzero]
      exact good_of_card_eq_zero (hnRef.symm.trans hzero)
    · rw [hholds, show (pr.closeFinish c).inode = pr.inode from if_neg hzero]
      unfold closeRow
      split
      · next hclosed =>
        have hh := hclosed.resolve_right fun hlast => hzero hlast.1
        exact hsound.good.close (h.quiet c file hbig hfile hh).nLock _
      · exact hsound.good
  · intro a ha
    have ha' : pr.active = some a := ha
    have hzero : pr.nRef - 1 ≠ 0 := fun hzero => by simp [hactive hzero] at ha'
    have hinode : (pr.closeFinish c).inode = pr.inode := if_neg hzero
    have hne := h.other c a hbig ha'
    obtain ⟨f, hwait⟩ := hsound.active a ha'
    refine ⟨f, ?_, ?_, ?_, ?_⟩
    · simpa [Process.closeFinish, hne] using hwait.isOpen
    · simpa [Process.closeFinish, hne] using hwait.closing
    · rw [hinode]
      exact hwait.first
    · rw [hrest, hinode]
      unfold closeRow
      split
      · next hclosed =>
        have hh := hclosed.resolve_right fun hlast => hzero hlast.1
        have hquiet := h.quiet c file hbig hfile hh
        obtain ⟨hnone, halways⟩ := hquiet.active a f ha' hwait.isOpen
        intro reply _
        refine wp_of_always (halways reply) (fun row' => ?_) (hsound.kind _ f hwait.isOpen) hnone
          (hsound.good.eq_none hquiet.nLock) _
        refine (hsound.good.close hquiet.nLock row').forget fun d => ?_
        by_cases hd : d = a.conn
        · rw [hd, update_self]
        · have hle := hsound.good.agreed.below d
          have hidle : pr.holds d = pr.rest d :=
            holds_of_idle fun b hb => Option.mem_unique ha' hb ▸ Ne.symm hd
          rw [hsound.good.eq_none hquiet.nLock, FileLock.le_none, hidle] at hle
          rwa [update_of_ne hd]
      · exact hwait.resume

end Steps

/-! ## Every run -/

/-- What is asked of a run.
* No process has both connections for which one lock stands for the whole process and others.
* No connection asks for SHARED while another of its process is between the test of `nLock` and the
  `close` in its `unixClose`.
* None does in a process that has a lock while a connection of another process holds PENDING.
* From EXCLUSIVE to SHARED, the PENDING and RESERVED bytes can be unlocked. -/
def Legal (s : State n m) : Op n m → Prop
  | .openFile p _ excl rdonly _ =>
    ∀ d, ∀ file ∈ (s.procs p).files d, file.processLock = (excl && !rdonly)
  | .call p _ (.lock .shared _) =>
    (∀ d ∈ (s.procs p).bigLock, ∀ file ∈ (s.procs p).files d, file.h = false) ∧
      ((s.procs p).inode.eFileLock ≠ .none → ∀ q, q ≠ p → ∀ d, s.holds q d ≠ .pending)
  | .reply p reply =>
    ∀ a ∈ (s.procs p).active, ∀ file ∈ (s.procs p).files a.conn,
      a.call = .unlock .shared → file.eFileLock = .exclusive →
        a.request = .setlk ⟨.unlck, [.pending, .reserved]⟩ → reply = .ok
  | _ => True

instance (s : State n m) (op : Op n m) : Decidable (Legal s op) := by
  unfold Legal
  split <;> infer_instance

structure State.Inv (s : State n m) : Prop where
  exclusive : Exclusive s.locks
  procs : ∀ p, (s.procs p).Inv (s.locks p)

theorem State.start_inv : (start n m).Inv where
  exclusive := nofun
  procs p :=
    { nRef := by simp [start, Process.start, opened]
      fresh := fun _ => rfl
      closed := fun _ _ => rfl
      closing := nofun
      other := nofun
      quiet := nofun
      sound := ⟨false, nofun, .zero fun _ => rfl, nofun⟩ }

theorem State.Inv.set {s : State n m} (h : s.Inv)
    (hex : Exclusive (update s.locks p row)) (hpr : pr.Inv row) :
    ((s.setProcess p pr).setRow p row).Inv where
  exclusive := hex
  procs q := by
    simp only [setProcess, setRow, update_apply]
    grind [h.procs]

theorem State.Inv.setProcess {s : State n m} (h : s.Inv)
    (hpr : pr.Inv (s.locks p)) : (s.setProcess p pr).Inv where
  exclusive := h.exclusive
  procs q := by
    simp only [State.setProcess, update_apply]
    grind [h.procs]

def State.level (s : State n m) (p : Fin n) (c : Fin m) : FileLock :=
  match (s.procs p).files c with
  | none => .none
  | some file => file.eFileLock

/-- A connection newly gets a lock only if no other one holds PENDING. -/
def Grants (s s' : State n m) : Prop :=
  ∀ p c, s.level p c = .none → s'.level p c ≠ .none →
    ∀ q d, (p, c) ≠ (q, d) → s.holds q d ≠ .pending

def OnSystem (row : Row) : FileLock → Prop
  | .none => True
  | .shared => row .shared ≠ none
  | .reserved => row .shared = some .write ∨ row .shared ≠ none ∧ row .reserved = some .write
  | .pending => row .shared = some .write ∨
      row .shared ≠ none ∧ row .reserved = some .write ∧ row .pending = some .write
  | .exclusive => row .shared = some .write

theorem Good.onSystem (h : Good wide inode held row) (c : Fin m) : OnSystem row (held c) := by
  by_cases hnone : held c = .none
  · rw [hnone]
    trivial
  have hne : inode.eFileLock ≠ .none :=
    FileLock.shared_le.mp ((FileLock.shared_le.mpr hnone).trans (h.agreed.below c))
  have hshared := h.counters.system hne
  cases wide with
  | true =>
    have hwrite := (h.counters.whole rfl (h.counters.process rfl hne)).1
    cases held c <;> simp [OnSystem, hwrite]
  | false =>
    have hbacked := h.backed rfl c
    revert hbacked
    cases held c <;> simp +contextual [OnSystem, Backed, hshared]

theorem State.Inv.onSystem {s : State n m} (h : s.Inv) (p : Fin n) (c : Fin m) :
    OnSystem (s.locks p) (s.holds p c) := by
  obtain ⟨wide, hsound⟩ := (h.procs p).sound
  exact hsound.good.onSystem c

theorem Grants.of_level {s s' : State n m} (hprocs : ∀ q, q ≠ p → s'.procs q = s.procs q)
    (h : ∀ c, s.level p c = .none → s'.level p c = .none) : Grants s s' := by
  intro q c hnone hne
  by_cases hq : q = p
  · exact absurd (h c (hq ▸ hnone)) (hq ▸ hne)
  · exact absurd (by rwa [level, hprocs q hq]) hne

/-- A connection `c` of the process `p` gets a lock. -/
theorem Grants.of_fair {s s' : State n m} (h : s.Inv) (h' : s'.Inv)
    (hprocs : ∀ q, q ≠ p → s'.procs q = s.procs q) (hlocks : ∀ q, q ≠ p → s'.locks q = s.locks q)
    (hlevel : ∀ d, d ≠ c → s'.level p d = s.level p d)
    (hholds : ∀ d, d ≠ c → s'.holds p d = s.holds p d)
    (hfair : s.level p c = .none → s'.level p c ≠ .none →
      (s'.procs p).inode.eFileLock ≤ .reserved ∧
        ((∀ q, q ≠ p → ∀ d, s.holds q d ≠ .pending) ∨ s'.locks p .shared = some .write ∨
          s.locks p .pending ≠ none ∧ s.locks p .shared ≠ none)) : Grants s s' := by
  intro p₀ c₀ hnone hne q d hother hpending
  obtain rfl : p₀ = p := by
    by_contra hp
    refine hne ?_
    rw [level, hprocs p₀ hp]
    exact hnone
  obtain rfl : c₀ = c := by
    by_contra hc
    exact hne ((hlevel c₀ hc).trans hnone)
  obtain ⟨htop, hcases⟩ := hfair hnone hne
  by_cases hq : q = p₀
  · subst hq
    have hd : d ≠ c₀ := fun hd => hother (hd ▸ rfl)
    obtain ⟨wide, hsound⟩ := (h'.procs q).sound
    have hle : s'.holds q d ≤ .reserved := (hsound.good.agreed.below d).trans htop
    rw [hholds d hd, hpending] at hle
    exact absurd hle (by decide)
  · have hsystem : OnSystem (s.locks q) .pending := hpending ▸ h.onSystem q d
    rcases hcases with hnot | hwrite | ⟨hpend, hshared⟩
    · exact hnot q hq d hpending
    · have := h'.exclusive p₀ q .shared (Ne.symm hq) hwrite
      rw [hlocks q hq] at this
      rcases hsystem with hw | ⟨hs, -⟩
      · simp [this] at hw
      · exact hs this
    · rcases hsystem with hw | ⟨-, -, hp⟩
      · exact hshared (h.exclusive q p₀ .shared hq hw)
      · exact hpend (h.exclusive q p₀ .pending hq hp)

section Step

variable {s s' : State n m} {p : Fin n} {c : Fin m}

theorem stepOpen_inv (h : s.Inv) (hlegal : Legal s (.openFile p c excl rdonly reuse))
    (hstep : stepOpen s p c excl rdonly reuse = some s') : s'.Inv ∧ Grants s s' := by
  simp only [stepOpen, ite_none_right_eq_some, some.injEq] at hstep
  obtain ⟨⟨hnone, hactive, hbig, -⟩, rfl⟩ := hstep
  have hinv : ((s.procs p).openFile c excl rdonly reuse).Inv (s.locks p) :=
    (h.procs p).openFile hnone (isNone_iff_eq_none.mp hactive) hbig
      fun d file hfile => hlegal d file hfile
  refine ⟨h.setProcess hinv, .of_level (fun _ hq => update_of_ne hq _ _) fun d hd => ?_⟩
  simp only [level, setProcess, openFile, update_apply] at hd ⊢
  grind

theorem files_settle {pr : Process m} (hd : d ≠ c) : (pr.settle c call x).files d = pr.files d := by
  simp [settle, hd]

theorem stepCall_inv {call : Call} (h : s.Inv) (hlegal : Legal s (.call p c call))
    (hstep : stepCall s p c call = some s') : s'.Inv ∧ Grants s s' := by
  unfold stepCall at hstep
  cases hfile : (s.procs p).files c with
  | none => simp [hfile] at hstep
  | some file =>
    simp only [hfile, ite_none_right_eq_some, some.injEq] at hstep
    obtain ⟨⟨hactive, hclosing, hordered⟩, rfl⟩ := hstep
    have hactive := isNone_iff_eq_none.mp hactive
    have hlock : (∃ sharingShm, call = .lock .shared sharingShm) →
        (∀ d f, (s.procs p).bigLock = some d → (s.procs p).files d = some f → f.h = false) ∧
        ((s.procs p).inode.eFileLock ≠ .none → ∀ q, q ≠ p → ∀ d, s.holds q d ≠ .pending) := by
      rintro ⟨sharingShm, rfl⟩
      exact ⟨fun d f hd hf => hlegal.1 d hd f hf, hlegal.2⟩
    obtain ⟨hinv, hfair⟩ := (h.procs p).call hfile hactive hclosing hordered fun hc => (hlock hc).1
    have h' := h.setProcess hinv
    refine ⟨h', .of_fair (p := p) (c := c) h h' (fun _ hq => update_of_ne hq _ _)
      (fun _ _ => rfl) ?_ ?_ ?_⟩
    · intro d hd
      simp [level, setProcess, files_settle hd, enter]
    · intro d hd
      simp only [State.holds, setProcess, update_self]
      rw [holds_settle_of_ne hd, rest_enter call d hd]
      exact (holds_of_idle (by simp [hactive])).symm
    · intro hnone hne
      simp only [level, hfile] at hnone
      have hne : (call.run ⟨(s.procs p).inode, file⟩).state.file.eFileLock ≠ .none := by
        simpa [level, setProcess, settle] using hne
      obtain ⟨hcall, htop, hcases⟩ := hfair hnone hne
      refine ⟨by simpa [setProcess, settle] using htop, ?_⟩
      exact hcases.imp_left fun hin => (hlock hcall).2 hin

theorem stepReply_inv (h : s.Inv) (hlegal : Legal s (.reply p reply))
    (hstep : stepReply s p reply = some s') : s'.Inv ∧ Grants s s' := by
  unfold stepReply at hstep
  cases hactive : (s.procs p).active with
  | none => simp [hactive] at hstep
  | some a =>
    simp only [hactive, ite_none_right_eq_some, some.injEq] at hstep
    obtain ⟨hanswer, rfl⟩ := hstep
    obtain ⟨wide, hsound⟩ := (h.procs p).sound
    obtain ⟨file, hwait⟩ := hsound.active a hactive
    obtain ⟨hinv, hfair, hfirst⟩ := (h.procs p).reply hactive hwait.isOpen
      fun hc hex hr => hlegal a hactive file hwait.isOpen hc hex hr
    have h' := h.set (h.exclusive.after hanswer) hinv
    refine ⟨h', .of_fair (p := p) (c := a.conn) h h' (fun _ hq => update_of_ne hq _ _)
      (fun _ hq => update_of_ne hq _ _) ?_ ?_ ?_⟩
    · intro d hd
      simp [level, setProcess, setRow, files_settle hd]
    · intro d hd
      simp only [State.holds, setProcess, setRow, update_self]
      rw [holds_settle_of_ne hd]
      refine (holds_of_idle fun b hb => ?_).symm
      exact Option.mem_unique hactive hb ▸ Ne.symm hd
    · intro hnone hne
      simp only [level, hwait.isOpen] at hnone
      have hne : (a.resume reply).state.file.eFileLock ≠ .none := by
        simpa [level, setProcess, setRow, settle] using hne
      obtain ⟨⟨sharingShm, hcall⟩, htop, hcases⟩ := hfair hnone hne
      refine ⟨by simpa [setProcess, setRow, settle] using htop, .inr ?_⟩
      have hin := hfirst (by simp [hcall]) hnone
      simpa [setProcess, setRow] using hcases.resolve_left (not_not.mpr hin)

theorem stepCloseCheck_inv (h : s.Inv) (hstep : stepCloseCheck s p c = some s') :
    s'.Inv ∧ Grants s s' := by
  unfold stepCloseCheck at hstep
  cases hfile : (s.procs p).files c with
  | none => simp [hfile] at hstep
  | some file =>
    simp only [hfile, ite_none_right_eq_some, some.injEq] at hstep
    obtain ⟨⟨hactive, -, hclosing⟩, rfl⟩ := hstep
    have hinv := (h.procs p).closeCheck hfile (isNone_iff_eq_none.mp hactive) hclosing
    refine ⟨h.setProcess hinv, .of_level (fun _ hq => update_of_ne hq _ _) fun d hd => ?_⟩
    by_cases hlock : (s.procs p).inode.nLock = 0
    · simpa [level, setProcess, closeCheck, hlock] using hd
    · simp [level, setProcess, closeCheck, hlock, update_apply] at hd ⊢
      grind

theorem stepCloseFinish_inv (h : s.Inv) (hstep : stepCloseFinish s p = some s') :
    s'.Inv ∧ Grants s s' := by
  unfold stepCloseFinish at hstep
  cases hbig : (s.procs p).bigLock with
  | none => simp [hbig] at hstep
  | some c =>
    cases hfile : (s.procs p).files c with
    | none => simp [hbig, hfile] at hstep
    | some file =>
      simp only [hbig, hfile, ite_none_right_eq_some, some.injEq] at hstep
      obtain ⟨hactive, rfl⟩ := hstep
      have hinv := (h.procs p).closeFinish hfile hbig fun hzero =>
        isNone_iff_eq_none.mp (hactive hzero)
      refine ⟨h.set ?_ hinv, .of_level (fun _ hq => update_of_ne hq _ _) fun d hd => ?_⟩
      · unfold closeRow
        split
        · exact h.exclusive.close p
        · rw [update_eq_self]
          exact h.exclusive
      · simp only [level, setProcess, setRow, closeFinish, update_apply] at hd ⊢
        grind

theorem step_inv (h : s.Inv) (hlegal : Legal s op) (hstep : step s op = some s') :
    s'.Inv ∧ Grants s s' := by
  cases op with
  | openFile p conn excl rdonly reuse => exact stepOpen_inv h hlegal hstep
  | call p conn call => exact stepCall_inv h hlegal hstep
  | reply p reply => exact stepReply_inv h hlegal hstep
  | closeCheck p conn => exact stepCloseCheck_inv h hstep
  | closeFinish p => exact stepCloseFinish_inv h hstep

end Step

/-! ## Exclusion -/

/-- A connection that believes in EXCLUSIVE is the only one of its process with a lock. -/
theorem Good.eq_none_of_exclusive (h : Good wide inode held row) (hc : held c = .exclusive)
    (hd : d ≠ c) : held d = .none := by
  have hone : believers held ≤ 1 := by
    refine h.agreed.counted.trans (h.counters.alone ?_)
    rw [← h.agreed.write c (by rw [hc]; decide), hc]
  by_contra hne
  have hmem (e : Fin m) (he : held e ≠ .none) :
      e ∈ Finset.univ.filter fun e => .shared ≤ held e := by
    simp [FileLock.shared_le, he]
  exact hd (Finset.card_le_one.mp hone d (hmem d hne) c (hmem c (by rw [hc]; decide)))

theorem State.Inv.exclusive_alone {s : State n m} (h : s.Inv)
    (hne : (p, c) ≠ (q, d)) (hc : s.holds p c = .exclusive) : s.holds q d = .none := by
  obtain ⟨wide, hsound⟩ := (h.procs q).sound
  by_cases hpq : p = q
  · subst hpq
    exact hsound.good.eq_none_of_exclusive hc fun hd => hne (hd ▸ rfl)
  · have hwrite : OnSystem (s.locks p) .exclusive := hc ▸ h.onSystem p c
    have hnone := h.exclusive p q .shared hpq hwrite
    have htop : (s.procs q).inode.eFileLock = .none := by
      by_contra htop
      exact hsound.good.counters.system htop hnone
    exact FileLock.le_none.mp (htop ▸ hsound.good.agreed.below d)

/-- A connection with RESERVED or more has a write-lock on the SHARED range or the RESERVED byte. -/
theorem OnSystem.write (h : OnSystem row l) (hl : .reserved ≤ l) :
    row .shared = some .write ∨ row .shared ≠ none ∧ row .reserved = some .write := by
  revert h hl
  cases l <;> simp +contextual [OnSystem, show ¬ FileLock.reserved ≤ .none by decide,
    show ¬ FileLock.reserved ≤ .shared by decide]
  tauto

theorem State.Inv.reserved_unique {s : State n m} (h : s.Inv)
    (hc : .reserved ≤ s.holds p c) (hd : .reserved ≤ s.holds q d) : (p, c) = (q, d) := by
  by_cases hpq : p = q
  · subst hpq
    obtain ⟨wide, hsound⟩ := (h.procs p).sound
    have hlt : FileLock.shared < .reserved := by decide
    rw [hsound.good.agreed.unique c d (hlt.trans_le hc) (hlt.trans_le hd)]
  · rcases (h.onSystem p c).write hc with hp | ⟨hps, hpr⟩
    · have hnone := h.exclusive p q .shared hpq hp
      rcases (h.onSystem q d).write hd with hq | ⟨hqs, -⟩
      · simp [hnone] at hq
      · exact absurd hnone hqs
    · rcases (h.onSystem q d).write hd with hq | ⟨-, hqr⟩
      · exact absurd (h.exclusive q p .shared (Ne.symm hpq) hq) hps
      · have := h.exclusive p q .reserved hpq hpr
        simp [this] at hqr

/-- In every run: a connection that believes in EXCLUSIVE is the only one with a lock; no two
believe in RESERVED or more; none gets SHARED while another holds PENDING; and the system holds
every lock that a connection relies on. -/
theorem locks_exclude (ops : List (Op n m)) (s : State n m)
    (hlegal : Run.Along step Legal (.start n m) ops)
    (hrun : Run.exec step (.start n m) ops = some s) :
    (∀ p c q d, (p, c) ≠ (q, d) → s.holds p c = .exclusive → s.holds q d = .none) ∧
    (∀ p c q d, .reserved ≤ s.holds p c → .reserved ≤ s.holds q d → (p, c) = (q, d)) ∧
    (∀ op s', Legal s op → step s op = some s' →
      ∀ p c, s.level p c = .none → s'.level p c ≠ .none →
        ∀ q d, (p, c) ≠ (q, d) → s.holds q d ≠ .pending) ∧
    ∀ p c, OnSystem (s.locks p) (s.holds p c) := by
  have h : s.Inv :=
    Run.exec_invariant (fun _ _ _ hi hl hs => (step_inv hi hl hs).1) start_inv hlegal hrun
  exact ⟨fun _ _ _ _ => h.exclusive_alone, fun _ _ _ _ => h.reserved_unique,
    fun _ _ hl hs => (step_inv h hl hs).2, h.onSystem⟩

/-! ## Runs -/

/-- A connection asks for a lock, and the system grants what it asks for. -/
def lockRun (p conn : Fin 2) (eFileLock : FileLock) (replies : Nat) : List (Op 2 2) :=
  .call p conn (.lock eFileLock false) :: List.replicate replies (.reply p .ok)

def openRun (excl : Bool) : List (Op 2 2) :=
  [.openFile 0 0 excl false false, .openFile 0 1 false false false, .openFile 1 0 false false false,
    .openFile 1 1 false false false]

def State.beliefs (s : State 2 2) : List FileLock :=
  [s.holds 0 0, s.holds 0 1, s.holds 1 0, s.holds 1 1]

/-- Both connections of a process hold SHARED, one RESERVED; the other process fails to get
RESERVED. -/
def sharedRun : List (Op 2 2) :=
  openRun false ++ lockRun 0 0 .shared 3 ++ lockRun 0 1 .shared 0 ++ lockRun 0 1 .reserved 1 ++
    lockRun 1 0 .shared 3 ++ lockRun 1 0 .reserved 0 ++ [.reply 1 .conflict]

theorem locks_exclude_shared :
    ∃ s, Run.exec step (.start 2 2) sharedRun = some s ∧
      s.beliefs = [.shared, .reserved, .shared, .none] ∧
      ∀ p c q d, .reserved ≤ s.holds p c → .reserved ≤ s.holds q d → (p, c) = (q, d) := by
  have hlegal : Run.Along step Legal (.start 2 2) sharedRun := by decide +kernel
  have hview : (Run.exec step (.start 2 2) sharedRun).map beliefs =
      some [.shared, .reserved, .shared, .none] := by decide +kernel
  obtain ⟨s, hrun, hbeliefs⟩ := map_eq_some_iff.mp hview
  exact ⟨s, hrun, hbeliefs, (locks_exclude sharedRun s hlegal hrun).2.1⟩

/-- A connection gets SHARED between the test of `nLock` and the `close` in another's `unixClose` in
its process: the `close` drops its lock, and another process gets EXCLUSIVE. -/
def closeRun : List (Op 2 2) :=
  openRun false ++ [.call 0 0 .close, .closeCheck 0 0] ++ lockRun 0 1 .shared 3 ++
    [.closeFinish 0] ++ lockRun 1 0 .shared 3 ++ lockRun 1 0 .exclusive 1

/-- A connection goes from EXCLUSIVE to SHARED, and PENDING and RESERVED cannot be unlocked: it
believes in EXCLUSIVE, but the SHARED range is only read-locked. -/
def downgradeRun : List (Op 2 2) :=
  openRun false ++ lockRun 0 0 .shared 3 ++ lockRun 0 0 .exclusive 1 ++
    [.call 0 0 (.unlock .shared), .reply 0 .ok, .reply 0 (.failed .other)] ++ lockRun 1 0 .shared 3

/-- A read-write connection through `unix-excl` shares a process with an ordinary one, which
releases the lock of the whole process. -/
def mixedRun : List (Op 2 2) :=
  openRun true ++ lockRun 0 0 .shared 1 ++ [.call 0 0 (.unlock .none)] ++ lockRun 0 1 .shared 3 ++
    [.call 0 1 (.unlock .none), .reply 0 .ok] ++ lockRun 0 0 .shared 0 ++ lockRun 0 0 .reserved 0 ++
    lockRun 0 0 .exclusive 0 ++ lockRun 1 0 .shared 3

/-- A connection holds PENDING because another process has SHARED. -/
def pendingRun : List (Op 2 2) :=
  openRun false ++ lockRun 1 0 .shared 3 ++ lockRun 0 0 .shared 3 ++ lockRun 0 0 .reserved 1 ++
    lockRun 0 0 .exclusive 1 ++ [.reply 0 .conflict]

/-- Each step that `Legal` excludes breaks the exclusion: EXCLUSIVE beside SHARED in three runs, and
in the last SHARED is granted to a second connection of the other process while PENDING is held. -/
theorem not_locks_exclude :
    (Run.exec step (.start 2 2) closeRun).map beliefs =
      some [.none, .shared, .exclusive, .none] ∧
    (Run.exec step (.start 2 2) downgradeRun).map beliefs =
      some [.exclusive, .none, .shared, .none] ∧
    (Run.exec step (.start 2 2) mixedRun).map beliefs =
      some [.exclusive, .none, .shared, .none] ∧
    (Run.exec step (.start 2 2) pendingRun).map beliefs =
      some [.pending, .none, .shared, .none] ∧
    (Run.exec step (.start 2 2) (pendingRun ++ lockRun 1 1 .shared 0)).map beliefs =
      some [.pending, .none, .shared, .shared] := by
  decide +kernel

end SqlCipher.Unix
