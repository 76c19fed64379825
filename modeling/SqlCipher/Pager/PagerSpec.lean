import SqlCipher.Pager.Pager

/-!
# Rules for the operations of the pager

The weakest preconditions of the requests and small operations that the procedures of the pager
are built from, in the order of `Pager.lean`. A procedure is then run by `simp` down to its calls.
-/

namespace SqlCipher

open Buffer UndoJournal Proc Function

variable {p : Provider} {g : Globals} {w : World} {pg : Pager} {n : Nat} {α : Type}
  {Q : Unit → Pager → Prop} {E : ResultCode → Pager → Prop}

def Pager.tick (pg : Pager) : Pager := { pg with clock := pg.clock + 1 }

def Pager.emitted (pg : Pager) (ev : Event Nat Bytes) (d : Disk Nat Bytes) : Pager :=
  { pg with disk := d, log := pg.log ++ [ev] }

def Pager.withPage (pg : Pager) (n : Nat) (page : Option CachedPage) : Pager :=
  { pg with cache := update pg.cache n page }

def Pager.withFileVers (pg : Pager) (vers : Bytes) : Pager := { pg with dbFileVers := vers }

def Pager.called (pg : Pager) (c : CodecCtx) : Pager := { pg.tick with codec := c }

def Pager.failed (pg : Pager) (rc : ResultCode) : Pager :=
  if rc = .full ∨ rc = .ioerr then { pg with errCode := rc, state := .error } else pg

@[simp] theorem Pager.withPage_self (pg : Pager) (n : Nat) (page : Option CachedPage) :
    (pg.withPage n page).cache n = page := update_self ..

theorem Pager.withPage_of_ne (h : m ≠ n) (pg : Pager) (page : Option CachedPage) :
    (pg.withPage n page).cache m = pg.cache m := update_of_ne h ..

@[simp] theorem Pager.withPage_withPage (pg : Pager) (n : Nat) (page page' : Option CachedPage) :
    (pg.withPage n page).withPage n page' = pg.withPage n page' := by
  simp [Pager.withPage]

theorem Pager.grown_of_le (h : n ≤ pg.dbSize) : pg.grown n = pg := by
  simp [Pager.grown, Nat.max_eq_left h]

structure Outcome.Fine (o : Outcome) : Prop where
  env : o.env.Fine
  rc : o.rc = .ok

@[simp] theorem wp_ask {Q : Outcome → Pager → Prop} :
    wp (ask w) Q E pg ↔ Q (w pg.clock) pg.tick := Iff.rfl

@[simp] theorem wp_require :
    wp (require c rc) Q E pg ↔ (c = true → Q () pg) ∧ (c = false → E rc pg) := by
  cases c <;> simp [require]

@[simp] theorem wp_request :
    wp (request w) Q E pg ↔ ((w pg.clock).rc = .ok → Q () pg.tick) ∧
      ((w pg.clock).rc ≠ .ok → E (w pg.clock).rc pg.tick) := by
  simp [request]

@[simp] theorem wp_emit :
    wp (emit ev) Q E pg ↔ ∃ d, pg.disk.step ev = some d ∧ Q () (pg.emitted ev d) := by
  unfold wp wpOr emit
  cases pg.disk.step ev <;> simp [Pager.emitted]

@[simp] theorem wp_setPage : wp (setPage n page) Q E pg ↔ Q () (pg.withPage n page) := Iff.rfl

@[simp] theorem wp_mapCache :
    wp (mapCache f) Q E pg ↔ Q () { pg with cache := fun n => (pg.cache n).map f } := Iff.rfl

@[simp] theorem wp_setState :
    wp (setState state) Q E pg ↔ Q () { pg with state := state } := Iff.rfl

@[simp] theorem wp_lookup {Q : CachedPage → Pager → Prop} :
    wp (lookup n) Q E pg ↔ ∃ page, pg.cache n = some page ∧ Q page pg := by
  simp only [lookup, wp_bind, wp_get]
  cases pg.cache n <;> simp

@[simp] theorem wp_noteFileVers : wp (noteFileVers n vers) Q E pg ↔
      Q () (pg.withFileVers (if n = 1 then vers else pg.dbFileVers)) := Iff.rfl

theorem wp_xCodec {Q : Option Bytes → Pager → Prop}
    (hlen : data.length = pg.codec.pageSz)
    (hdef : ∃ r, sqlite3Codec p g ((w pg.clock).env.onFile (pg.disk.file 1)) pg.codec data
      (UInt32.ofNat n) mode = some r)
    (h : ∀ r, sqlite3Codec p g ((w pg.clock).env.onFile (pg.disk.file 1)) pg.codec data
      (UInt32.ofNat n) mode = some r → Q r.out (pg.called r.ctx)) :
    wp (xCodec p g w data n mode) Q E pg := by
  obtain ⟨r, hr⟩ := hdef
  have hlen' : data.length = pg.tick.codec.pageSz := hlen
  simp only [xCodec, wp_bind, wp_ask, wp_get, wp_ite, ne_eq, hlen', not_true_eq_false,
    false_imp_iff,
    true_and, not_false_eq_true, true_imp_iff]
  have heq : sqlite3Codec p g ((w pg.clock).env.onFile (pg.tick.disk.file 1)) pg.tick.codec data
      (UInt32.ofNat n) mode = some r := hr
  rw [heq]
  exact h r hr

theorem wp_codecOrNomem {Q : Bytes → Pager → Prop}
    (h : wp (xCodec p g w data n mode)
      (fun out pg' => (out = none → E .nomem pg') ∧ ∀ img, out = some img → Q img pg') E pg) :
    wp (codecOrNomem p g w data n mode) Q E pg := by
  refine .seq h fun out pg' hout => ?_
  cases out with
  | none => exact hout.1 rfl
  | some img => exact hout.2 img rfl

/-- A failure is recorded if it is persistent, and passed on. -/
theorem wp_pagerError : wp (pagerError x) Q E pg ↔
    wp x Q (fun rc pg' => E rc (pg'.failed rc)) pg := by
  simp only [pagerError, wp_bind, wp_attempt]
  rfl

@[simp] theorem length_put4byte (v : UInt32) : (put4byte v).length = 4 := rfl

section

variable {vers vers' P P' : Bytes} {u : Nat}

theorem length_writeChangecounter (h : 100 ≤ P.length) :
    (writeChangecounter vers P).length = P.length := by
  unfold writeChangecounter
  grind [length_overwrite, length_put4byte]

theorem getElem?_writeChangecounter (h : 100 ≤ P.length) (i : Nat) :
    (writeChangecounter vers P)[i]? =
      if 24 ≤ i ∧ i < 28 then (put4byte (get4byte vers + 1))[i - 24]?
      else if 92 ≤ i ∧ i < 96 then (put4byte (get4byte vers + 1))[i - 92]?
      else if 96 ≤ i ∧ i < 100 then (put4byte sqliteVersionNumber)[i - 96]?
      else P[i]? := by
  unfold writeChangecounter
  have h₁ : (overwrite P 24 (put4byte (get4byte vers + 1))).length = P.length :=
    length_overwrite (by rw [length_put4byte]; omega)
  have h₂ : (overwrite (overwrite P 24 (put4byte (get4byte vers + 1))) 92
      (put4byte (get4byte vers + 1))).length = P.length :=
    (length_overwrite (by rw [length_put4byte, h₁]; omega)).trans h₁
  rw [getElem?_overwrite (by rw [length_put4byte]; omega),
    getElem?_overwrite (by rw [length_put4byte]; omega),
    getElem?_overwrite (by rw [length_put4byte]; omega)]
  grind [length_put4byte]

theorem writeChangecounter_twice (h : 100 ≤ P.length) :
    writeChangecounter vers (writeChangecounter vers' P) = writeChangecounter vers P := by
  apply List.ext_getElem?
  intro i
  have h' : 100 ≤ (writeChangecounter vers' P).length := (length_writeChangecounter h).symm ▸ h
  rw [getElem?_writeChangecounter h', getElem?_writeChangecounter h, getElem?_writeChangecounter h]
  grind

theorem writeChangecounter_congr (h : 100 ≤ P.length) (h' : 100 ≤ P'.length)
    (heq : slice P 0 u = slice P' 0 u) :
    slice (writeChangecounter vers P) 0 u = slice (writeChangecounter vers P') 0 u := by
  apply List.ext_getElem?
  intro i
  have hi := congrArg (fun bs => bs[i]?) heq
  simp only [getElem?_slice, getElem?_writeChangecounter h, getElem?_writeChangecounter h'] at hi ⊢
  grind

end

end SqlCipher
