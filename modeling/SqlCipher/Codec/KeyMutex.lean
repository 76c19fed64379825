import SqlCipher.Codec.Context
import SqlCipher.Library.Proc

/-!
# The mutexes of the key interfaces

`sqlcipherCodecAttach` and `sqlite3_rekey_v2` work under the mutex of the connection, and
`sqlcipherCodecAttach` and `sqlite3Codec` take the mutex for shared caches if the b-tree can be
shared. The model follows every path through these functions. What they call answers as the world
likes, and may call the codec on the way.

A thread that leaves a mutex which it does not hold has no defined effect.
-/

namespace SqlCipher.KeyMutex

open Proc

inductive Mutex where
  /-- `db->mutex` -/
  | database
  /-- `SQLCIPHER_MUTEX_SHAREDCACHE` -/
  | sharedCache
  deriving DecidableEq, Repr

inductive Operation where
  | setError | memset | keyDerive | pageCipher | getKdfSalt
  | ctxFree | pagerSetCodec | ctxInit | failBtree | setPageSize | secureDelete | setAutoVacuum
  | setPassKey | beginTrans | pagerPagecount | pagerGet (pgno : Nat) | pagerWrite (pgno : Nat)
  | pagerUnref (pgno : Nat) | commit | keyCopy | rollback
  deriving DecidableEq, Repr

/-- The state of a thread: how often it holds each mutex, and how many calls it has made. -/
structure Thread where
  depth : Mutex → Nat
  calls : Nat

abbrev Act (α : Type) := Proc Thread Empty α

def enter (m : Mutex) : Act Unit :=
  modify fun s => { s with depth := Function.update s.depth m (s.depth m + 1) }

def leave (m : Mutex) : Act Unit := do
  let s ← get
  if s.depth m = 0 then undefined
  else modify fun s => { s with depth := Function.update s.depth m (s.depth m - 1) }

inductive Mode where
  | read | write | journal | unsupported
  deriving DecidableEq, Repr

structure CodecCall where
  sharable : Bool
  error : Bool
  plaintextHeaderSz : Int
  recovery : Bool
  pgno : Nat
  mode : Mode
  deriving DecidableEq, Repr

inductive CodecOut where
  | null | data | buffer
  deriving DecidableEq, Repr

structure World where
  init : Bool
  initError : ResultCode
  allocated : Bool
  answer : Nat → Operation → ResultCode
  codecCalls : Nat → Operation → List CodecCall
  pageCount : Nat
  sjPgno : Nat → Bool
  fileOpen : Bool

section Interfaces

variable (w : World)

def call (k : Operation) : Act ResultCode := do
  let s ← get
  modify fun s => { s with calls := s.calls + 1 }
  pure (w.answer s.calls k)

def salt (pgno : Nat) : Act ResultCode := if pgno = 1 then call w .getKdfSalt else pure .ok

def codecEncrypt (pgno : Nat) : Act CodecOut := do
  let rc ← salt w pgno
  if rc ≠ .ok then
    let _ ← call w .setError
    pure .null
  else
    let rc ← call w .pageCipher
    if rc ≠ .ok then
      let _ ← call w .memset
      let _ ← call w .setError
      pure .null
    else pure .buffer

def codecBody (c : CodecCall) : Act CodecOut := do
  if c.error then
    let _ ← call w .setError
    if c.mode = .read then
      let _ ← call w .memset
      pure .data
    else pure .null
  else
    let rc ← call w .keyDerive
    if rc ≠ .ok then
      let _ ← call w .setError
      pure .null
    else if c.plaintextHeaderSz < 0 then
      let _ ← call w .setError
      pure .null
    else
      match c.mode with
      | .read =>
        let rc ← call w .pageCipher
        if rc ≠ .ok then
          let _ ← call w .memset
          when (c.recovery = false) (do let _ ← call w .setError)
        pure .data
      | .unsupported =>
        let _ ← call w .setError
        pure .data
      | _ => codecEncrypt w c.pgno

def codec (c : CodecCall) : Act CodecOut := do
  let mutex := c.sharable && w.allocated
  when (mutex = true) (enter .sharedCache)
  let out ← codecBody w c
  when (mutex = true) (leave .sharedCache)
  pure out

def operation (k : Operation) : Act ResultCode := do
  let s ← get
  modify fun s => { s with calls := s.calls + 1 }
  forEach (fun c => do let _ ← codec w c) (w.codecCalls s.calls k)
  pure (w.answer s.calls k)

structure Btree where
  sharable : Bool
  codec : Option Bool
  deriving DecidableEq, Repr

structure Db where
  name : String
  btree : Option Btree
  deriving DecidableEq, Repr

abbrev Connection := List Db

def sameName (a b : String) : Bool := a.map Char.toLower = b.map Char.toLower

variable (db : Option Connection) (zDb : Option String)

def findDbIndex : Int :=
  match db with
  | none => -1
  | some dbs =>
    match zDb with
    | none => 0
    | some name =>
      if name = "" then 0
      else match dbs.findIdx? fun d => sameName d.name name with
        | some i => i
        | none => -1

def dbAt (dbs : Connection) (i : Int) : Option Db :=
  if i < 0 then none else dbs[i.toNat]?

def setBtreeToCodecPagesize : Act ResultCode := do
  enter .database
  let rc ← call w .setPageSize
  leave .database
  pure rc

def attachBody (bt : Btree) : Act ResultCode := do
  if bt.codec = some true then pure .ok
  else if bt.codec.isSome && bt.sharable then pure .ok
  else
    when (bt.codec.isSome = true) (do
      let _ ← call w .ctxFree
      let _ ← call w .pagerSetCodec)
    let rc ← call w .ctxInit
    if rc ≠ .ok then
      let _ ← call w .failBtree
      pure rc
    else
      let _ ← call w .pagerSetCodec
      let _ ← setBtreeToCodecPagesize w
      let _ ← call w .secureDelete
      when (w.fileOpen = true) (do let _ ← call w .setAutoVacuum)
      pure .ok

def codecAttach (nDb : Int) (zKey : Option (List UInt8)) (nKey : Int) :
    Act ResultCode := do
  if w.init = false then pure w.initError
  else if ¬(nKey > 0 ∧ zKey.isSome) then pure .misuse
  else match db.bind fun dbs => (dbAt dbs nDb).bind (·.btree) with
    | none => pure .misuse
    | some bt =>
      let extra := bt.sharable && w.allocated
      enter .database
      when (extra = true) (enter .sharedCache)
      let rc ← attachBody w bt
      when (extra = true) (leave .sharedCache)
      leave .database
      pure rc

variable (zKey : Option (List UInt8)) (nKey : Int)

def keyLength : Int :=
  match zKey with
  | some s => if nKey < 0 then (s.takeWhile (· ≠ 0)).length else nKey
  | none => nKey

def keyV2
    : Act ResultCode :=
  codecAttach w db (findDbIndex db zDb) zKey (keyLength zKey nKey)

/-- The pages of a rekey from `pgno` on, up to the first failure. -/
def rekeyPages (pgno : Nat) : Nat → Act ResultCode
  | 0 => pure .ok
  | n + 1 => do
    if w.sjPgno pgno then rekeyPages (pgno + 1) n
    else
      let rc ← operation w (.pagerGet pgno)
      if rc ≠ .ok then pure rc
      else
        let rc ← operation w (.pagerWrite pgno)
        if rc ≠ .ok then pure rc
        else
          let _ ← operation w (.pagerUnref pgno)
          rekeyPages (pgno + 1) n

def rekeyBody (dbs : Connection) (zDb : Option String) : Act ResultCode := do
  match dbAt dbs (findDbIndex (some dbs) zDb) with
  | none => pure .misuse
  | some d =>
    match d.btree with
    | none => pure .error
    | some bt =>
      if bt.codec.isNone then pure .misuse
      else
        let _ ← operation w .setPassKey
        let rc ← operation w .beginTrans
        if rc ≠ .ok then pure rc
        else
          let _ ← operation w .pagerPagecount
          let rc ← rekeyPages w 1 w.pageCount
          if rc = .ok then
            let _ ← operation w .commit
            let _ ← operation w .keyCopy
            pure rc
          else
            let _ ← operation w .rollback
            pure rc

/-- `sqlite3_rekey_v2`. All paths behind the first check leave the mutex of the connection, if there
is one. -/
def rekeyV2
    : Act ResultCode := do
  if w.init = false then pure w.initError
  else
    let rc ← match db with
      | some dbs =>
        if zKey.isSome ∧ keyLength zKey nKey > 0 then do
          enter .database
          rekeyBody w dbs zDb
        else pure .misuse
      | none => pure .misuse
    when (db.isSome = true) (leave .database)
    pure rc

end Interfaces

/-- The procedure has a defined effect, and holds the mutexes as often as before. -/
def Balanced {α : Type} (x : Act α) : Prop :=
  ∀ s, wp x (fun _ s' => s'.depth = s.depth) (fun _ _ => False) s

namespace Balanced

variable {α β : Type} {x : Act α} {f : α → Act β} {m : Mutex}

theorem pure (a : α) : Balanced (Pure.pure a : Act α) := fun _ => rfl

theorem bind (hx : Balanced x) (hf : ∀ a, Balanced (f a)) : Balanced (x >>= f) := by
  intro s
  refine .seq (hx s) fun a s₁ h₁ => ?_
  exact .post (hf a s₁) fun _ s₂ h₂ => h₂.trans h₁

theorem ite [Decidable c] (hx : Balanced x) (hy : Balanced y) : Balanced (if c then x else y) := by
  split
  · exact hx
  · exact hy

theorem when [Decidable c] {x : Act Unit} (hx : Balanced x) :
    Balanced (Proc.when c x) := ite hx (pure ())

theorem forEach {f : β → Act Unit} (h : ∀ b, Balanced (f b)) (bs : List β) :
    Balanced (Proc.forEach f bs) := by
  induction bs with
  | nil => exact pure ()
  | cons b bs ih => exact bind (h b) fun _ => ih

/-- A mutex that is entered before and left after a balanced procedure. -/
theorem bracket (hx : Balanced x) : Balanced (do
    enter m
    let a ← x
    leave m
    Pure.pure a) := by
  intro s
  refine .write (.seq (hx _) fun a s₁ h₁ => ?_)
  refine .bind (.read (.ite ⟨fun h => ?_, fun _ => ?_⟩))
  · simp [h₁] at h
  · refine .modify ?_
    simp [h₁]

/-- The same for a mutex that only some calls have. -/
theorem bracketWhen (hx : Balanced x) (c : Bool) : Balanced (do
    Proc.when (c = true) (enter m)
    let a ← x
    Proc.when (c = true) (leave m)
    Pure.pure a) := by
  cases c with
  | false => exact bind (pure ()) fun _ => bind hx fun a => bind (pure ()) fun _ => pure a
  | true => exact bracket hx

end Balanced

section Spec

variable (w : World)

theorem call_balanced (k : Operation) : Balanced (call w k) := fun _ => rfl

theorem codecEncrypt_balanced (pgno : Nat) : Balanced (codecEncrypt w pgno) := by
  have hcall := call_balanced w
  refine .bind (.ite (hcall _) (.pure _)) fun _ => .ite ?_ (.bind (hcall _) fun _ => .ite ?_ ?_)
  · exact .bind (hcall _) fun _ => .pure _
  · exact .bind (hcall _) fun _ => .bind (hcall _) fun _ => .pure _
  · exact .pure _

theorem codecBody_balanced (c : CodecCall) : Balanced (codecBody w c) := by
  have hcall := call_balanced w
  -- an error of the codec is noted, and the answer is already known
  have hnote : ∀ k out, Balanced (do let _ ← call w k; pure out : Act CodecOut) :=
    fun k out => .bind (hcall k) fun _ => .pure out
  refine .ite (.bind (hcall _) fun _ => ?_) ?_
  · exact .ite (hnote _ _) (.pure _)
  refine .bind (hcall _) fun _ => .ite (hnote _ _) (.ite (hnote _ _) ?_)
  cases c.mode with
  | read =>
    refine .bind (hcall _) fun rc => ?_
    by_cases h : rc ≠ .ok
    · rw [if_pos h]
      refine .bind (hcall _) fun _ => .bind (.when ?_) fun _ => .pure _
      exact .bind (hcall _) fun _ => .pure ()
    · rw [if_neg h]
      exact .pure _
  | write => exact codecEncrypt_balanced w _
  | journal => exact codecEncrypt_balanced w _
  | unsupported => exact hnote _ _

theorem codec_balanced (c : CodecCall) : Balanced (codec w c) :=
  .bracketWhen (codecBody_balanced w c) _

theorem operation_balanced (k : Operation) : Balanced (operation w k) := by
  intro s
  refine .read (.write ?_)
  have hcodec : ∀ c, Balanced (do let _ ← codec w c : Act Unit) :=
    fun c => .bind (codec_balanced w c) fun _ => .pure ()
  exact Balanced.bind (.forEach hcodec _) (fun _ => .pure (w.answer s.calls k)) _

theorem setBtreeToCodecPagesize_balanced : Balanced (setBtreeToCodecPagesize w) :=
  .bracket (call_balanced w _)

theorem attachBody_balanced (bt : Btree) : Balanced (attachBody w bt) := by
  have hcall := call_balanced w
  refine .ite (.pure _) (.ite (.pure _) (.bind ?_ fun _ => .bind (hcall _) fun rc => ?_))
  · exact .when (.bind (hcall _) fun _ => .bind (hcall _) fun _ => .pure _)
  · refine .ite (.bind (hcall _) fun _ => .pure _) (.bind (hcall _) fun _ => ?_)
    refine .bind (setBtreeToCodecPagesize_balanced w) fun _ => .bind (hcall _) fun _ => ?_
    exact .bind (.when (.bind (hcall _) fun _ => .pure _)) fun _ => .pure _

theorem codecAttach_balanced (db : Option Connection) (nDb : Int) (zKey : Option (List UInt8))
    (nKey : Int) : Balanced (codecAttach w db nDb zKey nKey) := by
  refine .ite (.pure _) (.ite (.pure _) ?_)
  cases db.bind fun dbs => (dbAt dbs nDb).bind (·.btree) with
  | none => exact .pure _
  | some bt =>
    have hinner := Balanced.bracketWhen (m := .sharedCache) (attachBody_balanced w bt)
      (bt.sharable && w.allocated)
    have := lawfulMonad (σ := Thread) (ε := Empty)
    simpa only [bind_assoc, pure_bind] using Balanced.bracket (m := .database) hinner

theorem rekeyPages_balanced (pgno n : Nat) : Balanced (rekeyPages w pgno n) := by
  have hop := operation_balanced w
  induction n generalizing pgno with
  | zero => exact .pure _
  | succ n ih =>
    refine .ite (ih _) (.bind (hop _) fun _ => .ite (.pure _) ?_)
    exact .bind (hop _) fun _ => .ite (.pure _) (.bind (hop _) fun _ => ih _)

theorem rekeyBody_balanced (dbs : Connection) (zDb : Option String) :
    Balanced (rekeyBody w dbs zDb) := by
  have hop := operation_balanced w
  unfold rekeyBody
  cases dbAt dbs (findDbIndex (some dbs) zDb) with
  | none => exact .pure _
  | some d =>
    cases hbt : d.btree with
    | none => simpa only [hbt] using Balanced.pure _
    | some bt =>
      simp only [hbt]
      refine .ite (.pure _) (.bind (hop _) fun _ => .bind (hop _) fun _ => .ite (.pure _) ?_)
      refine .bind (hop _) fun _ => .bind (rekeyPages_balanced w _ _) fun _ => .ite ?_ ?_
      · exact .bind (hop _) fun _ => .bind (hop _) fun _ => .pure _
      · exact .bind (hop _) fun _ => .pure _

theorem rekeyV2_balanced {db : Option Connection} {zKey : Option (List UInt8)} {nKey : Int}
    (zDb : Option String)
    (h : w.init = true → db.isSome = true → zKey.isSome = true ∧ 0 < keyLength zKey nKey) :
    Balanced (rekeyV2 w db zDb zKey nKey) := by
  unfold rekeyV2
  by_cases hinit : w.init = false
  · exact (if_pos hinit) ▸ Balanced.pure _
  rw [if_neg hinit]
  cases db with
  | none => exact .bind (.pure _) fun _ => .bind (.pure _) fun _ => .pure _
  | some dbs =>
    have hkey := h (by simpa using hinit) rfl
    simp only [gt_iff_lt, hkey, and_self, if_true]
    exact .bracket (rekeyBody_balanced w dbs zDb)

/-- Without a key the rekey leaves the mutex of a connection that it has not entered. -/
theorem rekeyV2_of_no_key {zKey : Option (List UInt8)} {nKey : Int} (zDb : Option String)
    (hinit : w.init = true) (hkey : ¬(zKey.isSome = true ∧ 0 < keyLength zKey nKey)) :
    rekeyV2 w (some dbs) zDb zKey nKey = (do leave .database; pure .misuse) := by
  have := lawfulMonad (σ := Thread) (ε := Empty)
  simp [rekeyV2, hinit, hkey, Proc.when]

end Spec

/-- The key interfaces are balanced for all arguments and answers, and a rekey is if and only if it
has a key. -/
theorem keyInterfaces_balanced (w : World) (db : Option Connection) (zDb : Option String)
    (nDb : Int) (zKey : Option (List UInt8)) (nKey : Int) (c : CodecCall) :
    Balanced (keyV2 w db zDb zKey nKey) ∧ Balanced (codecAttach w db nDb zKey nKey) ∧
      Balanced (codec w c) ∧
      (Balanced (rekeyV2 w db zDb zKey nKey) ↔
        (w.init = true → db.isSome = true → zKey.isSome = true ∧ 0 < keyLength zKey nKey)) := by
  refine ⟨codecAttach_balanced w _ _ _ _, codecAttach_balanced w _ _ _ _, codec_balanced w c,
    fun hbal hinit hdb => ?_, rekeyV2_balanced w zDb⟩
  obtain ⟨dbs, rfl⟩ := Option.isSome_iff_exists.mp hdb
  by_contra hkey
  rw [rekeyV2_of_no_key w zDb hinit hkey] at hbal
  exact hbal ⟨fun _ => 0, 0⟩

def calm : World where
  init := true
  initError := .ok
  allocated := true
  answer _ _ := .ok
  codecCalls _ _ := []
  pageCount := 1
  sjPgno _ := false
  fileOpen := true

/-- A rekey with an empty key is undefined for a thread without the mutex, and takes it from a
thread that holds it once. -/
theorem not_rekeyV2_balanced :
    rekeyV2 calm (some [⟨"main", some ⟨false, some false⟩⟩]) none
      (some []) 0 ⟨fun _ => 0, 0⟩ = none ∧
      (rekeyV2 calm (some [⟨"main", some ⟨false, some false⟩⟩]) none (some []) 0
        ⟨fun _ => 1, 0⟩).map (fun r => r.2.depth .database) = some 0 :=
  ⟨rfl, rfl⟩

end SqlCipher.KeyMutex
