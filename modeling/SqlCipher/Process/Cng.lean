import SqlCipher.Library.Run
import SqlCipher.Process.Library

/-!
# The CNG provider and its contexts

The CNG provider counts its contexts: the first one loads `bcrypt.dll` and the last one unloads it.
`sqlcipher_codec_ctx_init` makes a context in a number of steps, each of which may fail, and
`sqlcipher_codec_ctx_free` takes it down again, concurrently with others. `sqlcipher_extra_init`
runs as a whole: it is serialised, and there are no contexts before it has succeeded.
-/

namespace SqlCipher

open Proc

def pfnCount : Nat := 14

structure Cng where
  initCount : Nat
  bcryptDll : Option Nat
  pfn : Nat → Option Nat
  /-- The contexts whose `ctx_init` succeeded and whose `ctx_free` has not run. -/
  active : List Nat

structure CngAnswer where
  loadLibrary : Option Nat
  getProcAddress : Nat → Option Nat
  genRandom : Bool

/-- `sqlcipher_cng_activate`, with or without `SQLCIPHER_CRYPTO_CNG_DYNAMIC`. -/
def Cng.activate (dynamic : Bool) (w : CngAnswer) (c : Cng) : ResultCode × Cng :=
  if dynamic = true ∧ c.initCount = 0 then
    match w.loadLibrary with
    | none => (.error, { c with bcryptDll := none })
    | some dll =>
      if ∃ i < pfnCount, w.getProcAddress i = none then
        (.error, { c with bcryptDll := none, pfn := w.getProcAddress })
      else
        (.ok, { c with
          bcryptDll := some dll
          pfn := w.getProcAddress
          initCount := (c.initCount + 1) % 2 ^ 32 })
  else (.ok, { c with initCount := (c.initCount + 1) % 2 ^ 32 })

def Cng.deactivate (dynamic : Bool) (c : Cng) : Cng :=
  let c := { c with initCount := (c.initCount + (2 ^ 32 - 1)) % 2 ^ 32 }
  if dynamic = true ∧ c.initCount = 0 ∧ c.bcryptDll ≠ none then
    { c with bcryptDll := none, pfn := fun _ => none }
  else c

def Cng.callbacks (dynamic : Bool) : Callbacks Cng CngAnswer where
  ctxInit ctx w c :=
    let r := c.activate dynamic w
    ((r.1, none), { r.2 with active := if r.1 = .ok then ctx :: c.active else c.active })
  ctxFree ctx c := { c.deactivate dynamic with active := c.active.erase ctx }
  random w c := (if w.genRandom then .ok else .error, c)

def Cng.start : Cng := ⟨0, none, fun _ => none, []⟩

/-- The steps of `sqlcipher_codec_ctx_init` after the allocation of the context. -/
inductive CodecStep where
  | kdfSalt | hmacKdfSalt | ctxInit | pagesize | kdfIter | fastKdfIter | hmacAlgorithm | useHmac
  | kdfAlgorithm | plaintextHeaderSize | readCtx | writeCtx | pass | copy
  deriving DecidableEq, Repr

def codecSteps : List CodecStep :=
  [.kdfSalt, .hmacKdfSalt, .ctxInit, .pagesize, .kdfIter, .fastKdfIter, .hmacAlgorithm, .useHmac,
    .kdfAlgorithm, .plaintextHeaderSize, .readCtx, .writeCtx, .pass, .copy]

/-- A codec context on its way, or attached to a pager when nothing remains to be done. -/
structure CodecTask where
  id : Nat
  provider : Option Nat
  rest : List CodecStep
  failed : Bool
  deriving DecidableEq, Repr

variable {σ ω : Type}

variable (cb : Callbacks σ ω)

def CodecTask.free (t : CodecTask) : ProcessM σ Unit := do
  let l ← get
  match t.provider with
  | none => pure ()
  | some q =>
    if q ∈ l.records then modify fun l => { l with state := cb.ctxFree t.id l.state }
    else undefined

/-- The next step of `sqlcipher_codec_ctx_init`, with its result and what the provider meets. A
failure frees the context. -/
def CodecTask.run (t : CodecTask) (rc : ResultCode) (w : ω) : ProcessM σ (Option CodecTask) := do
  if t.failed then
    t.free cb
    return none
  else
    match t.rest with
    | [] => return some t
    | step :: rest =>
      if step = .ctxInit then
        -- The context uses the provider that is the default now.
        let l ← get
        let t := { t with provider := l.providers.head? }
        let r ← callProvider (cb.ctxInit t.id w)
        if r.1 = .ok then return some { t with rest := rest }
        else return some { t with failed := true }
      else if rc = .ok then return some { t with rest := rest }
      else return some { t with failed := true }

structure CngSession where
  process : Process Cng
  tasks : List CodecTask

inductive CngOp where
  | init (ans : InitAnswers CngAnswer)
  /-- A connection is keyed: a call of `sqlcipher_codec_ctx_init`, which can allocate the context.
  -/
  | create
  | run (t : CodecTask) (rc : ResultCode) (w : CngAnswer)
  | free (t : CodecTask)

variable (dynamic : Bool)

def CngSession.step (s : CngSession) : CngOp → Option CngSession
  | .init ans => (extraInit (Cng.callbacks dynamic) ans s.process).map
      fun r => { s with process := r.2 }
  | .create =>
    -- Connections are refused before the library is initialised.
    if s.process.init then
      some {
        process := { s.process with serial := s.process.serial + 1 }
        tasks := ⟨s.process.serial, none, codecSteps, false⟩ :: s.tasks }
    else some s
  | .run t rc w =>
    if t ∈ s.tasks then
      (t.run (Cng.callbacks dynamic) rc w s.process).bind fun
        | (.ok t', l) => some { process := l, tasks := t'.toList ++ s.tasks.erase t }
        | (.error _, _) => none
    else none
  | .free t =>
    if t ∈ s.tasks ∧ t.rest = [] ∧ t.failed = false then
      (t.free (Cng.callbacks dynamic) s.process).map fun r =>
        { process := r.2, tasks := s.tasks.erase t }
    else none

def CngSession.start (m : ByteMemory.Mem) : CngSession := ⟨.start m Cng.start, []⟩

end SqlCipher
