import SqlCipher.Codec.Context
import SqlCipher.Library.Proc
import SqlCipher.Memory.PrivateHeap

/-!
# Starting up and shutting down

What the process holds for all connections: the static mutexes, the private heap, the mask that
shields keys and the registered providers. `sqlcipher_extra_init` sets this up step by step, and
when a step fails it tears down what was set up before. `sqlcipher_extra_shutdown` tears down
everything.

The default provider's record is on the private heap; an application can register others. To use a
record whose memory was freed is undefined. A provider acts on its state through its callbacks.

Not modelled: logging, the mutexes' own effect, `atexit` handlers and `SQLCIPHER_TEST`.
-/

namespace SqlCipher

open Proc ByteMemory

/-- The callbacks of a provider. They act on its state; contexts are told apart by a number, and `ω`
is what they meet outside. -/
structure Callbacks (σ ω : Type) where
  /-- The result code, and the value that is stored as the context. -/
  ctxInit : Nat → ω → σ → (ResultCode × Option Nat) × σ
  ctxFree : Nat → σ → σ
  random : ω → σ → ResultCode × σ

structure Region where
  addr : Nat
  size : Nat
  deriving DecidableEq, Repr

structure Process (σ : Type) where
  /-- `private_heap` (which is `NULL` if its address is 0), `private_heap_sz` and
  `private_heap_used`. -/
  heap : PrivateHeap
  live : List Region
  mutexes : Nat → Option Nat
  shieldMask : Option Nat
  providers : List Nat
  records : List Nat
  init : Bool
  initError : ResultCode
  shutdown : Bool
  state : σ
  serial : Nat

structure InitAnswers (ω : Type) where
  mutexAlloc : Nat → Option Nat
  /-- The answer of the ordinary allocator to a request for a heap of a given size. -/
  heapAlloc : Nat → Option Nat
  /-- The answer of the ordinary allocator, should the record not fit on the heap. -/
  providerAlloc : Option Nat
  /-- `SQLCIPHER_PROVIDER_SETUP` -/
  setup : ResultCode
  /-- The initialiser of the provider, if it has one. -/
  providerInit : ResultCode
  ctxInit : ω
  seed : ω
  maskAlloc : Option Nat
  mask : ω
  noise : Nat → UInt8

def mutexCount : Nat := 8

def heapSizeStep : Nat := 16384

def heapSizeDefault : Nat := 49152

def providerSz : Nat := 144

def shieldMaskSz : Nat := 32

variable {σ ω : Type}

def Process.start (m : Mem) (s : σ) : Process σ where
  heap := ⟨m, 0, heapSizeDefault, 0⟩
  live := []
  mutexes := fun _ => none
  shieldMask := none
  providers := []
  records := []
  init := false
  initError := .error
  shutdown := false
  state := s
  serial := 0

def Process.Allocated (l : Process σ) (ptr n : Nat) : Prop :=
  ∃ r ∈ l.live, r.addr ≤ ptr ∧ ptr + n ≤ r.addr + r.size

instance (l : Process σ) (ptr n : Nat) : Decidable (l.Allocated ptr n) :=
  inferInstanceAs (Decidable (∃ _ ∈ _, _))

abbrev ProcessM (σ : Type) := Proc (Process σ) ResultCode

def allocate (size : Nat) (answer : Option Nat) : ProcessM σ (Option Nat) := do
  modify fun l => { l with
    heap := internalMalloc l.heap size answer
    live := (answer.map fun ptr => ⟨ptr, size⟩).toList ++ l.live }
  return answer

/-- `sqlcipher_internal_free`, undefined for what the ordinary allocator did not hand out. -/
def internalFree (ptr size : Nat) (noise : Nat → UInt8) : ProcessM σ Unit := do
  let l ← get
  if ∃ r ∈ l.live, r.addr = ptr then
    modify fun l => { l with
      heap := { l.heap with mem := fill l.heap.mem ptr size noise }
      live := l.live.filter fun r => r.addr ≠ ptr
      records := l.records.filter fun q => ¬ (ptr ≤ q ∧ q < ptr + size) }
  else undefined

def mallocProvider (fallback : Option Nat) : ProcessM σ (Option Nat) := fun l =>
  (sqlcipherMalloc l.heap providerSz fallback).map fun r =>
    (.ok r.1, { l with
      heap := r.2
      live := ((r.1.filter fun ptr => ¬ (l.heap.base ≤ ptr ∧ ptr < l.heap.base + l.heap.sz)).map
        fun ptr => ⟨ptr, heapRoundup providerSz⟩).toList ++ l.live })

def freeProvider (ptr : Nat) (noise : Nat → UInt8) : ProcessM σ Unit := do
  let l ← get
  match findAlloc l.heap.mem ptr l.heap.sz 0 l.heap.base with
  | none => undefined
  | some none => internalFree ptr providerSz noise
  | some (some _) =>
    match sqlcipherFree l.heap ptr providerSz noise with
    | none => undefined
    | some h => modify fun l => { l with
      heap := h, records := l.records.filter fun q => q ≠ ptr }

/-- Free the record of a provider that was not registered, if there is one. -/
def freePending (noise : Nat → UInt8) : Option Nat → ProcessM σ Unit
  | none => pure ()
  | some ptr => freeProvider ptr noise

def freeHeap (noise : Nat → UInt8) : ProcessM σ Unit := do
  let l ← get
  when (l.heap.base ≠ 0) do
    internalFree l.heap.base l.heap.sz noise
    modify fun l => { l with heap.base := 0 }

def freeMask (noise : Nat → UInt8) : ProcessM σ Unit := do
  let l ← get
  match l.shieldMask with
  | none => pure ()
  | some ptr => do
    internalFree ptr shieldMaskSz noise
    modify fun l => { l with shieldMask := none }

/-- `sqlcipher_register_provider`, with the initialiser's result. The new record is looked for among
those registered. -/
def registerProvider (ptr : Nat) (initRc : ResultCode) : ProcessM σ Unit := do
  let l ← get
  if ptr = 0 ∨ l.providers.head? = some ptr then pure ()
  else if ¬ ∀ q ∈ l.providers, q ∈ l.records then undefined
  else if ptr ∈ l.providers then
    modify fun l => { l with providers := ptr :: l.providers.erase ptr }
  else do
    when (initRc ≠ .ok) (fail initRc)
    modify fun l => { l with providers := ptr :: l.providers }

/-- A call through `default_provider`. -/
def callProvider (f : σ → β × σ) : ProcessM σ β := do
  let l ← get
  match l.providers with
  | [] => undefined
  | q :: _ =>
    if q ∈ l.records then do
      modify fun l => { l with state := (f l.state).2 }
      return (f l.state).1
    else undefined

structure InitFrame (σ : Type) where
  process : Process σ
  provider : Option Nat
  providerCtx : Option Nat

abbrev InitM (σ : Type) := Proc (InitFrame σ) ResultCode

def onProcess (x : ProcessM σ β) : InitM σ β :=
  Proc.onPart InitFrame.process (fun l f => { f with process := l }) x

def requireOk (rc : ResultCode) : InitM σ Unit := when (rc ≠ .ok) (fail rc)

variable (cb : Callbacks σ ω) (ans : InitAnswers ω)

def allocMutex (i : Nat) : ProcessM σ Unit := do
  let l ← get
  if l.mutexes i = none then
    match ans.mutexAlloc i with
    | none => fail .nomem
    | some mutex => modify fun l => { l with mutexes := Function.update l.mutexes i (some mutex) }

/-- The loop that tries ever smaller heaps: the size it ends with, and the heap. -/
def tryHeapSizes : Nat → Nat → Option (Nat × Option Nat)
  | 0, _ => none
  | fuel + 1, sz =>
    if heapSizeStep ≤ sz then
      match ans.heapAlloc sz with
      | some base => some (sz, some base)
      | none => tryHeapSizes fuel (sz - heapSizeStep)
    else some (sz, none)

def allocHeap : ProcessM σ Unit := do
  let l ← get
  match tryHeapSizes ans (l.heap.sz + 1) l.heap.sz with
  | none => undefined
  | some (sz, none) => modify fun l => { l with heap.sz := sz }
  | some (sz, some base) => do
    modify fun l => { l with heap.sz := sz }
    let _ ← allocate sz (some base)
    modify fun l => { l with
      heap := { PrivateHeap.initial l.heap.mem base sz ans.noise with used := l.heap.used } }

def initProvider : InitM σ Unit := do
  match ← onProcess (mallocProvider ans.providerAlloc) with
  | none => fail .nomem
  | some ptr => do
    modify fun f => { f with provider := some ptr }
    requireOk ans.setup
    modify fun f => { f with process.records := ptr :: f.process.records }
    onProcess (registerProvider ptr ans.providerInit)
    modify fun f => { f with provider := none }

def initMask : InitM σ Unit := do
  match ← onProcess (allocate shieldMaskSz ans.maskAlloc) with
  | none => fail .nomem
  | some ptr => do
    modify fun f => { f with process.shieldMask := some ptr }
    requireOk (← onProcess (callProvider (cb.random ans.mask)))

def initSeed : InitM σ Unit := do
  let f ← get
  let ctx := f.process.serial
  modify fun f => { f with process.serial := ctx + 1 }
  let r ← onProcess (callProvider (cb.ctxInit ctx ans.ctxInit))
  modify fun f => { f with providerCtx := r.2 }
  requireOk r.1
  requireOk (← onProcess (callProvider (cb.random ans.seed)))
  let f ← get
  when (f.process.shieldMask = none) (initMask cb ans)
  onProcess (callProvider fun s => ((), cb.ctxFree ctx s))
  modify fun f => { f with providerCtx := none }

def initSteps : InitM σ Unit := do
  onProcess (forEach (allocMutex ans) (List.range mutexCount))
  let f ← get
  when (f.process.heap.base = 0) (onProcess (allocHeap ans))
  let f ← get
  when (f.process.heap.base = 0) (fail .nomem)
  when (f.process.providers = []) (initProvider ans)
  initSeed cb ans

def initTeardown : InitM σ Unit := do
  let f ← get
  onProcess (freePending ans.noise f.provider)
  onProcess (freeHeap ans.noise)
  onProcess (freeMask ans.noise)
  modify fun f => { f with process.mutexes := fun _ => none }
  when (f.providerCtx ≠ none)
    (onProcess (callProvider fun s => ((), cb.ctxFree (f.process.serial - 1) s)))

def extraInit : ProcessM σ Unit := fun l =>
  if l.init then some (.ok (), l)
  else
    (initSteps cb ans ⟨l, none, none⟩).bind fun
      | (.ok (), f) => some (.ok (), { f.process with init := true, shutdown := false })
      | (.error rc, f) => (initTeardown cb ans f).map fun r =>
        (.error rc, { r.2.process with initError := rc })

/-- `sqlcipher_extra_shutdown`. The providers have no shutdown function of their own here. -/
def extraShutdown (noise : Nat → UInt8) : ProcessM σ Unit := do
  let l ← get
  when (l.init ∧ ¬ l.shutdown) do
    freeMask noise
    -- The records are linked: each is read before it is freed.
    forEach (fun q => do
      let l ← get
      if q ∈ l.records then freeProvider q noise else undefined) l.providers
    modify fun l => { l with providers := [] }
    freeHeap noise
    modify fun l => { l with mutexes := fun _ => none }
  modify fun l => { l with init := false, initError := .error, shutdown := true }

end SqlCipher
