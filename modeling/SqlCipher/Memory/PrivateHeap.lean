import SqlCipher.Library.ByteMemory
import SqlCipher.Library.Run

/-!
# The private heap

`sqlcipher_malloc` and `sqlcipher_free` keep key material on a heap of their own: blocks, each a
header followed by the bytes it hands out, linked in the order of their addresses. Allocation splits
the first free block that is large enough; freeing merges a block with its free neighbours. What
does not fit is left to the ordinary allocator, and `sqlcipher_free` tells the two apart by looking
for the address on the heap.

Everything is modelled on bytes, headers included, with pointers of eight bytes. A walk along the
links that does not end is undefined. Statistics that are only logged are left out. Memory is a
function of the address, which is fit for proofs but slow to evaluate.
-/

namespace SqlCipher

open ByteMemory

/-- `private_block`: a pointer and two 32-bit numbers. -/
structure PrivateBlock where
  next : Nat
  size : Nat
  isUsed : Nat
  deriving DecidableEq, Repr

def privateBlockSz : Nat := 16

variable (m : Mem) (block : Nat)

def blockAt : PrivateBlock :=
  ⟨readLe m block 8, readLe m (block + 8) 4, readLe m (block + 12) 4⟩

def setNext (next : Nat) : Mem := writeLe m block 8 next

variable (size : Nat)

def setSize : Mem := writeLe m (block + 8) 4 size

def setIsUsed (isUsed : Nat) : Mem := writeLe m (block + 12) 4 isUsed

structure PrivateHeap where
  mem : Mem
  /-- `private_heap` -/
  base : Nat
  /-- `private_heap_sz` -/
  sz : Nat
  /-- `private_heap_used` -/
  used : Nat

def minSplitSize : Nat := 32

def sqliteMaxLength : Nat := 1000000000

def heapRoundup (x : Nat) : Nat := if x % 8 ≠ 0 then (x / 8 + 1) * 8 else x

/-- `size_t` has 64 bits. -/
def sizeT (x : Nat) : Nat := x % 2 ^ 64

/-- The heap as `sqlcipher_extra_init` sets it up: random bytes under one free block. -/
def PrivateHeap.initial (base sz : Nat) (random : Nat → UInt8) : PrivateHeap :=
  let m := fill m base sz random
  let m := setIsUsed m base 0
  let m := setSize m base (sz - privateBlockSz)
  { mem := setNext m base 0, base := base, sz := sz, used := 0 }

def findFree (m : Mem) (size : Nat) : Nat → Nat → Option (Option Nat)
  | 0, _ => none
  | fuel + 1, block =>
    if block = 0 then some none
    else if (blockAt m block).isUsed = 0 ∧ size ≤ (blockAt m block).size then some (some block)
    else findFree m size fuel (blockAt m block).next

def splitBlock : Mem :=
  if size + privateBlockSz + minSplitSize ≤ (blockAt m block).size then
    let split := block + size + privateBlockSz
    let m := setIsUsed m split 0
    let m := setSize m split ((blockAt m block).size - size - privateBlockSz)
    let m := setNext m split (blockAt m block).next
    let m := setNext m block split
    setSize m block size
  else m

def takeBlock : Mem :=
  let m := setIsUsed m block 1
  let m := fill m (block + privateBlockSz) size fun _ => 0
  splitBlock m block size

/-- `sqlcipher_internal_malloc`, given the ordinary allocator's answer: memory is zeroed. -/
def internalMalloc (h : PrivateHeap) (size : Nat) (fallback : Option Nat) : PrivateHeap :=
  match fallback with
  | none => h
  | some ptr => { h with mem := fill h.mem ptr size fun _ => 0 }

/-- `sqlcipher_malloc`. The pointer is `none` for `NULL`. -/
def sqlcipherMalloc (h : PrivateHeap) (size : Nat) (fallback : Option Nat) :
    Option (Option Nat × PrivateHeap) :=
  if size < 1 ∨ sqliteMaxLength < size then some (none, h)
  else
    let size := heapRoundup size
    (findFree h.mem size h.sz h.base).map fun
      | some block =>
        let m := takeBlock h.mem block size
        (some (block + privateBlockSz),
          { h with mem := m, used := sizeT (h.used + (blockAt m block).size) })
      | none => (fallback, internalMalloc h size fallback)

def findAlloc (m : Mem) (ptr : Nat) : Nat → Nat → Nat → Option (Option (Nat × Nat))
  | 0, _, _ => none
  | fuel + 1, prev, block =>
    if block = 0 then some none
    else if ptr = block + privateBlockSz then some (some (prev, block))
    else findAlloc m ptr fuel block (blockAt m block).next

def absorb (other : Nat) : Mem :=
  let m := setSize m block ((blockAt m block).size + privateBlockSz + (blockAt m other).size)
  setNext m block (blockAt m other).next

def mergePrev (prev block : Nat) : Mem × Nat :=
  if prev ≠ 0 ∧ (blockAt m prev).isUsed = 0 then (absorb m prev block, prev) else (m, block)

def mergeNext : Mem :=
  if (blockAt m block).next ≠ 0 ∧ (blockAt m (blockAt m block).next).isUsed = 0 then
    absorb m block (blockAt m block).next
  else m

def releaseBlock (prev block : Nat) (random : Nat → UInt8) : Mem :=
  let m := setIsUsed m block 0
  let m := fill m (block + privateBlockSz) (blockAt m block).size random
  let r := mergePrev m prev block
  mergeNext r.1 r.2

/-- `sqlcipher_free`. What is not on the heap is overwritten and left to the ordinary allocator. -/
def sqlcipherFree (h : PrivateHeap) (ptr sz : Nat) (random : Nat → UInt8) : Option PrivateHeap :=
  (findAlloc h.mem ptr h.sz 0 h.base).map fun
    | some (prev, block) =>
      { h with
        mem := releaseBlock h.mem prev block random
        used := sizeT (h.used + 2 ^ 64 - (blockAt h.mem block).size) }
    | none => { h with mem := fill h.mem ptr sz random }

/-- An allocation not yet freed: its address, the size asked for, and whether it is private. -/
structure Allocation where
  ptr : Nat
  size : Nat
  onHeap : Bool
  deriving DecidableEq, Repr

structure HeapSession where
  heap : PrivateHeap
  live : List Allocation

inductive HeapOp where
  /-- An allocation, with the answer of the ordinary allocator should it be asked. -/
  | malloc (size : Nat) (fallback : Option Nat)
  | free (ptr sz : Nat) (random : Nat → UInt8)
  | store (addr : Nat) (byte : UInt8)

def HeapSession.note (s : HeapSession) (size : Nat) : Option Nat × PrivateHeap → HeapSession
  | (none, h) => { s with heap := h }
  | (some ptr, h) =>
    { heap := h
      live := ⟨ptr, size, s.heap.base ≤ ptr ∧ ptr < s.heap.base + s.heap.sz⟩ :: s.live }

def HeapSession.step (s : HeapSession) : HeapOp → Option HeapSession
  | .malloc size fallback => (sqlcipherMalloc s.heap size fallback).map (s.note size)
  | .free ptr sz random => (sqlcipherFree s.heap ptr sz random).map fun h =>
    { heap := h, live := s.live.filter fun a => a.ptr ≠ ptr }
  | .store addr byte =>
      some { s with heap := { s.heap with mem := Function.update s.heap.mem addr byte } }

def HeapSession.initial (base sz : Nat) (random : Nat → UInt8) : HeapSession :=
  ⟨.initial m base sz random, []⟩

end SqlCipher
