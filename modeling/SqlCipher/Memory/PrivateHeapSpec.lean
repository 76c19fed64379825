import SqlCipher.Memory.PrivateHeap

/-!
# The blocks of the private heap

The blocks of the heap lie one behind the other and fill it (`Tiling`). Allocation carves a block
out of a free one (`Block.carve`), and freeing merges a block with its free neighbours (`release`).
This module shows that what the code does to the headers in memory is this.
-/

namespace SqlCipher

open ByteMemory List

variable {m m' m'' : Mem} {a e last : Nat}

/-! ## Headers -/

theorem blockAt_congr (h : ∀ x, a ≤ x → x < a + privateBlockSz → m x = m' x) :
    blockAt m a = blockAt m' a := by
  unfold privateBlockSz at h
  simp only [blockAt]
  congr 1 <;> exact readLe_congr fun x h1 h2 => h x (by omega) (by omega)

theorem blockAt_setNext (m : Mem) (a v : Nat) :
    blockAt (setNext m a v) a = { blockAt m a with next := v % 2 ^ 64 } := by
  simp only [blockAt, setNext, readLe_writeLe]
  rw [readLe_writeLe_of_disjoint (by omega), readLe_writeLe_of_disjoint (by omega)]
  rfl

theorem blockAt_setSize (m : Mem) (a v : Nat) :
    blockAt (setSize m a v) a = { blockAt m a with size := v % 2 ^ 32 } := by
  simp only [blockAt, setSize, readLe_writeLe]
  rw [readLe_writeLe_of_disjoint (by omega), readLe_writeLe_of_disjoint (by omega)]
  rfl

theorem blockAt_setIsUsed (m : Mem) (a v : Nat) :
    blockAt (setIsUsed m a v) a = { blockAt m a with isUsed := v % 2 ^ 32 } := by
  simp only [blockAt, setIsUsed, readLe_writeLe]
  rw [readLe_writeLe_of_disjoint (by omega), readLe_writeLe_of_disjoint (by omega)]
  rfl

def SameOutside (lo hi : Nat) (m m' : Mem) : Prop := ∀ x, x < lo ∨ hi ≤ x → m' x = m x

namespace SameOutside

variable {lo hi lo' hi' : Nat}

theorem trans (h : SameOutside lo hi m m') (h' : SameOutside lo hi m' m'') :
    SameOutside lo hi m m'' :=
  fun x hx => (h' x hx).trans (h x hx)

theorem mono (h : SameOutside lo hi m m') (hlo : lo' ≤ lo) (hhi : hi ≤ hi') :
    SameOutside lo' hi' m m' :=
  fun x hx => h x (by omega)

theorem blockAt (h : SameOutside lo hi m m') (ha : a + privateBlockSz ≤ lo ∨ hi ≤ a) :
    blockAt m' a = blockAt m a :=
  blockAt_congr fun x h1 h2 => h x (by omega)

end SameOutside

theorem sameOutside_fill (m : Mem) (a n : Nat) (f : Nat → UInt8) :
    SameOutside a (a + n) m (fill m a n f) :=
  fun _ hx => fill_of_notMem hx

theorem sameOutside_writeLe {lo hi n v : Nat} (hlo : lo ≤ a) (hhi : a + n ≤ hi) :
    SameOutside lo hi m (writeLe m a n v) :=
  (sameOutside_fill m a n _).mono hlo hhi

section

variable (m a) (v : Nat)

theorem sameOutside_setNext : SameOutside a (a + privateBlockSz) m (setNext m a v) :=
  sameOutside_writeLe le_rfl (by unfold privateBlockSz; omega)

theorem sameOutside_setSize : SameOutside a (a + privateBlockSz) m (setSize m a v) :=
  sameOutside_writeLe (by omega) (by unfold privateBlockSz; omega)

theorem sameOutside_setIsUsed : SameOutside a (a + privateBlockSz) m (setIsUsed m a v) :=
  sameOutside_writeLe (by omega) (by unfold privateBlockSz; omega)

end

/-! ## Tilings -/

structure Block where
  addr : Nat
  size : Nat
  used : Bool
  deriving DecidableEq, Repr

def Block.stop (b : Block) : Nat := b.addr + privateBlockSz + b.size

def Block.payload (b : Block) : Nat := b.addr + privateBlockSz

def Block.header (b : Block) (next : Nat) : PrivateBlock := ⟨next, b.size, if b.used then 1 else 0⟩

/-- The blocks lie one behind the other from `a` to `e`, each with a header that describes it and
points to the next; the last points to `last`. -/
def Tiling (m : Mem) (last : Nat) : Nat → List Block → Nat → Prop
  | a, [], e => a = e
  | a, b :: bs, e => b.addr = a ∧ blockAt m a = b.header (if bs = [] then last else b.stop) ∧
    Tiling m last b.stop bs e

variable {b c : Block} {bs pre post : List Block}

theorem tiling_cons : Tiling m last a (b :: bs) e ↔ b.addr = a ∧
    blockAt m a = b.header (if bs = [] then last else b.stop) ∧ Tiling m last b.stop bs e :=
  Iff.rfl

section

variable (h : Tiling m last a bs e)
include h

theorem Tiling.le : a ≤ e := by
  induction bs generalizing a with
  | nil => exact h.le
  | cons b bs ih =>
    have hle := ih h.2.2
    have := h.1
    unfold Block.stop at hle
    omega

theorem Tiling.bounds (hb : b ∈ bs) : a ≤ b.addr ∧ b.stop ≤ e := by
  induction bs generalizing a with
  | nil => cases hb
  | cons c bs ih =>
    obtain ⟨haddr, -, hrest⟩ := h
    obtain rfl | hb := mem_cons.mp hb
    · exact ⟨haddr.ge, hrest.le⟩
    · have := ih hrest hb
      unfold Block.stop at *
      omega

theorem Tiling.length_le : a + privateBlockSz * bs.length ≤ e := by
  induction bs generalizing a with
  | nil => exact h.le
  | cons b bs ih =>
    have hle := ih h.2.2
    have haddr := h.1
    rw [length_cons]
    unfold Block.stop privateBlockSz at *
    omega

theorem Tiling.congr
    (hm : ∀ b ∈ bs, blockAt m' b.addr = blockAt m b.addr) : Tiling m' last a bs e := by
  induction bs generalizing a with
  | nil => exact h
  | cons b bs ih =>
    obtain ⟨rfl, hheader, hrest⟩ := h
    exact ⟨rfl, (hm b mem_cons_self).trans hheader,
      ih hrest fun c hc => hm c (mem_cons_of_mem b hc)⟩

theorem Tiling.sameOutside (hm : SameOutside lo hi m m')
    (hout : e ≤ lo ∨ hi ≤ a) : Tiling m' last a bs e := by
  refine h.congr fun b hb => hm.blockAt ?_
  have := h.bounds hb
  unfold Block.stop at this
  omega

end

theorem tiling_append (hpost : post ≠ []) :
    Tiling m last a (pre ++ post) e ↔ ∃ c, Tiling m c a pre c ∧ Tiling m last c post e := by
  induction pre generalizing a with
  | nil =>
    refine ⟨fun h => ⟨a, rfl, h⟩, ?_⟩
    rintro ⟨c, rfl, h⟩
    exact h
  | cons b pre ih =>
    have hne : pre ++ post ≠ [] := by simp [hpost]
    rw [cons_append, tiling_cons, if_neg hne]
    constructor
    · rintro ⟨haddr, hheader, hrest⟩
      obtain ⟨c, hpre, hc⟩ := ih.mp hrest
      refine ⟨c, ⟨haddr, ?_, hpre⟩, hc⟩
      split
      · subst pre
        rwa [show c = b.stop from hpre.symm]
      · exact hheader
    · rintro ⟨c, ⟨haddr, hheader, hpre⟩, hc⟩
      refine ⟨haddr, ?_, ih.mpr ⟨c, hpre, hc⟩⟩
      split at hheader
      · subst pre
        rwa [show c = b.stop from hpre.symm] at hheader
      · exact hheader

/-! ## Walks -/

def firstAddr (bs : List Block) : Nat := (bs.head?.map Block.addr).getD 0

theorem Tiling.firstAddr_eq (h : Tiling m last a bs e) (hbs : bs ≠ []) : firstAddr bs = a := by
  cases bs with
  | nil => exact absurd rfl hbs
  | cons b bs => exact h.1

theorem Tiling.next_eq (h : Tiling m 0 a (b :: bs) e) : (blockAt m b.addr).next = firstAddr bs := by
  obtain ⟨rfl, hheader, hrest⟩ := h
  rw [hheader]
  cases bs with
  | nil => rfl
  | cons c bs => exact (hrest.firstAddr_eq (cons_ne_nil c bs)).symm

@[simp] theorem firstAddr_cons (b : Block) (bs : List Block) : firstAddr (b :: bs) = b.addr := rfl

/-- First fit. -/
theorem findFree_eq (h : Tiling m 0 a bs e) (ha : 0 < a) (size : Nat) (hfuel : bs.length < fuel) :
    findFree m size fuel (firstAddr bs) =
      some ((bs.find? fun b => !b.used && decide (size ≤ b.size)).map Block.addr) := by
  induction fuel generalizing a bs with
  | zero => cases hfuel
  | succ fuel ih =>
    cases bs with
    | nil => rfl
    | cons b bs =>
      have hnext := h.next_eq
      obtain ⟨rfl, hheader, hrest⟩ := h
      rw [findFree, firstAddr_cons, if_neg (by omega), find?_cons, hnext,
        ih hrest (by unfold Block.stop; omega) (Nat.lt_of_succ_lt_succ hfuel), hheader]
      cases hu : b.used with
      | true => simp [Block.header, hu]
      | false => by_cases hsize : size ≤ b.size <;> simp [Block.header, hu, hsize]

/-- The block that hands out `ptr` is found, together with the one before it. -/
theorem findAlloc_append (h : Tiling m 0 a (pre ++ b :: post) e) (ha : 0 < a) (prev : Nat)
    (hfuel : pre.length < fuel) :
    findAlloc m b.payload fuel prev (firstAddr (pre ++ b :: post)) =
      some (some ((pre.getLast?.map Block.addr).getD prev, b.addr)) := by
  induction fuel generalizing a pre prev with
  | zero => cases hfuel
  | succ fuel ih =>
    cases pre with
    | nil =>
      have hpos : b.addr ≠ 0 := by
        have := h.1
        omega
      have hpayload : b.payload = b.addr + privateBlockSz := rfl
      rw [findAlloc, nil_append, firstAddr_cons, if_neg hpos, if_pos hpayload]
      rfl
    | cons c pre =>
      rw [cons_append] at h
      have hnext := h.next_eq
      have hbounds := h.2.2.bounds (b := b) (by simp)
      obtain ⟨rfl, -, hrest⟩ := h
      have hstop : c.addr < c.stop := by unfold Block.stop privateBlockSz; omega
      have hne : b.payload ≠ c.addr + privateBlockSz := by unfold Block.payload; omega
      rw [findAlloc, cons_append, firstAddr_cons, if_neg (by omega), if_neg hne, hnext,
        ih hrest (by omega) c.addr (Nat.lt_of_succ_lt_succ hfuel)]
      cases pre with
      | nil => rfl
      | cons d pre => rw [getLast?_cons_cons, getLast?_eq_some_getLast (cons_ne_nil d pre)]; rfl

theorem findAlloc_eq_none (h : Tiling m 0 a bs e) (ha : 0 < a) (hptr : ∀ b ∈ bs, ptr ≠ b.payload)
    (prev : Nat) (hfuel : bs.length < fuel) :
    findAlloc m ptr fuel prev (firstAddr bs) = some none := by
  induction fuel generalizing a bs prev with
  | zero => cases hfuel
  | succ fuel ih =>
    cases bs with
    | nil => rfl
    | cons b bs =>
      have hnext := h.next_eq
      obtain ⟨rfl, -, hrest⟩ := h
      have hne : ptr ≠ b.addr + privateBlockSz := hptr b mem_cons_self
      rw [findAlloc, firstAddr_cons, if_neg (by omega), if_neg hne, hnext]
      exact ih hrest (by unfold Block.stop; omega) (fun c hc => hptr c (mem_cons_of_mem b hc))
        b.addr (Nat.lt_of_succ_lt_succ hfuel)

/-! ## Taking a block -/

/-- What becomes of a free block from which `size` bytes are taken. -/
def Block.carve (b : Block) (size : Nat) : List Block :=
  if size + privateBlockSz + minSplitSize ≤ b.size then
    [⟨b.addr, size, true⟩, ⟨b.addr + size + privateBlockSz, b.size - size - privateBlockSz, false⟩]
  else [{ b with used := true }]

section

variable {d v : Nat} (hne : a + 16 ≤ d ∨ d + 16 ≤ a)
include hne

theorem blockAt_setNext_of_ne : blockAt (setNext m d v) a = blockAt m a :=
  (sameOutside_setNext m d v).blockAt hne

theorem blockAt_setSize_of_ne : blockAt (setSize m d v) a = blockAt m a :=
  (sameOutside_setSize m d v).blockAt hne

theorem blockAt_setIsUsed_of_ne : blockAt (setIsUsed m d v) a = blockAt m a :=
  (sameOutside_setIsUsed m d v).blockAt hne

end

theorem splitBlock_apply (h : block + privateBlockSz ≤ x)
    (h' : x < block + size + privateBlockSz) : splitBlock m block size x = m x := by
  unfold splitBlock
  split
  · dsimp only
    rw [sameOutside_setSize _ _ _ x (by omega), sameOutside_setNext _ _ _ x (by omega),
      sameOutside_setNext _ _ _ x (by omega), sameOutside_setSize _ _ _ x (by omega),
      sameOutside_setIsUsed _ _ _ x (by omega)]
  · rfl

theorem splitBlock_sameOutside (m : Mem) (block size : Nat) :
    SameOutside block (block + privateBlockSz + (blockAt m block).size) m
      (splitBlock m block size) := by
  unfold splitBlock
  split
  · rename_i hle
    unfold minSplitSize at hle
    dsimp only
    refine ((((sameOutside_setIsUsed m _ 0).mono ?_ ?_).trans
      ((sameOutside_setSize _ _ _).mono ?_ ?_)).trans
        ((sameOutside_setNext _ _ _).mono ?_ ?_)).trans
      (((sameOutside_setNext _ _ _).mono ?_ ?_).trans ((sameOutside_setSize _ _ _).mono ?_ ?_)) <;>
      omega
  · exact fun _ _ => rfl

theorem blockAt_splitBlock {next : Nat} (h : blockAt m block = ⟨next, total, 1⟩)
    (hle : size + privateBlockSz + minSplitSize ≤ total) (htotal : total < 2 ^ 32)
    (hend : block + privateBlockSz + total < 2 ^ 64) (hnext : next < 2 ^ 64) :
    blockAt (splitBlock m block size) block = ⟨block + size + privateBlockSz, size, 1⟩ ∧
      blockAt (splitBlock m block size) (block + size + privateBlockSz) =
        ⟨next, total - size - privateBlockSz, 0⟩ := by
  unfold privateBlockSz minSplitSize at *
  rw [splitBlock, if_pos (by rw [h]; exact hle)]
  unfold privateBlockSz
  dsimp only
  constructor <;>
    simp (disch := omega) only [blockAt_setSize, blockAt_setNext, blockAt_setIsUsed,
      blockAt_setNext_of_ne, blockAt_setSize_of_ne, blockAt_setIsUsed_of_ne, h, Nat.mod_eq_of_lt]

/-- Splitting off the rest of a block that is marked as used. -/
theorem splitBlock_tiling (b : Block) (h : Tiling m last b.addr (b :: post) e)
    (hused : b.used = true) (he : e < 2 ^ 64) (hlt : b.size < 2 ^ 32) (hlast : last < 2 ^ 64) :
    Tiling (splitBlock m b.addr size) last b.addr (b.carve size ++ post) e := by
  obtain ⟨-, hheader, hrest⟩ := h
  have hstop := hrest.le
  have hnext : (if post = [] then last else b.stop) < 2 ^ 64 := by split <;> omega
  rw [Block.header, hused, if_pos rfl] at hheader
  have hafter : Tiling (splitBlock m b.addr size) last b.stop post e := by
    refine hrest.sameOutside (splitBlock_sameOutside m b.addr size) (.inr ?_)
    rw [hheader]
    exact le_rfl
  unfold Block.carve
  split
  · rename_i hle
    obtain ⟨hfirst, hsecond⟩ := blockAt_splitBlock hheader hle hlt (hstop.trans_lt he) hnext
    have hsplit : b.addr + privateBlockSz + size = b.addr + size + privateBlockSz := by omega
    have hend : b.addr + size + privateBlockSz + privateBlockSz + (b.size - size - privateBlockSz) =
        b.stop := by
      unfold Block.stop minSplitSize privateBlockSz at *
      omega
    refine ⟨rfl, ?_, hsplit.symm, ?_, ?_⟩
    · exact hfirst.trans (by simp [Block.header, Block.stop, hsplit])
    · rw [Block.stop, hsplit]
      exact hsecond.trans (by simp [Block.header, Block.stop, hend])
    · rw [Block.stop, hend]
      exact hafter
  · rename_i hle
    rw [splitBlock, if_neg (by rw [hheader]; exact hle)] at hafter ⊢
    exact ⟨rfl, by rw [hheader]; simp [Block.header, Block.stop], hafter⟩

section

variable {size : Nat}

theorem takeBlock_zero (h : a + privateBlockSz ≤ x) (h' : x < a + privateBlockSz + size) :
    takeBlock m a size x = 0 := by
  rw [takeBlock, splitBlock_apply h (by omega), fill_of_mem h h']

/-- A block is marked as used or free, and bytes of it are overwritten. -/
theorem Tiling.mark (h : Tiling m last a (pre ++ b :: post) e) {u : Bool} {v : Nat}
    (hv : v = if u then 1 else 0) (hsize : size ≤ b.size) (f : Nat → UInt8) :
    Tiling (fill (setIsUsed m b.addr v) (b.addr + privateBlockSz) size f) last a
      (pre ++ { b with used := u } :: post) e := by
  obtain ⟨d, hpre, rfl, hheader, hrest⟩ := (tiling_append (cons_ne_nil _ _)).mp h
  have hfill := sameOutside_fill (setIsUsed m b.addr v) (b.addr + privateBlockSz) size f
  have hout := ((sameOutside_setIsUsed m b.addr v).mono le_rfl
    (show _ ≤ b.stop by unfold Block.stop; omega)).trans
    (hfill.mono (by omega) (by unfold Block.stop; omega))
  refine (tiling_append (cons_ne_nil _ _)).mpr
    ⟨b.addr, hpre.sameOutside hout (.inl le_rfl), rfl, ?_,
    hrest.sameOutside hout (.inr le_rfl)⟩
  rw [hfill.blockAt (.inl le_rfl), blockAt_setIsUsed, hheader, hv]
  cases u <;> rfl

theorem carve_cases (b : Block) (size : Nat) : (∃ c d, b.carve size = [c, d] ∧ c.used = true ∧
      d.used = false ∧ c.addr = b.addr ∧ c.size = size ∧ size + privateBlockSz + d.size = b.size) ∨
    (b.carve size = [{ b with used := true }] ∧ b.size < size + privateBlockSz + minSplitSize) := by
  unfold Block.carve
  split
  · rename_i hle
    refine .inl ⟨_, _, rfl, rfl, rfl, rfl, rfl, ?_⟩
    dsimp only
    omega
  · exact .inr ⟨rfl, by omega⟩

theorem Tiling.take (h : Tiling m last a (pre ++ b :: post) e) (hsize : size ≤ b.size)
    (he : e < 2 ^ 64) (hlt : b.size < 2 ^ 32) (hlast : last < 2 ^ 64) :
    Tiling (takeBlock m b.addr size) last a (pre ++ (b.carve size ++ post)) e := by
  have hne : b.carve size ++ post ≠ [] := by
    obtain ⟨c, d, heq, -⟩ | ⟨heq, -⟩ := carve_cases b size <;> simp [heq]
  obtain ⟨d, hpre, hpost⟩ := (tiling_append (cons_ne_nil _ _)).mp
    (h.mark (u := true) rfl hsize fun _ => 0)
  obtain rfl : b.addr = d := hpost.1
  refine (tiling_append hne).mpr
    ⟨b.addr, ?_, splitBlock_tiling { b with used := true } hpost rfl he hlt hlast⟩
  exact hpre.sameOutside (splitBlock_sameOutside _ b.addr size) (.inl le_rfl)

end

/-! ## Melting blocks -/

def Block.melt (b c : Block) : Block := ⟨b.addr, b.size + privateBlockSz + c.size, b.used⟩

theorem absorb_sameOutside (m : Mem) (a d : Nat) :
    SameOutside a (a + privateBlockSz) m (absorb m a d) :=
  (sameOutside_setSize m a _).trans (sameOutside_setNext _ a _)

theorem absorb_tiling (h : Tiling m last b.addr (b :: c :: post) e) (he : e < 2 ^ 64)
    (hlt : e < b.addr + 2 ^ 32) (hlast : last < 2 ^ 64) :
    Tiling (absorb m b.addr c.addr) last b.addr (b.melt c :: post) e := by
  obtain ⟨-, hb, hcaddr, hc, hrest⟩ := h
  have hstop := hrest.le
  have hnext : (if post = [] then last else c.stop) < 2 ^ 64 := by split <;> omega
  have hmelt : (b.melt c).stop = c.stop := by
    unfold Block.melt Block.stop at *
    dsimp only
    omega
  have hsize : b.size + privateBlockSz + c.size < 2 ^ 32 := by
    unfold Block.stop privateBlockSz at *
    omega
  have hout := absorb_sameOutside m b.addr c.addr
  refine ⟨rfl, ?_, ?_⟩
  · have hother (v : Nat) : blockAt (setSize m b.addr v) c.addr = blockAt m c.addr := by
      refine blockAt_setSize_of_ne (.inr ?_)
      unfold Block.stop privateBlockSz at hcaddr
      omega
    unfold absorb
    dsimp only
    rw [blockAt_setNext, blockAt_setSize, hother, hb, ← hcaddr] at *
    rw [hc]
    simp only [Block.header, hmelt, Nat.mod_eq_of_lt hsize, Nat.mod_eq_of_lt hnext]
    rfl
  · rw [hmelt]
    refine hrest.sameOutside hout (.inr ?_)
    unfold Block.stop at *
    omega

/-- Merge a free block with a free block before it: what is left in front, and the block. -/
def mergeLeft (pre : List Block) (b : Block) : List Block × Block :=
  match pre.getLast? with
  | some q => if q.used then (pre, b) else (pre.dropLast, q.melt b)
  | none => (pre, b)

def mergeRight (b : Block) : List Block → List Block
  | c :: post => if c.used then b :: c :: post else b.melt c :: post
  | [] => [b]

theorem Tiling.absorb (h : Tiling m last a (pre ++ b :: c :: post) e) (he : e < 2 ^ 64)
    (hlt : e < a + 2 ^ 32) (hlast : last < 2 ^ 64) :
    Tiling (absorb m b.addr c.addr) last a (pre ++ b.melt c :: post) e := by
  obtain ⟨d, hpre, hpost⟩ := (tiling_append (cons_ne_nil _ _)).mp h
  have hle := hpre.le
  obtain rfl : b.addr = d := hpost.1
  refine (tiling_append (cons_ne_nil _ _)).mpr ⟨b.addr, ?_, ?_⟩
  · exact hpre.sameOutside (absorb_sameOutside m b.addr c.addr) (.inl le_rfl)
  · exact absorb_tiling hpost he (by omega) hlast

/-- The header of a block in the middle of a tiling. -/
theorem Tiling.blockAt_eq (h : Tiling m last a (pre ++ b :: post) e) :
    blockAt m b.addr = b.header (if post = [] then last else b.stop) := by
  obtain ⟨d, -, hpost⟩ := (tiling_append (cons_ne_nil _ _)).mp h
  obtain ⟨rfl, hheader, -⟩ := hpost
  exact hheader

theorem mergePrev_tiling (h : Tiling m 0 a (pre ++ b :: post) e) (ha : 0 < a) (he : e < 2 ^ 64)
    (hlt : e < a + 2 ^ 32) :
    (mergePrev m ((pre.getLast?.map Block.addr).getD 0) b.addr).2 = (mergeLeft pre b).2.addr ∧
      Tiling (mergePrev m ((pre.getLast?.map Block.addr).getD 0) b.addr).1 0 a
        ((mergeLeft pre b).1 ++ (mergeLeft pre b).2 :: post) e := by
  obtain rfl | ⟨pre, q, rfl⟩ := pre.eq_nil_or_concat
  · exact ⟨rfl, h⟩
  · rw [concat_eq_append] at *
    have hq : q.addr ≠ 0 := by
      have := (h.bounds (b := q) (by simp)).1
      omega
    rw [append_assoc, singleton_append] at h
    have hheader := h.blockAt_eq
    rw [if_neg (cons_ne_nil _ _)] at hheader
    simp only [mergePrev, mergeLeft, getLast?_concat, Option.map_some, Option.getD_some, hheader,
      ne_eq, hq, not_false_eq_true, true_and, dropLast_concat, Block.header]
    cases q.used with
    | true => simpa using h
    | false => exact ⟨rfl, h.absorb he hlt (by decide)⟩

theorem mergeNext_tiling (h : Tiling m 0 a (pre ++ b :: post) e) (ha : 0 < a) (he : e < 2 ^ 64)
    (hlt : e < a + 2 ^ 32) : Tiling (mergeNext m b.addr) 0 a (pre ++ mergeRight b post) e := by
  have hheader := h.blockAt_eq
  cases post with
  | nil =>
    simp only [mergeNext, hheader, Block.header]
    exact h
  | cons c post =>
    have hc : b.stop = c.addr := by
      obtain ⟨d, -, -, -, hc, -⟩ := (tiling_append (cons_ne_nil _ _)).mp h
      exact hc.symm
    have hpos : c.addr ≠ 0 := by
      have := (h.bounds (b := c) (by simp)).1
      omega
    have hnext : blockAt m c.addr = c.header (if post = [] then 0 else c.stop) := by
      rw [← singleton_append, ← append_assoc] at h
      exact h.blockAt_eq
    rw [if_neg (cons_ne_nil _ _), hc] at hheader
    simp only [mergeNext, hheader, Block.header, hnext, mergeRight, ne_eq, hpos, not_false_eq_true,
      true_and]
    cases c.used with
    | true => simpa using h
    | false => exact h.absorb he hlt (by decide)

/-- The blocks after a block between `pre` and `post` was freed. -/
def release (pre : List Block) (b : Block) (post : List Block) : List Block :=
  (mergeLeft pre { b with used := false }).1 ++
    mergeRight (mergeLeft pre { b with used := false }).2 post

theorem releaseBlock_tiling (h : Tiling m 0 a (pre ++ b :: post) e) (ha : 0 < a) (he : e < 2 ^ 64)
    (hlt : e < a + 2 ^ 32) (random : Nat → UInt8) :
    Tiling (releaseBlock m ((pre.getLast?.map Block.addr).getD 0) b.addr random) 0 a
      (release pre b post) e := by
  have hsize : (blockAt (setIsUsed m b.addr 0) b.addr).size = b.size := by
    rw [blockAt_setIsUsed, h.blockAt_eq]
    rfl
  have hfree := h.mark (u := false) (v := 0) rfl le_rfl random
  obtain ⟨haddr, hmerged⟩ := mergePrev_tiling hfree ha he hlt
  unfold releaseBlock release
  dsimp only
  rw [hsize, haddr]
  exact mergeNext_tiling hmerged ha he hlt

end SqlCipher
