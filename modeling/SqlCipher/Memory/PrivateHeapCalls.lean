import Mathlib.Data.List.Chain
import SqlCipher.Memory.PrivateHeapSpec

/-!
# Calls to the private heap

The blocks of the heap fill it, none of them is empty, no two neighbours are both free, and the
counter holds what is in use (`PrivateHeap.Rep`). This module says what `sqlcipher_malloc` and
`sqlcipher_free` do to the blocks.
-/

namespace SqlCipher

open ByteMemory List

variable {m : Mem} {a e last size : Nat} {b : Block} {bs pre post : List Block}

def usedSize (bs : List Block) : Nat := ((bs.filter Block.used).map Block.size).sum

def Block.Apart (b c : Block) : Prop := b.used = true ∨ c.used = true

structure PrivateHeap.Rep (h : PrivateHeap) (bs : List Block) : Prop where
  pos : 0 < h.base
  lt : h.base + h.sz < 2 ^ 64
  small : h.sz < 2 ^ 32
  tiling : Tiling h.mem 0 h.base bs (h.base + h.sz)
  nonempty : ∀ b ∈ bs, 0 < b.size
  apart : bs.IsChain Block.Apart
  used : h.used = usedSize bs

theorem usedSize_append (bs cs : List Block) : usedSize (bs ++ cs) = usedSize bs + usedSize cs := by
  simp [usedSize]

theorem usedSize_cons (b : Block) (bs : List Block) :
    usedSize (b :: bs) = (if b.used then b.size else 0) + usedSize bs := by
  cases hb : b.used <;> simp [usedSize, hb]

theorem Tiling.usedSize_le (h : Tiling m last a bs e) : a + usedSize bs ≤ e := by
  induction bs generalizing a with
  | nil => exact Nat.le_of_eq h
  | cons b bs ih =>
    obtain ⟨rfl, -, hrest⟩ := h
    have hle := ih hrest
    unfold Block.stop at hle
    rw [usedSize_cons]
    split <;> omega

def usedPayloads (bs : List Block) : List Nat := (bs.filter Block.used).map Block.payload

theorem usedPayloads_append (bs cs : List Block) :
    usedPayloads (bs ++ cs) = usedPayloads bs ++ usedPayloads cs := by
  simp [usedPayloads]

theorem usedPayloads_cons (b : Block) (bs : List Block) :
    usedPayloads (b :: bs) = (if b.used then [b.payload] else []) ++ usedPayloads bs := by
  cases hb : b.used <;> simp [usedPayloads, hb]

/-- The first block that is carved is in use, and has the bytes asked for; the rest is free. -/
theorem carve_head (hsize : size ≤ b.size) :
    ∃ c rest, b.carve size = c :: rest ∧ c.used = true ∧ c.addr = b.addr ∧ size ≤ c.size ∧
      rest.filter Block.used = [] := by
  obtain ⟨c, d, heq, hc, hd, haddr, hcs, -⟩ | ⟨heq, -⟩ := carve_cases b size
  · exact ⟨c, [d], heq, hc, haddr, Nat.le_of_eq hcs.symm, by simp [hd]⟩
  · exact ⟨_, [], heq, rfl, rfl, hsize, rfl⟩

theorem apart_carve (hb : b.used = false) (h : (pre ++ b :: post).IsChain Block.Apart) :
    (pre ++ (b.carve size ++ post)).IsChain Block.Apart := by
  obtain ⟨hpre, hpost, -⟩ := isChain_append.mp h
  obtain ⟨hnext, hpost⟩ := isChain_cons.mp hpost
  have hnext' (d : Block) : ∀ c ∈ post.head?, d.Apart c := fun c hc =>
    .inr ((hnext c hc).resolve_left (by simp [hb]))
  rw [isChain_append]
  obtain ⟨c, d, heq, hc, -⟩ | ⟨heq, -⟩ := carve_cases b size
  · rw [heq]
    refine ⟨hpre, ?_, fun _ _ y hy => ?_⟩
    · exact isChain_cons_cons.mpr ⟨.inl hc, isChain_cons.mpr ⟨hnext' d, hpost⟩⟩
    · cases hy
      exact .inr hc
  · rw [heq]
    refine ⟨hpre, isChain_cons.mpr ⟨hnext' _, hpost⟩, fun _ _ y hy => ?_⟩
    cases hy
    exact .inr rfl

theorem nonempty_carve (hsize : 0 < size) (h : ∀ c ∈ pre ++ b :: post, 0 < c.size) :
    ∀ c ∈ pre ++ (b.carve size ++ post), 0 < c.size := by
  have hb : ∀ c ∈ b.carve size, 0 < c.size := by
    unfold Block.carve minSplitSize privateBlockSz
    split
    · simp only [mem_cons, not_mem_nil, or_false, forall_eq_or_imp, forall_eq]
      omega
    · simpa using h b (by simp)
  grind

theorem mergeLeft_spec (hpre : pre.IsChain Block.Apart) (hb : b.used = false) :
    (mergeLeft pre b).2.used = false ∧ (mergeLeft pre b).1.IsChain Block.Apart ∧
      (∀ c ∈ (mergeLeft pre b).1.getLast?, c.used = true) ∧
      (mergeLeft pre b).1.filter Block.used = pre.filter Block.used := by
  obtain rfl | ⟨pre, q, rfl⟩ := pre.eq_nil_or_concat
  · exact ⟨hb, hpre, nofun, rfl⟩
  · rw [concat_eq_append] at *
    cases hq : q.used with
    | true =>
      have hleft : mergeLeft (pre ++ [q]) b = (pre ++ [q], b) := by simp [mergeLeft, hq]
      rw [hleft]
      exact ⟨hb, hpre, by simp [hq], rfl⟩
    | false =>
      have hleft : mergeLeft (pre ++ [q]) b = (pre, q.melt b) := by simp [mergeLeft, hq]
      rw [hleft]
      obtain ⟨hpre, -, hlast⟩ := isChain_append.mp hpre
      exact ⟨hq, hpre, fun c hc => (hlast c hc q rfl).resolve_right (by simp [hq]), by simp [hq]⟩

theorem mergeRight_spec (hpost : post.IsChain Block.Apart) (hb : b.used = false) :
    (mergeRight b post).IsChain Block.Apart ∧
      (mergeRight b post).filter Block.used = post.filter Block.used := by
  cases post with
  | nil => exact ⟨isChain_singleton _, by simp [mergeRight, hb]⟩
  | cons c post =>
    obtain ⟨hnext, hpost'⟩ := isChain_cons.mp hpost
    cases hc : c.used with
    | true =>
      have hright : mergeRight b (c :: post) = b :: c :: post := by simp [mergeRight, hc]
      rw [hright]
      exact ⟨isChain_cons_cons.mpr ⟨.inr hc, hpost⟩, by simp [hb]⟩
    | false =>
      have hright : mergeRight b (c :: post) = b.melt c :: post := by simp [mergeRight, hc]
      rw [hright]
      refine ⟨isChain_cons.mpr ⟨fun d hd => ?_, hpost'⟩, by simp [Block.melt, hb, hc]⟩
      exact .inr ((hnext d hd).resolve_left (by simp [hc]))

theorem release_spec (h : (pre ++ b :: post).IsChain Block.Apart) :
    (release pre b post).IsChain Block.Apart ∧
      (release pre b post).filter Block.used = pre.filter Block.used ++ post.filter Block.used := by
  obtain ⟨hpre, hpost, -⟩ := isChain_append.mp h
  obtain ⟨hfree, hchain, hlast, hfilter⟩ := mergeLeft_spec (b := { b with used := false }) hpre rfl
  obtain ⟨hchain', hfilter'⟩ := mergeRight_spec (isChain_cons.mp hpost).2 hfree
  unfold release
  refine ⟨isChain_append.mpr ⟨hchain, hchain', fun c hc _ _ => .inl (hlast c hc)⟩, ?_⟩
  rw [filter_append, hfilter, hfilter']

theorem nonempty_release (h : ∀ c ∈ pre ++ b :: post, 0 < c.size) :
    ∀ c ∈ release pre b post, 0 < c.size := by
  have hmelt (c d : Block) : 0 < (c.melt d).size := by
    unfold Block.melt privateBlockSz
    dsimp only
    omega
  have hleft : 0 < (mergeLeft pre { b with used := false }).2.size ∧
      ∀ c ∈ (mergeLeft pre { b with used := false }).1, c ∈ pre := by
    have hb : 0 < b.size := h b (by simp)
    unfold mergeLeft
    split
    · split
      · exact ⟨hb, fun c hc => hc⟩
      · exact ⟨hmelt _ _, fun c hc => dropLast_subset pre hc⟩
    · exact ⟨hb, fun c hc => hc⟩
  intro c hc
  rw [release, mem_append] at hc
  cases post with
  | nil => grind [mergeRight]
  | cons d post => grind [mergeRight]

theorem le_heapRoundup (size : Nat) : size ≤ heapRoundup size := by
  unfold heapRoundup
  split <;> omega

theorem heapRoundup_pos (h : ¬ (size < 1 ∨ sqliteMaxLength < size)) : 0 < heapRoundup size := by
  have := le_heapRoundup size
  omega

namespace PrivateHeap.Rep

variable {h : PrivateHeap} (hr : h.Rep bs)
include hr

theorem length_lt (hsz : privateBlockSz ≤ h.sz) : bs.length < h.sz := by
  have := hr.tiling.length_le
  unfold privateBlockSz at *
  omega

theorem firstAddr_eq (hsz : privateBlockSz ≤ h.sz) : firstAddr bs = h.base := by
  refine hr.tiling.firstAddr_eq fun hbs => ?_
  have htile := hr.tiling
  rw [hbs] at htile
  have : h.base = h.base + h.sz := htile
  unfold privateBlockSz at hsz
  omega

theorem size_lt (hb : b ∈ bs) : b.size < 2 ^ 32 := by
  have hbounds := hr.tiling.bounds hb
  have := hr.small
  unfold Block.stop at hbounds
  omega

-- The fields are variables here: the kernel would otherwise compare the counters by evaluation.
theorem update {used : Nat} (hh : h' = { h with mem := m, used := used })
    (htiling : Tiling m 0 h.base bs' (h.base + h.sz)) (hne : ∀ b ∈ bs', 0 < b.size)
    (hapart : bs'.IsChain Block.Apart) (hused : used = usedSize bs') :
    h'.base = h.base ∧ h'.sz = h.sz ∧ h'.Rep bs' := by
  subst hh
  exact ⟨rfl, rfl, hr.pos, hr.lt, hr.small, htiling, hne, hapart, hused⟩

/-- An allocation comes from the first free block with room, or from the ordinary allocator. -/
theorem malloc (hsz : privateBlockSz ≤ h.sz) (hsize : ¬ (size < 1 ∨ sqliteMaxLength < size))
    (fallback : Option Nat) :
    (∃ pre b post h', bs = pre ++ b :: post ∧ b.used = false ∧ heapRoundup size ≤ b.size ∧
      sqlcipherMalloc h size fallback = some (some b.payload, h') ∧
        h'.base = h.base ∧ h'.sz = h.sz ∧
      h'.Rep (pre ++ (b.carve (heapRoundup size) ++ post)) ∧
      h'.mem = takeBlock h.mem b.addr (heapRoundup size)) ∨
    (∀ b ∈ bs, b.used = false → b.size < heapRoundup size) ∧ sqlcipherMalloc h size fallback =
      some (fallback, internalMalloc h (heapRoundup size) fallback) := by
  have hfind := findFree_eq hr.tiling hr.pos (heapRoundup size) (hr.length_lt hsz)
  rw [hr.firstAddr_eq hsz] at hfind
  cases hfit : bs.find? fun b => !b.used && decide (heapRoundup size ≤ b.size) with
  | none =>
    refine .inr ⟨fun b hb hfree => ?_, ?_⟩
    · simpa [hfree] using find?_eq_none.mp hfit b hb
    · simp only [sqlcipherMalloc, if_neg hsize, hfind, hfit, Option.map_none, Option.map_some]
  | some b =>
    refine .inl ?_
    obtain ⟨hb, pre, post, rfl, -⟩ := find?_eq_some_iff_append.mp hfit
    simp only [Bool.and_eq_true, Bool.not_eq_true', decide_eq_true_eq] at hb
    have hmem : b ∈ pre ++ b :: post := by simp
    have htiling := hr.tiling.take hb.2 hr.lt (hr.size_lt hmem) (by decide)
    obtain ⟨c, rest, heq, hc, haddr, -, hrest⟩ := carve_head hb.2
    have hblock : (blockAt (takeBlock h.mem b.addr (heapRoundup size)) b.addr).size = c.size := by
      rw [heq, cons_append] at htiling
      have hheader := htiling.blockAt_eq
      rw [haddr] at hheader
      rw [hheader]
      rfl
    have hused : sizeT (h.used +
      (blockAt (takeBlock h.mem b.addr (heapRoundup size)) b.addr).size) =
        usedSize (pre ++ (b.carve (heapRoundup size) ++ post)) := by
      have hle := htiling.usedSize_le
      have hlt := hr.lt
      have hsum : usedSize (pre ++ (b.carve (heapRoundup size) ++ post)) = h.used + c.size := by
        rw [hr.used, heq]
        simp only [usedSize_append, usedSize_cons, hc, hb.1]
        simp [usedSize, hrest]
        omega
      rw [hblock, sizeT]
      omega
    obtain ⟨hbase, hsz', hrep⟩ := hr.update rfl htiling
      (nonempty_carve (heapRoundup_pos hsize) hr.nonempty) (apart_carve hb.1 hr.apart) hused
    refine ⟨pre, b, post, _, rfl, hb.1, hb.2, ?_, hbase, hsz', hrep, rfl⟩
    simp only [sqlcipherMalloc, if_neg hsize, hfind, hfit, Option.map_some]
    rfl

/-- A change to memory that spares the headers. -/
theorem withMem (hm : ∀ b ∈ bs, blockAt m b.addr = blockAt h.mem b.addr) :
    { h with mem := m }.Rep bs :=
  { hr with tiling := hr.tiling.congr hm }

theorem fill_outside (hout : ptr + n ≤ h.base ∨ h.base + h.sz ≤ ptr) (f : Nat → UInt8) :
    { h with mem := fill h.mem ptr n f }.Rep bs := by
  refine hr.withMem fun b hb => (sameOutside_fill h.mem ptr n f).blockAt ?_
  have hbounds := hr.tiling.bounds hb
  unfold Block.stop at hbounds
  omega

omit hr in
theorem findAlloc_eq (hr : h.Rep (pre ++ b :: post)) (hsz : privateBlockSz ≤ h.sz) :
    findAlloc h.mem b.payload h.sz 0 h.base =
      some (some ((pre.getLast?.map Block.addr).getD 0, b.addr)) := by
  have hlt := hr.length_lt hsz
  rw [← hr.firstAddr_eq hsz]
  exact findAlloc_append hr.tiling hr.pos 0 (by grind)

theorem findAlloc_outside (hsz : privateBlockSz ≤ h.sz) (hptr : ∀ b ∈ bs, ptr ≠ b.payload) :
    findAlloc h.mem ptr h.sz 0 h.base = some none := by
  rw [← hr.firstAddr_eq hsz]
  exact findAlloc_eq_none hr.tiling hr.pos hptr 0 (hr.length_lt hsz)

omit hr in
/-- A block that is in use is found by its address and given back. -/
theorem free (hr : h.Rep (pre ++ b :: post)) (hsz : privateBlockSz ≤ h.sz) (hb : b.used = true)
    (sz : Nat) (random : Nat → UInt8) :
    ∃ h', sqlcipherFree h b.payload sz random = some h' ∧ h'.base = h.base ∧ h'.sz = h.sz ∧
      h'.Rep (release pre b post) := by
  have hheader := hr.tiling.blockAt_eq
  have hlt := hr.lt
  have hsmall := hr.small
  have htiling := releaseBlock_tiling hr.tiling hr.pos hlt (by omega) random
  obtain ⟨hapart, hfilter⟩ := release_spec hr.apart
  have hsize : (blockAt h.mem b.addr).size = b.size := by rw [hheader]; rfl
  have hused : sizeT (h.used + 2 ^ 64 - (blockAt h.mem b.addr).size) =
      usedSize (release pre b post) := by
    have hle := hr.tiling.usedSize_le
    have hleft : usedSize (release pre b post) = usedSize pre + usedSize post := by
      rw [usedSize, hfilter, map_append, sum_append]
      rfl
    rw [hsize, hleft, hr.used, sizeT]
    simp only [usedSize_append, usedSize_cons, hb, if_true] at hle ⊢
    omega
  refine ⟨_, ?_, hr.update rfl htiling (nonempty_release hr.nonempty) hapart hused⟩
  rw [sqlcipherFree, hr.findAlloc_eq hsz, Option.map_some]

end PrivateHeap.Rep

end SqlCipher
