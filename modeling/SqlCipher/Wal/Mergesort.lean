import Mathlib.Data.List.Basic
import Mathlib.Order.Basic
import Mathlib.Tactic.Common
import Mathlib.Algebra.Order.Ring.Nat
import Mathlib.Tactic.Ring

/-!
# The merge sort of the checkpoint iterator

`walMergesort()` sorts the indexes of one block of the wal-index by page number and keeps, for each
page, its largest index. It merges sublists whose lengths are the powers of two in the binary
representation of the number of elements handled so far.
-/

namespace SqlCipher.Wal

open Function List

variable (content : Nat → Nat)

/-- The left list without its first index if that one has this page. -/
def skip (dbpage : Nat) : List Nat → List Nat
  | [] => []
  | l :: left => if content l = dbpage then left else l :: left

theorem length_skip_le (dbpage : Nat) (left : List Nat) :
    (skip content dbpage left).length ≤ left.length := by
  fun_cases skip <;> simp

def walMerge : List Nat → List Nat → List Nat
  | [], [] => []
  | l :: left, [] => l :: walMerge (skip content (content l) left) []
  | [], r :: right => r :: walMerge [] right
  | l :: left, r :: right =>
    if content l < content r then l :: walMerge (skip content (content l) left) (r :: right)
    else r :: walMerge (skip content (content r) (l :: left)) right
termination_by left right => left.length + right.length
decreasing_by
  · have := length_skip_le content (content l) left
    simp only [length_cons, length_nil]
    omega
  · simp
  · have := length_skip_le content (content l) left
    simp only [length_cons]
    omega
  · have := length_skip_le content (content r) (l :: left)
    simp only [length_cons] at this ⊢
    omega

/-- The merges an element sets off: one for each low bit of its position that is set. -/
def carry (aSub : Nat → List Nat) (iList : Nat) : Nat → Nat → List Nat → Nat × List Nat
  | 0, iSub, aMerge => (iSub, aMerge)
  | n + 1, iSub, aMerge =>
    if iList.testBit iSub then carry aSub iList n (iSub + 1) (walMerge content (aSub iSub) aMerge)
    else (iSub, aMerge)

/-- The local variables of `walMergesort()`. -/
structure Sublists where
  aSub : Nat → List Nat
  iSub : Nat
  aMerge : List Nat

def nSub : Nat := 13

/-- The state after the first elements; the list to sort is that of the indexes `0, 1, 2, …`. -/
def sublists : Nat → Sublists
  | 0 => ⟨fun _ => [], 0, []⟩
  | iList + 1 =>
    let s := sublists iList
    let (iSub, aMerge) := carry content s.aSub iList nSub 0 [iList]
    ⟨update s.aSub iSub aMerge, iSub, aMerge⟩

def collect (aSub : Nat → List Nat) (nList : Nat) : Nat → Nat → List Nat → List Nat
  | 0, _, aMerge => aMerge
  | n + 1, iSub, aMerge =>
    collect aSub nList n (iSub + 1)
      (if nList.testBit iSub then walMerge content (aSub iSub) aMerge else aMerge)

def walMergesort (nList : Nat) : List Nat :=
  let s := sublists content nList
  collect content s.aSub nList (nSub - (s.iSub + 1)) (s.iSub + 1) s.aMerge

/-- The indexes stand in the order of their pages, no page twice. -/
def Ascending (l : List Nat) : Prop := l.Pairwise fun i j => content i < content j

variable {content}

theorem mem_skip (hleft : Ascending content left) (hle : ∀ l ∈ left, dbpage ≤ content l) :
    j ∈ skip content dbpage left ↔ j ∈ left ∧ content j ≠ dbpage := by
  fun_cases skip with
  | case1 => simp
  | case2 l left heq =>
    have hrest := (pairwise_cons.mp hleft).1
    constructor
    · exact fun h => ⟨mem_cons_of_mem _ h, heq ▸ (hrest j h).ne'⟩
    · rintro ⟨h, hne⟩
      exact (mem_cons.mp h).resolve_left fun hj => hne (hj ▸ heq)
  | case3 l left hne =>
    refine (and_iff_left_of_imp fun h => ?_).symm
    obtain rfl | h := mem_cons.mp h
    · exact hne
    · have := hle l mem_cons_self
      exact (lt_of_le_of_lt this ((pairwise_cons.mp hleft).1 j h)).ne'

theorem ascending_skip (hleft : Ascending content left) :
    Ascending content (skip content dbpage left) := by
  fun_cases skip with
  | case1 => exact hleft
  | case2 => exact (pairwise_cons.mp hleft).2
  | case3 => exact hleft

/-- The output of a merge whose first element `o` is put out. -/
theorem merge_step {left right out : List Nat} (hleft : Ascending content left)
    (hle : ∀ l ∈ left, content o ≤ content l) (hlt : ∀ r ∈ right, content o < content r)
    (hout : Ascending content out)
    (hmem : ∀ j, j ∈ out ↔ j ∈ right ∨
      j ∈ skip content (content o) left ∧ ∀ r ∈ right, content r ≠ content j) :
    Ascending content (o :: out) ∧ ∀ j, j ∈ o :: out ↔
      j = o ∨ j ∈ right ∨ j ∈ left ∧ content j ≠ content o ∧
        ∀ r ∈ right, content r ≠ content j := by
  refine ⟨pairwise_cons.mpr ⟨fun j hj => ?_, hout⟩, fun j => ?_⟩
  · rcases (hmem j).mp hj with h | ⟨h, -⟩
    · exact hlt j h
    · obtain ⟨hj, hne⟩ := (mem_skip hleft hle).mp h
      exact lt_of_le_of_ne (hle j hj) hne.symm
  · rw [mem_cons, hmem, mem_skip hleft hle, and_assoc]

/-- A merge keeps all of the right list, and of the left one the pages that are not in the right. -/
theorem walMerge_spec (hleft : Ascending content left) (hright : Ascending content right) :
    Ascending content (walMerge content left right) ∧ ∀ j, j ∈ walMerge content left right ↔
      j ∈ right ∨ j ∈ left ∧ ∀ r ∈ right, content r ≠ content j := by
  fun_induction walMerge with
  | case1 => simp [Ascending]
  | case2 l left ih =>
    obtain ⟨hlt, hleft⟩ := pairwise_cons.mp hleft
    obtain ⟨hout, hmem⟩ := ih (ascending_skip hleft) hright
    obtain ⟨hasc, hmem⟩ := merge_step hleft (fun x hx => (hlt x hx).le) (by simp) hout hmem
    refine ⟨hasc, fun j => (hmem j).trans ?_⟩
    grind
  | case3 r right ih =>
    obtain ⟨hlt, hright⟩ := pairwise_cons.mp hright
    obtain ⟨hout, hmem⟩ := ih hleft hright
    obtain ⟨hasc, hmem⟩ := merge_step hleft (by simp) hlt hout hmem
    exact ⟨hasc, fun j => (hmem j).trans (by simp)⟩
  | case4 l left r right h ih =>
    obtain ⟨hlt, hleft⟩ := pairwise_cons.mp hleft
    obtain ⟨hout, hmem⟩ := ih (ascending_skip hleft) hright
    have hright' : ∀ x ∈ r :: right, content l < content x :=
      forall_mem_cons.mpr ⟨h, fun x hx => h.trans ((pairwise_cons.mp hright).1 x hx)⟩
    obtain ⟨hasc, hmem⟩ := merge_step hleft (fun x hx => (hlt x hx).le) hright' hout hmem
    refine ⟨hasc, fun j => (hmem j).trans ?_⟩
    grind
  | case5 l left r right h ih =>
    obtain ⟨hlt, hright⟩ := pairwise_cons.mp hright
    obtain ⟨hout, hmem⟩ := ih (ascending_skip hleft) hright
    have hleft' : ∀ x ∈ l :: left, content r ≤ content x :=
      forall_mem_cons.mpr ⟨not_lt.mp h,
        fun x hx => (not_lt.mp h).trans ((pairwise_cons.mp hleft).1 x hx).le⟩
    obtain ⟨hasc, hmem⟩ := merge_step hleft hleft' hlt hout hmem
    refine ⟨hasc, fun j => (hmem j).trans ?_⟩
    grind

/-- The list has, in the order of their pages, the last index of each page in the range. -/
structure Latest (content : Nat → Nat) (a b : Nat) (l : List Nat) : Prop where
  ascending : Ascending content l
  mem_iff : ∀ j, j ∈ l ↔ a ≤ j ∧ j < b ∧ ∀ k, j < k → k < b → content k ≠ content j

theorem Latest.exists_mem (h : Latest content a b l) (ha : a ≤ k) (hb : k < b) :
    ∃ r ∈ l, content r = content k := by
  induction hn : b - k using Nat.strong_induction_on generalizing k with
  | _ n ih =>
    by_cases hlast : ∀ k', k < k' → k' < b → content k' ≠ content k
    · exact ⟨k, (h.mem_iff k).mpr ⟨ha, hb, hlast⟩, rfl⟩
    · push Not at hlast
      obtain ⟨k', hlt, hb', heq⟩ := hlast
      obtain ⟨r, hr, hcontent⟩ := ih (b - k') (by omega) (by omega) hb' rfl
      exact ⟨r, hr, hcontent.trans heq⟩

theorem Latest.merge (hleft : Latest content a m left) (hright : Latest content m b right)
    (ham : a ≤ m) (hmb : m ≤ b) : Latest content a b (walMerge content left right) := by
  obtain ⟨hasc, hmem⟩ := walMerge_spec hleft.ascending hright.ascending
  refine ⟨hasc, fun j => (hmem j).trans ?_⟩
  rw [hleft.mem_iff, hright.mem_iff]
  constructor
  · rintro (⟨hm, hb, hlast⟩ | ⟨⟨ha, hm, hlast⟩, hother⟩)
    · exact ⟨ham.trans hm, hb, hlast⟩
    · refine ⟨ha, hm.trans_le hmb, fun k hjk hkb heq => ?_⟩
      rcases lt_or_ge k m with hkm | hmk
      · exact hlast k hjk hkm heq
      · obtain ⟨r, hr, hcontent⟩ := hright.exists_mem hmk hkb
        exact hother r hr (hcontent.trans heq)
  · rintro ⟨ha, hb, hlast⟩
    rcases lt_or_ge j m with hjm | hmj
    · refine .inr ⟨⟨ha, hjm, fun k hjk hkm => hlast k hjk (hkm.trans_le hmb)⟩, fun r hr => ?_⟩
      obtain ⟨hmr, hrb, -⟩ := (hright.mem_iff r).mp hr
      exact hlast r (hjm.trans_le hmr) hrb
    · exact .inl ⟨hmj, hb, hlast⟩

theorem latest_singleton (n : Nat) : Latest content n (n + 1) [n] := by
  refine ⟨pairwise_singleton _ _, fun j => ?_⟩
  rw [mem_singleton]
  constructor
  · rintro rfl
    exact ⟨le_rfl, Nat.lt_succ_self j, fun k h h' => by omega⟩
  · rintro ⟨h, h', -⟩
    omega

/-- The sublists hold the ranges that the bits of `n` cut out of the first `n` indexes. -/
def Held (content : Nat → Nat) (aSub : Nat → List Nat) (n : Nat) : Prop :=
  ∀ k, n.testBit k → Latest content ((n / 2 ^ k - 1) * 2 ^ k) (n / 2 ^ k * 2 ^ k) (aSub k)

theorem div_pow_succ (n k : Nat) : n / 2 ^ (k + 1) = n / 2 ^ k / 2 := by
  rw [pow_succ, Nat.div_div_eq_div_mul]

/-- The bounds of a block of the next size, at a bit that is set. -/
theorem block_odd (h : n.testBit k) :
    (n / 2 ^ k - 1) * 2 ^ k = n / 2 ^ (k + 1) * 2 ^ (k + 1) ∧
      (n / 2 ^ k + 1) * 2 ^ k = (n / 2 ^ (k + 1) + 1) * 2 ^ (k + 1) := by
  rw [Nat.testBit_eq_decide_div_mod_eq, decide_eq_true_eq] at h
  rw [div_pow_succ, pow_succ', ← mul_assoc, ← mul_assoc]
  generalize n / 2 ^ k = q at h ⊢
  exact ⟨congrArg (· * 2 ^ k) (by omega), congrArg (· * 2 ^ k) (by omega)⟩

theorem block_even (h : ¬ n.testBit k) : n / 2 ^ k * 2 ^ k = n / 2 ^ (k + 1) * 2 ^ (k + 1) := by
  rw [Nat.testBit_eq_decide_div_mod_eq, decide_eq_true_eq] at h
  rw [div_pow_succ, pow_succ', ← mul_assoc]
  generalize n / 2 ^ k = q at h ⊢
  exact congrArg (· * 2 ^ k) (by omega)

theorem carry_spec (hheld : Held content aSub n) (hn : n < 2 ^ 12) (fuel k : Nat) (m : List Nat)
    (hk : k + fuel = nSub) (hblock : (n / 2 ^ k + 1) * 2 ^ k = n + 1)
    (hm : Latest content (n / 2 ^ k * 2 ^ k) (n + 1) m) : let r := carry content aSub n fuel k m
    r.1 < nSub ∧ ¬ n.testBit r.1 ∧ (n / 2 ^ r.1 + 1) * 2 ^ r.1 = n + 1 ∧
      Latest content (n / 2 ^ r.1 * 2 ^ r.1) (n + 1) r.2 := by
  induction fuel generalizing k m with
  | zero =>
    obtain rfl : k = 13 := hk
    omega
  | succ fuel ih =>
    rw [carry]
    by_cases h : n.testBit k
    · rw [if_pos h]
      have hmerge := (hheld k h).merge hm (Nat.mul_le_mul_right _ (Nat.sub_le _ _))
        ((Nat.div_mul_le_self n _).trans (Nat.le_succ n))
      rw [(block_odd h).1] at hmerge
      exact ih (k + 1) _ (by omega) ((block_odd h).2.symm.trans hblock) hmerge
    · rw [if_neg h]
      exact ⟨by omega, h, hblock, hm⟩

theorem collect_spec (hheld : Held content aSub n) (hn : n ≤ 2 ^ 12) (fuel k : Nat) (m : List Nat)
    (hk : k + fuel = nSub) (hm : Latest content (n / 2 ^ k * 2 ^ k) n m) :
    Latest content 0 n (collect content aSub n fuel k m) := by
  induction fuel generalizing k m with
  | zero =>
    obtain rfl : k = 13 := hk
    rwa [Nat.div_eq_of_lt (by omega), Nat.zero_mul] at hm
  | succ fuel ih =>
    rw [collect]
    refine ih (k + 1) _ (by omega) ?_
    split_ifs with h
    · rw [← (block_odd h).1]
      exact (hheld k h).merge hm (Nat.mul_le_mul_right _ (Nat.sub_le _ _)) (Nat.div_mul_le_self n _)
    · rwa [← block_even h]

/-- Counting on: the low bits fall to zero, one bit is set and the higher ones stay. -/
theorem succ_blocks (hbit : ¬ n.testBit i) (hblock : (n / 2 ^ i + 1) * 2 ^ i = n + 1) :
    (n + 1) / 2 ^ i = n / 2 ^ i + 1 ∧ (∀ k < i, ¬ (n + 1).testBit k) ∧
      ∀ k, i < k → (n + 1) / 2 ^ k = n / 2 ^ k := by
  have hself : (n + 1) / 2 ^ i = n / 2 ^ i + 1 := by
    rw [← hblock, Nat.mul_div_cancel _ (Nat.two_pow_pos i)]
  refine ⟨hself, fun k hk => ?_, fun k hk => ?_⟩
  · obtain ⟨d, rfl⟩ := Nat.exists_eq_add_of_lt hk
    rw [Nat.testBit_eq_decide_div_mod_eq, decide_eq_true_eq, ← hblock,
      show 2 ^ (k + d + 1) = 2 * 2 ^ d * 2 ^ k by ring, ← mul_assoc,
      Nat.mul_div_cancel _ (Nat.two_pow_pos k), mul_left_comm]
    omega
  · rw [Nat.testBit_eq_decide_div_mod_eq, decide_eq_true_eq] at hbit
    obtain ⟨d, rfl⟩ := Nat.exists_eq_add_of_lt hk
    rw [show 2 ^ (i + d + 1) = 2 ^ i * 2 * 2 ^ d by ring, ← Nat.div_div_eq_div_mul,
      ← Nat.div_div_eq_div_mul, ← Nat.div_div_eq_div_mul, ← Nat.div_div_eq_div_mul, hself]
    generalize n / 2 ^ i = q at hbit ⊢
    exact congrArg (· / 2 ^ d) (by omega)

/-- What the first loop has done after `n` elements. -/
structure Counts (content : Nat → Nat) (n : Nat) (s : Sublists) : Prop where
  held : Held content s.aSub n
  iSub_lt : s.iSub < nSub
  last : 0 < n → Latest content (n / 2 ^ (s.iSub + 1) * 2 ^ (s.iSub + 1)) n s.aMerge

theorem counts_sublists (hn : n ≤ 2 ^ 12) : Counts content n (sublists content n) := by
  induction n with
  | zero => exact ⟨fun k h => by simp at h, by simp [sublists, nSub],
      fun h => absurd h (lt_irrefl 0)⟩
  | succ n ih =>
    have hs := ih (by omega)
    obtain ⟨hlt, hbit, hblock, hlatest⟩ := carry_spec hs.held hn nSub 0 [n] (by omega) (by simp)
      (by simpa using latest_singleton n)
    rw [sublists]
    generalize carry content (sublists content n).aSub n nSub 0 [n] = r at hlt hbit hblock hlatest ⊢
    obtain ⟨iSub, aMerge⟩ := r
    dsimp only at hlt hbit hblock hlatest ⊢
    obtain ⟨hself, hlow, hhigh⟩ := succ_blocks hbit hblock
    refine ⟨fun k hk => ?_, hlt, fun _ => ?_⟩
    · rcases lt_trichotomy k iSub with h | rfl | h
      · exact absurd hk (hlow k h)
      · simp only [update_self, hself, Nat.add_sub_cancel, hblock]
        exact hlatest
      · simp only [update_of_ne h.ne', hhigh k h]
        refine hs.held k ?_
        rwa [Nat.testBit_eq_decide_div_mod_eq, hhigh k h, ← Nat.testBit_eq_decide_div_mod_eq] at hk
    · rw [hhigh _ (Nat.lt_succ_self iSub), ← block_even hbit]
      exact hlatest

theorem latest_walMergesort (hpos : 0 < n) (hn : n ≤ 4096) :
    Latest content 0 n (walMergesort content n) := by
  have hs := @counts_sublists content n hn
  exact collect_spec hs.held hn _ _ _ (by have := hs.iSub_lt; omega) (hs.last hpos)

end SqlCipher.Wal
