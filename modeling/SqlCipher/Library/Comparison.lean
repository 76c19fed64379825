import Mathlib.Data.List.Lex
import Mathlib.Order.Lattice
import Mathlib.Data.Int.Order.Basic

/-!
# Three-way comparisons

A comparison returns a negative number, zero or a positive one, and only the sign means something.
`IsPreorder cmp` says that it orders its arguments: swapping them changes the sign, and "not
greater" is transitive.
-/

namespace Comparison

variable {α β : Type*}

structure IsPreorder (cmp : α → α → Int) : Prop where
  swap : ∀ a b, (cmp a b).sign = -(cmp b a).sign
  trans : ∀ a b c, cmp a b ≤ 0 → cmp b c ≤ 0 → cmp a c ≤ 0

def ofLT [LinearOrder α] (a b : α) : Int := if a < b then -1 else if b < a then 1 else 0

theorem nonpos_of_sign {x y : Int} (h : x.sign = y.sign) : x ≤ 0 ↔ y ≤ 0 := by
  rw [← Int.sign_nonpos_iff, h, Int.sign_nonpos_iff]

/-- Only the signs matter. -/
theorem IsPreorder.of_sign {cmp cmp' : α → α → Int} (h : IsPreorder cmp')
    (hsign : ∀ a b, (cmp a b).sign = (cmp' a b).sign) : IsPreorder cmp where
  swap a b := by rw [hsign, h.swap, hsign]
  trans a b c hab hbc :=
    (nonpos_of_sign (hsign a c)).mpr (h.trans a b c ((nonpos_of_sign (hsign a b)).mp hab)
      ((nonpos_of_sign (hsign b c)).mp hbc))

theorem IsPreorder.comap {cmp : α → α → Int} (h : IsPreorder cmp) (f : β → α) :
    IsPreorder fun a b => cmp (f a) (f b) :=
  ⟨fun a b => h.swap (f a) (f b), fun a b c => h.trans (f a) (f b) (f c)⟩

section LinearOrder

variable [LinearOrder α] {a b : α}

theorem ofLT_of_lt (h : a < b) : ofLT a b = -1 := if_pos h

theorem ofLT_of_gt (h : b < a) : ofLT a b = 1 := by rw [ofLT, if_neg h.asymm, if_pos h]

theorem ofLT_nonpos : ofLT a b ≤ 0 ↔ a ≤ b := by
  unfold ofLT
  split_ifs with h h'
  · simp [h.le]
  · simp [h']
  · simp [not_lt.mp h']

@[simp]
theorem sign_ofLT : (ofLT a b).sign = ofLT a b := by
  unfold ofLT
  split_ifs <;> rfl

theorem ofLT_swap (a b : α) : ofLT a b = -ofLT b a := by
  unfold ofLT
  split_ifs with h h'
  · exact absurd h' h.asymm
  all_goals rfl

theorem ofLT_cons (a b : α) (l m : List α) :
    ofLT (a :: l) (b :: m) = if a = b then ofLT l m else ofLT a b := by
  by_cases h : a = b
  · simp only [ofLT, h, List.cons_lt_cons_self, if_true]
    split_ifs <;> rfl
  · simp [ofLT, List.cons_lt_cons_iff, h, Ne.symm h]

theorem ofLT_nil_cons (b : α) (m : List α) : ofLT [] (b :: m) = -1 :=
  ofLT_of_lt (List.nil_lt_cons b m)

theorem isPreorder_ofLT : IsPreorder (ofLT (α := α)) where
  swap a b := by rw [sign_ofLT, sign_ofLT, ofLT_swap]
  trans a b c hab hbc := ofLT_nonpos.mpr ((ofLT_nonpos.mp hab).trans (ofLT_nonpos.mp hbc))

end LinearOrder

/-- Values of different ranks are ordered by rank, and those of one rank by the comparison. -/
theorem IsPreorder.of_rank {cmp : α → α → Int} (rank : α → Nat)
    (hlt : ∀ a b, rank a < rank b → cmp a b < 0 ∧ 0 < cmp b a)
    (hrank : ∀ n, ∃ cmp', IsPreorder cmp' ∧
      ∀ a b, rank a = n → rank b = n → (cmp a b).sign = (cmp' a b).sign) : IsPreorder cmp where
  swap a b := by
    rcases lt_trichotomy (rank a) (rank b) with h | h | h
    · rw [Int.sign_eq_neg_one_of_neg (hlt a b h).1, Int.sign_eq_one_of_pos (hlt a b h).2]
    · obtain ⟨cmp', hcmp', hsign⟩ := hrank (rank b)
      rw [hsign a b h rfl, hsign b a rfl h, hcmp'.swap]
    · rw [Int.sign_eq_neg_one_of_neg (hlt b a h).1, Int.sign_eq_one_of_pos (hlt b a h).2]
      rfl
  trans a b c hab hbc := by
    have hle : ∀ x y, cmp x y ≤ 0 → rank x ≤ rank y := fun x y hxy => by
      by_contra hgt
      exact absurd hxy (not_le.mpr (hlt y x (not_le.mp hgt)).2)
    rcases (hle a b hab).lt_or_eq with h | h
    · exact (hlt a c (h.trans_le (hle b c hbc))).1.le
    rcases (hle b c hbc).lt_or_eq with h' | h'
    · exact (hlt a c (h.trans_lt h')).1.le
    obtain ⟨cmp', hcmp', hsign⟩ := hrank (rank c)
    have hsame := fun x y hx hy => nonpos_of_sign (hsign x y hx hy)
    exact (hsame a c (h.trans h') rfl).mpr (hcmp'.trans a b c ((hsame a b (h.trans h') h').mp hab)
      ((hsame b c h' rfl).mp hbc))

end Comparison
