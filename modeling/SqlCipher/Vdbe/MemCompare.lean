import Mathlib
import SqlCipher.Library.Comparison

/-!
# The order of values

`sqlite3MemCompare()` orders the values of memory cells: `NULL` first, then numbers, then text by
its collating sequence and blobs last. Integers are compared with reals by
`sqlite3IntFloatCompare()`, which converts in both directions; the conversion of an integer to a
`double` rounds, and the comparison is exact all the same.
-/

namespace SqlCipher.Vdbe

open Comparison List

/-- The rationals and the two infinities. -/
abbrev Extended := WithBot (WithTop ℚ)

def Extended.of (q : ℚ) : Extended := ((q : WithTop ℚ) : WithBot (WithTop ℚ))

@[simp]
theorem Extended.of_lt_of : Extended.of p < Extended.of q ↔ p < q := by
  simp [Extended.of]

@[simp]
theorem Extended.of_le_of : Extended.of p ≤ Extended.of q ↔ p ≤ q := by
  simp [Extended.of]

/-- A `double` other than NaN. The value of `finite m e` is `m * 2 ^ e`. -/
inductive Double
  | finite (m e : Int) (hm : m.natAbs ≤ 2 ^ 53)
  | inf (neg : Bool)

namespace Double

def finiteValue (m e : Int) : ℚ := m * 2 ^ e

def value : Double → Extended
  | finite m e _ => .of (finiteValue m e)
  | inf neg => if neg then ⊥ else ⊤

def trunc : Double → Int
  | finite m e _ => if 0 ≤ finiteValue m e then ⌊finiteValue m e⌋ else ⌈finiteValue m e⌉
  | inf _ => 0

def excess (n : Nat) : Nat := n.log2 - 52

def significand (n : Nat) : Nat :=
  let q := n / 2 ^ excess n
  let r := n % 2 ^ excess n
  if 2 * r < 2 ^ excess n then q else if 2 ^ excess n < 2 * r then q + 1 else q + q % 2

theorem significand_le (n : Nat) : significand n ≤ 2 ^ 53 := by
  have hq : n / 2 ^ excess n < 2 ^ 53 := by
    rw [Nat.div_lt_iff_lt_mul (by positivity), ← pow_add]
    exact Nat.lt_log2_self.trans_le (Nat.pow_le_pow_right two_pos (by unfold excess; omega))
  unfold significand
  simp only
  split_ifs <;> omega

def ofInt (i : Int) : Double :=
  finite (i.sign * significand i.natAbs) (excess i.natAbs) (by
    rw [Int.natAbs_mul, Int.natAbs_natCast, Int.natAbs_sign]
    split_ifs
    · simp
    · rw [one_mul]
      exact significand_le _)

/-- A number whose significand has at most 53 bits is converted without a loss. -/
theorem significand_mul (hn : n = c * 2 ^ k) (hc : c ≤ 2 ^ 53) :
    significand n * 2 ^ excess n = n := by
  have hdvd : 2 ^ excess n ∣ n := by
    rcases Nat.eq_zero_or_pos n with rfl | hpos
    · exact dvd_zero _
    rcases hc.lt_or_eq with hlt | rfl
    · have hle : excess n ≤ k := by
        by_contra! hk
        have hlog : 2 ^ (52 + excess n) ≤ n := by
          rw [show 52 + excess n = n.log2 by unfold excess at hk ⊢; omega]
          exact Nat.log2_self_le hpos.ne'
        have : n < 2 ^ (52 + excess n) := calc
          n < 2 ^ 53 * 2 ^ k := by
            rw [hn]
            exact (Nat.mul_lt_mul_right (by positivity)).mpr hlt
          _ = 2 ^ (53 + k) := (pow_add 2 53 k).symm
          _ ≤ 2 ^ (52 + excess n) := Nat.pow_le_pow_right two_pos (by omega)
        omega
      have hdvd : 2 ^ excess n ∣ c * 2 ^ k := (pow_dvd_pow 2 hle).mul_left c
      rwa [← hn] at hdvd
    · rw [← pow_add] at hn
      have hexcess : excess n = k + 1 := by
        rw [excess, hn, Nat.log2_two_pow]
        omega
      rw [hexcess, hn]
      exact pow_dvd_pow 2 (by omega)
  have hrem : n % 2 ^ excess n = 0 := Nat.mod_eq_zero_of_dvd hdvd
  have hpow : 0 < 2 ^ excess n := by positivity
  simp only [significand, hrem, mul_zero, hpow, if_true]
  exact Nat.div_mul_cancel hdvd

theorem value_ofInt (hi : i.natAbs = c * 2 ^ k) (hc : c ≤ 2 ^ 53) : (ofInt i).value = .of i := by
  have hnat : ((significand i.natAbs : ℤ) * 2 ^ excess i.natAbs) = i.natAbs := by
    exact_mod_cast significand_mul hi hc
  have hint : i.sign * significand i.natAbs * 2 ^ excess i.natAbs = i := by
    rw [mul_assoc, hnat, Int.sign_mul_natAbs]
  simp only [ofInt, value, finiteValue, zpow_natCast]
  exact congrArg Extended.of (by exact_mod_cast hint)

theorem trunc_of_nonneg {hm} (hk : 0 ≤ k) :
    finiteValue m k = (trunc (finite m k hm) : ℚ) ∧ (trunc (finite m k hm)) = m * 2 ^ k.toNat := by
  obtain ⟨k, rfl⟩ := Int.eq_ofNat_of_zero_le hk
  have hvalue : finiteValue m k = ((m * 2 ^ k : Int) : ℚ) := by simp [finiteValue]
  have htrunc : trunc (finite m k hm) = m * 2 ^ k := by
    simp only [trunc, hvalue, Int.floor_intCast, Int.ceil_intCast, ite_self]
  exact ⟨hvalue.trans (by rw [htrunc]), htrunc⟩

theorem natAbs_trunc_le {hm} (hk : k < 0) : (trunc (finite m k hm)).natAbs ≤ 2 ^ 53 := by
  have hpow : (2 : ℚ) ^ k ≤ 1 := zpow_le_one_of_nonpos₀ one_le_two hk.le
  have hpos : (0 : ℚ) < 2 ^ k := by positivity
  have habs : |finiteValue m k| ≤ (2 ^ 53 : ℤ) := by
    rw [finiteValue, abs_mul, abs_of_pos hpos]
    have hm' : |(m : ℚ)| ≤ (2 ^ 53 : ℤ) := by
      rw [← Int.cast_abs]
      exact_mod_cast (Int.abs_eq_natAbs m).trans_le (by exact_mod_cast hm)
    calc |(m : ℚ)| * 2 ^ k ≤ |(m : ℚ)| * 1 := by gcongr
      _ ≤ _ := by rwa [mul_one]
  obtain ⟨hlow, hhigh⟩ := abs_le.mp habs
  have hbounds : -2 ^ 53 ≤ trunc (finite m k hm) ∧ trunc (finite m k hm) ≤ 2 ^ 53 := by
    simp only [trunc]
    split_ifs
    · exact ⟨Int.le_floor.mpr (by exact_mod_cast hlow),
        by exact_mod_cast (Int.floor_le _).trans hhigh⟩
    · exact ⟨by exact_mod_cast hlow.trans (Int.le_ceil _), Int.ceil_le.mpr hhigh⟩
  omega

/-- The rounding of the second conversion does not show where the first one gave `i`. -/
theorem value_ofInt_trunc {hm} :
    (ofInt (trunc (finite m k hm))).value = .of (trunc (finite m k hm)) := by
  rcases le_or_gt 0 k with hk | hk
  · refine value_ofInt (c := m.natAbs) (k := k.toNat) ?_ hm
    rw [(trunc_of_nonneg hk).2, Int.natAbs_mul, Int.natAbs_pow]
    rfl
  · exact value_ofInt (k := 0) (mul_one _).symm (natAbs_trunc_le hk)

theorem lt_of_lt_trunc {hm} (h : i < trunc (finite m k hm)) : (i : ℚ) < finiteValue m k := by
  simp only [trunc] at h
  split_ifs at h
  · exact (Int.cast_lt.mpr h).trans_le (Int.floor_le _)
  · exact Int.lt_ceil.mp h

theorem lt_of_trunc_lt {hm} (h : trunc (finite m k hm) < i) : finiteValue m k < i := by
  simp only [trunc] at h
  split_ifs at h
  · exact Int.floor_lt.mp h
  · exact (Int.le_ceil _).trans_lt (Int.cast_lt.mpr h)

end Double

def intFloatCompare (i : Int64) (r : Double) : Int :=
  if r.value < .of (-9223372036854775808) then 1
  else if r.value ≥ .of 9223372036854775808 then -1
  else
    let y := r.trunc
    if i.toInt < y then -1
    else if i.toInt > y then 1
    else if (Double.ofInt i.toInt).value < r.value then -1
    else if (Double.ofInt i.toInt).value > r.value then 1 else 0

theorem intFloatCompare_eq (i : Int64) (r : Double) :
    intFloatCompare i r = ofLT (.of i.toInt) r.value := by
  have hlow : Extended.of (-9223372036854775808) ≤ .of i.toInt :=
    Extended.of_le_of.mpr (by exact_mod_cast i.le_toInt)
  have hhigh : Extended.of i.toInt < .of 9223372036854775808 :=
    Extended.of_lt_of.mpr (by exact_mod_cast i.toInt_lt)
  unfold intFloatCompare
  by_cases h1 : r.value < .of (-9223372036854775808)
  · rw [if_pos h1, ofLT_of_gt (h1.trans_le hlow)]
  by_cases h2 : r.value ≥ .of 9223372036854775808
  · rw [if_neg h1, if_pos h2, ofLT_of_lt (hhigh.trans_le h2)]
  rw [if_neg h1, if_neg h2]
  cases r with
  | inf neg => cases neg <;> simp [Double.value, Extended.of] at h1 h2
  | finite m k hm =>
    rcases lt_trichotomy i.toInt (Double.finite m k hm).trunc with h | h | h
    · have hlt : Extended.of i.toInt < (Double.finite m k hm).value :=
        Extended.of_lt_of.mpr (Double.lt_of_lt_trunc h)
      simp only [ofLT_of_lt hlt, if_pos h]
    · have hexact : (Double.ofInt i.toInt).value = .of i.toInt := by
        rw [h, Double.value_ofInt_trunc]
      simp only [if_neg h.not_lt, gt_iff_lt, if_neg h.not_gt, hexact]
      rfl
    · have hgt : (Double.finite m k hm).value < .of i.toInt :=
        Extended.of_lt_of.mpr (Double.lt_of_trunc_lt h)
      simp only [ofLT_of_gt hgt, if_neg h.asymm, gt_iff_lt, if_pos h]

def memcmp : List UInt8 → List UInt8 → Nat → Int
  | x :: z1, y :: z2, n + 1 => if x = y then memcmp z1 z2 n else (x.toNat : Int) - y.toNat
  | _, _, _ => 0

inductive Content
  | bytes (z : List UInt8)
  | zero (nZero : Nat)

def isAllZero (z : List UInt8) : Bool := z.all (· == 0)

def blobCompare : Content → Content → Int
  | .zero n1, .zero n2 => n1 - n2
  | .zero n1, .bytes z2 => if !isAllZero z2 then -1 else n1 - z2.length
  | .bytes z1, .zero n2 => if !isAllZero z1 then 1 else z1.length - n2
  | .bytes z1, .bytes z2 =>
    let c := memcmp z1 z2 (if z1.length > z2.length then z2.length else z1.length)
    if c ≠ 0 then c else z1.length - z2.length

def Content.expand : Content → List Nat
  | bytes z => z.map UInt8.toNat
  | zero n => replicate n 0

theorem sign_sub (a b : Nat) : ((a : Int) - b).sign = ofLT a b := by
  rcases lt_trichotomy a b with h | rfl | h
  · rw [ofLT_of_lt h, Int.sign_eq_neg_one_of_neg (by omega)]
  · simp [ofLT]
  · rw [ofLT_of_gt h, Int.sign_eq_one_of_pos (by omega)]

theorem blobCompare_cons (x y : UInt8) (z1 z2 : List UInt8) :
    blobCompare (.bytes (x :: z1)) (.bytes (y :: z2)) =
      if x = y then blobCompare (.bytes z1) (.bytes z2) else (x.toNat : Int) - y.toNat := by
  have hmin : (if (x :: z1).length > (y :: z2).length then (y :: z2).length else (x :: z1).length) =
      (if z1.length > z2.length then z2.length else z1.length) + 1 := by
    simp only [length_cons]
    split_ifs <;> omega
  simp only [blobCompare, hmin, memcmp]
  by_cases h : x = y
  · simp [h]
  · have hne : (x.toNat : Int) - y.toNat ≠ 0 := by
      simp [sub_eq_zero, UInt8.toNat_inj, h]
    simp [h, hne]

theorem sign_blobCompare_bytes (z1 z2 : List UInt8) :
    (blobCompare (.bytes z1) (.bytes z2)).sign =
      ofLT (Content.bytes z1).expand (Content.bytes z2).expand := by
  induction z1 generalizing z2 with
  | nil =>
    cases z2 with
    | nil => rfl
    | cons y z2 =>
      rw [Content.expand, Content.expand, map_cons, map_nil, ofLT_nil_cons]
      simp [blobCompare, memcmp]
      omega
  | cons x z1 ih =>
    cases z2 with
    | nil =>
      rw [Content.expand, Content.expand, map_cons, map_nil, ofLT_swap, ofLT_nil_cons]
      rfl
    | cons y z2 =>
      rw [blobCompare_cons, Content.expand, Content.expand, map_cons, map_cons, ofLT_cons]
      by_cases h : x = y
      · rw [if_pos h, if_pos (congrArg _ h), ih, Content.expand, Content.expand]
      · rw [if_neg h, if_neg (mt UInt8.toNat_inj.mp h), sign_sub]

theorem sign_blobCompare_zero (n : Nat) (z : List UInt8) :
    (blobCompare (.zero n) (.bytes z)).sign =
      ofLT (Content.zero n).expand (Content.bytes z).expand := by
  induction z generalizing n with
  | nil =>
    cases n with
    | zero => rfl
    | succ n =>
      rw [Content.expand, Content.expand, replicate_succ, map_nil, ofLT_swap, ofLT_nil_cons]
      rfl
  | cons y z ih =>
    cases n with
    | zero =>
      rw [Content.expand, Content.expand, map_cons, replicate_zero, ofLT_nil_cons]
      simp only [blobCompare]
      split_ifs
      · rfl
      · exact Int.sign_eq_neg_one_of_neg (by simp; omega)
    | succ n =>
      rw [Content.expand, Content.expand, replicate_succ, map_cons, ofLT_cons]
      by_cases h : y = 0
      · rw [if_pos (by rw [h]; rfl)]
        have := ih n
        simpa [blobCompare, isAllZero, h, Content.expand] using this
      · have hpos : 0 < y.toNat := Nat.pos_of_ne_zero fun h0 => h (UInt8.toNat_inj.mp h0)
        rw [if_neg hpos.ne, ofLT_of_lt hpos]
        simp [blobCompare, isAllZero, h]

theorem sign_blobCompare (b1 b2 : Content) :
    (blobCompare b1 b2).sign = ofLT b1.expand b2.expand := by
  match b1, b2 with
  | .bytes z1, .bytes z2 => exact sign_blobCompare_bytes z1 z2
  | .zero n, .bytes z => exact sign_blobCompare_zero n z
  | .bytes z, .zero n =>
    have hneg : blobCompare (.bytes z) (.zero n) = -blobCompare (.zero n) (.bytes z) := by
      simp only [blobCompare]
      split_ifs <;> omega
    rw [hneg, Int.sign_neg, sign_blobCompare_zero, ← ofLT_swap]
  | .zero n1, .zero n2 =>
    have hbytes := sign_blobCompare_zero n1 (replicate n2 0)
    simpa [blobCompare, isAllZero, Content.expand] using hbytes

inductive Encoding
  | utf8
  | utf16le
  | utf16be
deriving DecidableEq

/-- A collating sequence, with the encoding in which it takes its arguments. -/
structure CollSeq where
  enc : Encoding
  xCmp : List UInt8 → List UInt8 → Int

/-- A memory cell. `MEM_IntReal` is an integer that stands for a real. -/
inductive Mem
  | null
  | int (i : Int64) (intReal : Bool)
  | real (r : Double)
  | str (z : List UInt8)
  | blob (b : Content)

section Compare

-- The encoding of the database, and the text of a value in the encoding of a collating sequence.
variable (enc : Encoding) (valueText : Encoding → List UInt8 → List UInt8)

def vdbeCompareMemString (z1 z2 : List UInt8) (pColl : CollSeq) : Int :=
  if enc = pColl.enc then pColl.xCmp z1 z2
  else pColl.xCmp (valueText pColl.enc z1) (valueText pColl.enc z2)

def memCompare (pColl : Option CollSeq) : Mem → Mem → Int
  | .null, .null => 0
  | .null, _ => -1
  | _, .null => 1
  | .int i _, .int j _ => if i < j then -1 else if i > j then 1 else 0
  | .real r, .real s => if r.value < s.value then -1 else if r.value > s.value then 1 else 0
  | .int i _, .real r => intFloatCompare i r
  | .int _ _, _ => -1
  | .real r, .int i _ => -intFloatCompare i r
  | .real _, _ => -1
  | _, .int _ _ => 1
  | _, .real _ => 1
  | .blob _, .str _ => 1
  | .str _, .blob _ => -1
  | .str z1, .str z2 =>
    match pColl with
    | some coll => vdbeCompareMemString enc valueText z1 z2 coll
    | none => blobCompare (.bytes z1) (.bytes z2)
  | .blob b1, .blob b2 => blobCompare b1 b2

def Mem.rank : Mem → Nat
  | null => 0
  | int _ _ => 1
  | real _ => 1
  | str _ => 2
  | blob _ => 3

def Mem.number : Mem → Extended
  | int i _ => .of i.toInt
  | real r => r.value
  | _ => ⊥

def Mem.text : Mem → List UInt8
  | str z => z
  | _ => []

def Mem.content : Mem → Content
  | blob b => b
  | _ => .zero 0

theorem memCompare_rank (pColl : Option CollSeq) (m1 m2 : Mem) (h : m1.rank < m2.rank) :
    memCompare enc valueText pColl m1 m2 < 0 ∧ 0 < memCompare enc valueText pColl m2 m1 := by
  cases m1 <;> cases m2 <;> simp_all [Mem.rank, memCompare]

theorem memCompare_number (pColl : Option CollSeq) (m1 m2 : Mem) (h1 : m1.rank = 1)
    (h2 : m2.rank = 1) : memCompare enc valueText pColl m1 m2 = ofLT m1.number m2.number := by
  cases m1 <;> cases m2 <;> simp only [Mem.rank, reduceCtorEq, OfNat.ofNat_ne_one] at h1 h2
  · simp [memCompare, Mem.number, ofLT, Int64.lt_iff_toInt_lt]
  · exact intFloatCompare_eq _ _
  · rw [memCompare, intFloatCompare_eq, ← ofLT_swap]
    rfl
  · rfl

theorem isPreorder_blobCompare : IsPreorder blobCompare :=
  (isPreorder_ofLT.comap Content.expand).of_sign fun b1 b2 => by rw [sign_blobCompare, sign_ofLT]

variable {pColl : Option CollSeq}

theorem isPreorder_text (hcoll : ∀ coll ∈ pColl, IsPreorder coll.xCmp) :
    IsPreorder fun z1 z2 => memCompare enc valueText pColl (.str z1) (.str z2) := by
  cases pColl with
  | none => exact isPreorder_blobCompare.comap Content.bytes
  | some coll =>
    have hxCmp := hcoll coll rfl
    simp only [memCompare, vdbeCompareMemString]
    split_ifs
    · exact hxCmp
    · exact hxCmp.comap (valueText coll.enc)

/-- The comparison of memory cells orders them, and compares integers with reals exactly. -/
theorem memCompare_isPreorder (hcoll : ∀ coll ∈ pColl, IsPreorder coll.xCmp) :
    IsPreorder (memCompare enc valueText pColl) ∧
      (∀ i intReal m e hm,
        SignType.sign (memCompare enc valueText pColl (.int i intReal) (.real (.finite m e hm))) =
          SignType.sign ((i.toInt : ℚ) - m * 2 ^ e)) ∧
      ∀ i intReal neg, memCompare enc valueText pColl (.int i intReal) (.real (.inf neg)) =
        if neg then 1 else -1 := by
  refine ⟨.of_rank Mem.rank (memCompare_rank enc valueText pColl) fun n => ?_, ?_, ?_⟩
  · match n with
    | 0 =>
      refine ⟨fun _ _ => 0, ⟨fun _ _ => rfl, fun _ _ _ _ h => h⟩, fun m1 m2 h1 h2 => ?_⟩
      cases m1 <;> cases m2 <;> simp_all [Mem.rank, memCompare]
    | 1 =>
      refine ⟨_, isPreorder_ofLT.comap Mem.number, fun m1 m2 h1 h2 => ?_⟩
      rw [memCompare_number enc valueText pColl m1 m2 h1 h2]
    | 2 =>
      refine ⟨_, (isPreorder_text enc valueText hcoll).comap Mem.text, fun m1 m2 h1 h2 => ?_⟩
      cases m1 <;> cases m2 <;> simp_all [Mem.rank, Mem.text]
    | 3 =>
      refine ⟨_, isPreorder_blobCompare.comap Mem.content, fun m1 m2 h1 h2 => ?_⟩
      cases m1 <;> cases m2 <;> simp_all [Mem.rank, Mem.content, memCompare]
    | n + 4 =>
      refine ⟨_, isPreorder_ofLT.comap Mem.number, fun m1 m2 h1 h2 => ?_⟩
      cases m1 <;> simp [Mem.rank] at h1
  · intro i intReal m e hm
    rw [memCompare_number _ _ _ _ _ rfl rfl]
    simp only [Mem.number, Double.value, Double.finiteValue]
    rcases lt_trichotomy (i.toInt : ℚ) (m * 2 ^ e) with h | h | h
    · rw [ofLT_of_lt (Extended.of_lt_of.mpr h), sign_neg (sub_neg.mpr h)]
      rfl
    · rw [h, sub_self]
      simp [ofLT]
    · rw [ofLT_of_gt (Extended.of_lt_of.mpr h), sign_pos (sub_pos.mpr h)]
      rfl
  · intro i intReal neg
    rw [memCompare_number _ _ _ _ _ rfl rfl]
    cases neg <;> simp [Mem.number, Double.value, Extended.of, ofLT]

def binary : CollSeq := ⟨.utf8, fun z1 z2 => blobCompare (.bytes z1) (.bytes z2)⟩

theorem memCompare_isPreorder_binary : IsPreorder (memCompare .utf8 (fun _ z => z) (some binary)) :=
  (memCompare_isPreorder .utf8 (fun _ z => z) fun coll hcoll => by
    cases hcoll
    exact isPreorder_blobCompare.comap Content.bytes).1

end Compare

end SqlCipher.Vdbe
