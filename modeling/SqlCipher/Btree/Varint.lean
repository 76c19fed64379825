import SqlCipher.Btree.MemPage

/-!
# Variable-length integers

A variable-length integer has one to nine bytes, most significant first. A byte with its high bit
set is followed by another, but the ninth is the last and gives all eight bits.

`util.c` has the readers `sqlite3GetVarint`, which removes the high bits afterwards, and
`sqlite3GetVarint32`; the b-tree has its own. All read what `sqlite3PutVarint` writes, in terms of
`varintLength`, `groups` and `varintValue`.
-/

namespace SqlCipher.Btree

/-! ## Reading and writing -/

/-- The bytes behind the fourth in `sqlite3GetVarint`: at most `n` of seven bits and a last one of
eight. -/
def varintTail (p : Bytes) : Nat → UInt64 → Nat → Nat → UInt64 × Nat
  | 0, iKey, i, k => ((iKey <<< 8) ^^^ 0x8000 ^^^ (p.getD (i + k) 0).toUInt64, k + 1)
  | n + 1, iKey, i, k =>
    let x := p.getD (i + k) 0
    let iKey := (iKey <<< 7) ^^^ 0x4000 ^^^ x.toUInt64
    if 0x80 ≤ x then varintTail p n iKey i (k + 1) else (iKey, k + 1)

def getVarint (p : Bytes) (i : Nat) : UInt64 × Nat :=
  let iKey := (p.getD i 0).toUInt64
  if 0x80 ≤ p.getD i 0 then
    let x := p.getD (i + 1) 0
    let iKey := (iKey <<< 7) ^^^ x.toUInt64
    if 0x80 ≤ x then
      let x := p.getD (i + 2) 0
      let iKey := (iKey <<< 7) ^^^ x.toUInt64
      if 0x80 ≤ x then
        let x := p.getD (i + 3) 0
        let iKey := (iKey <<< 7) ^^^ 0x10204000 ^^^ x.toUInt64
        if 0x80 ≤ x then varintTail p 4 iKey i 4 else (iKey, 4)
      else (iKey ^^^ 0x204000, 3)
    else (iKey ^^^ 0x4000, 2)
  else (iKey, 1)

/-- The bytes behind the fourth one in `sqlite3VarintValue`. -/
def valueTail (p : Bytes) : Nat → UInt64 → Nat → UInt64
  | 0, iKey, i => (iKey <<< 8) ^^^ 0x8000 ^^^ (p.getD i 0).toUInt64
  | n + 1, iKey, i =>
    let x := p.getD i 0
    let iKey := (iKey <<< 7) ^^^ 0x4000 ^^^ x.toUInt64
    if 0x80 ≤ x then valueTail p n iKey (i + 1) else iKey

def sqlite3VarintValue (p : Bytes) (i : Nat) : Int64 :=
  let iKey := (p.getD i 0).toUInt64
  let iKey :=
    if 0x80 ≤ p.getD i 0 then
      let x := p.getD (i + 1) 0
      let iKey := (iKey <<< 7) ^^^ x.toUInt64
      if 0x80 ≤ x then
        let x := p.getD (i + 2) 0
        let iKey := (iKey <<< 7) ^^^ x.toUInt64
        if 0x80 ≤ x then
          let x := p.getD (i + 3) 0
          let iKey := (iKey <<< 7) ^^^ 0x10204000 ^^^ x.toUInt64
          if 0x80 ≤ x then valueTail p 4 iKey (i + 4) else iKey
        else iKey ^^^ 0x204000
      else iKey ^^^ 0x4000
    else iKey
  iKey.toInt64

/-- `sqlite3GetVarint32`, for a value of more than one byte. -/
def sqlite3GetVarint32 (p : Bytes) (i : Nat) : Nat × Nat :=
  if byteAt p (i + 1) < 0x80 then (byteAt p i % 128 * 128 + byteAt p (i + 1), 2)
  else if byteAt p (i + 2) < 0x80 then
    ((byteAt p i % 128 * 128 + byteAt p (i + 1) % 128) * 128 + byteAt p (i + 2), 3)
  else
    let r := getVarint p i
    (if 2 ^ 32 ≤ r.1.toNat then 2 ^ 32 - 1 else r.1.toNat, r.2)

def getVarint32 (p : Bytes) (i : Nat) : Nat × Nat :=
  if byteAt p i < 0x80 then (byteAt p i, 1) else sqlite3GetVarint32 p i

/-- The last `n` groups of seven bits in front of `bytes`, each with the high bit. -/
def putGroups : Nat → Nat → Bytes → Bytes
  | 0, _, bytes => bytes
  | n + 1, v, bytes => putGroups n (v / 128) (UInt8.ofNat (v % 128 + 128) :: bytes)

/-- The loop of `putVarint64` that goes on until nothing is left of the value. -/
def putRest : Nat → Nat → Bytes → Bytes
  | 0, _, bytes => bytes
  | fuel + 1, v, bytes =>
    if v = 0 then bytes else putRest fuel (v / 128) (UInt8.ofNat (v % 128 + 128) :: bytes)

def putVarint64 (v : Nat) : Bytes :=
  if 2 ^ 56 ≤ v then putGroups 8 (v / 256) [UInt8.ofNat (v % 256)]
  else putRest 9 (v / 128) [UInt8.ofNat (v % 128)]

def putVarint (v : Nat) : Bytes :=
  if v ≤ 0x7f then [UInt8.ofNat v]
  else if v ≤ 0x3fff then [UInt8.ofNat (v / 128 % 128 + 128), UInt8.ofNat (v % 128)]
  else putVarint64 v

def varintLen (v : Nat) : Nat := if v / 128 = 0 then 1 else varintLen (v / 128) + 1

/-! ## What is there -/

def highBytes (p : Bytes) : Nat → Nat → Nat
  | 0, _ => 0
  | n + 1, i => if 128 ≤ byteAt p i then highBytes p n (i + 1) + 1 else 0

def varintLength (p : Bytes) (i : Nat) : Nat := highBytes p 8 i + 1

def groups (p : Bytes) (i : Nat) : Nat → Nat
  | 0 => 0
  | n + 1 => groups p i n * 128 + byteAt p (i + n) % 128

def valueOf (p : Bytes) (i n : Nat) : Nat :=
  if n = 9 then groups p i 8 * 256 + byteAt p (i + 8) else groups p i n

def varintValue (p : Bytes) (i : Nat) : Nat := valueOf p i (varintLength p i)

variable {p : Bytes} {i n k : Nat}

theorem byteAt_lt : byteAt p i < 256 := UInt8.toNat_lt _

theorem groups_lt : groups p i n < 128 ^ n := by
  induction n with
  | zero => simp [groups]
  | succ n ih =>
    have : byteAt p (i + n) % 128 < 128 := Nat.mod_lt _ (by decide)
    rw [groups, Nat.pow_succ]
    omega

theorem highBytes_le : highBytes p n i ≤ n := by
  induction n generalizing i with
  | zero => rfl
  | succ n ih =>
    rw [highBytes]
    split
    · exact Nat.succ_le_succ ih
    · exact Nat.zero_le _

theorem varintLength_le : varintLength p i ≤ 9 := Nat.succ_le_succ highBytes_le

theorem highBytes_of_high (h : 0x80 ≤ p.getD i 0) :
    highBytes p (n + 1) i = highBytes p n (i + 1) + 1 := by
  rw [highBytes, if_pos]
  exact h

theorem highBytes_of_low (h : ¬0x80 ≤ p.getD i 0) : highBytes p (n + 1) i = 0 := by
  rw [highBytes, if_neg]
  exact h

/-! ## The readers of the b-tree -/

theorem skipVarint_succ : skipVarint p (n + 1) i = i + highBytes p n i + 1 := by
  induction n generalizing i with
  | zero => simp [skipVarint, highBytes]
  | succ n ih =>
    rw [skipVarint, highBytes]
    split
    · rw [ih]
      omega
    · rfl

theorem skipVarint_eq : skipVarint p 9 i = i + varintLength p i := skipVarint_succ

theorem groups_succ : groups p i (n + 1) = groups p i n * 128 + byteAt p (i + n) % 128 := rfl

theorem varintRest_succ :
    varintRest p (n + 1) (groups p i (k + 1) % 2 ^ 32) (i + k) =
      (groups p i (k + highBytes p n (i + k + 1) + 2) % 2 ^ 32,
        i + k + highBytes p n (i + k + 1) + 1) := by
  have hnext : ∀ k, (groups p i (k + 1) % 2 ^ 32 * 128 + byteAt p (i + k + 1) % 128) % 2 ^ 32 =
      groups p i (k + 2) % 2 ^ 32 := by
    intro k
    have : groups p i (k + 2) = groups p i (k + 1) * 128 + byteAt p (i + k + 1) % 128 := rfl
    omega
  induction n generalizing k with
  | zero => simpa [varintRest, highBytes] using hnext k
  | succ n ih =>
    rw [varintRest, highBytes, hnext]
    split
    · have hrest := ih (k := k + 1)
      grind
    · rfl

/-- The payload size is read with seven bits from each byte, and what does not fit is lost. -/
theorem payloadSize_eq : payloadSize p i =
    (groups p i (varintLength p i) % 2 ^ 32, i + varintLength p i) := by
  have hone : groups p i 1 = byteAt p i % 128 := by simp [groups]
  rw [payloadSize, varintLength, highBytes]
  split
  · have hrest := varintRest_succ (p := p) (i := i) (n := 7) (k := 0)
    grind
  · grind

/-! ## `sqlite3GetVarint` -/

theorem xor_eq_add (hb : b < 2 ^ n) : a * 2 ^ n ^^^ b = a * 2 ^ n + b := by
  have hor := Nat.shiftLeft_add_eq_or_of_lt hb a
  rw [Nat.shiftLeft_eq] at hor
  rw [hor]
  apply Nat.eq_of_testBit_eq
  intro j
  by_cases hj : n ≤ j
  · have : b.testBit j = false :=
      Nat.testBit_lt_two_pow (hb.trans_le (Nat.pow_le_pow_right (by decide) hj))
    simp [this]
  · simp [Nat.testBit_mul_two_pow, hj]

theorem toNat_shift_xor (hm : m < 64) (hb : b.toNat < 2 ^ m) (ha : a.toNat * 2 ^ m < 2 ^ 64) :
    (a <<< UInt64.ofNat m ^^^ b).toNat = a.toNat * 2 ^ m + b.toNat := by
  have hm' : (UInt64.ofNat m).toNat % 64 = m := by
    rw [UInt64.toNat_ofNat_of_lt' (by simp [UInt64.size]; omega)]
    exact Nat.mod_eq_of_lt hm
  rw [UInt64.toNat_xor, UInt64.toNat_shiftLeft, hm', Nat.shiftLeft_eq, Nat.mod_eq_of_lt ha,
    xor_eq_add hb]

/-- The first `n` groups as the reader has them. -/
def key (p : Bytes) (i n : Nat) : UInt64 := UInt64.ofNat (groups p i n)

theorem toNat_key (hn : n ≤ 9) : (key p i n).toNat = groups p i n := by
  have hlt : groups p i n < 128 ^ 9 := groups_lt.trans_le (Nat.pow_le_pow_right (by decide) hn)
  exact UInt64.toNat_ofNat_of_lt' (by simp [UInt64.size]; omega)

def low (p : Bytes) (i : Nat) : UInt64 := UInt64.ofNat (byteAt p i % 128)

theorem toNat_low : (low p i).toNat = byteAt p i % 128 := by
  have : byteAt p i % 128 < 128 := Nat.mod_lt _ (by decide)
  exact UInt64.toNat_ofNat_of_lt' (by simp [UInt64.size]; omega)

theorem key_succ (hn : n < 9) : key p i (n + 1) = key p i n <<< 7 ^^^ low p (i + n) := by
  apply UInt64.toNat_inj.mp
  have hlt : groups p i n < 128 ^ 8 :=
    groups_lt.trans_le (Nat.pow_le_pow_right (by decide) (by omega))
  have hkey := toNat_key (p := p) (i := i) hn.le
  have hlow := toNat_low (p := p) (i := i + n)
  have hshift := toNat_shift_xor (a := key p i n) (b := low p (i + n)) (m := 7) (by decide)
    (by omega) (by omega)
  rw [toNat_key hn, groups_succ]
  exact (hshift.trans (by omega)).symm

def high (p : Bytes) (i : Nat) : UInt64 := if 0x80 ≤ p.getD i 0 then 0x80 else 0

theorem toUInt64_getD : (p.getD i 0).toUInt64 = low p i ^^^ high p i := by
  have hlt := byteAt_lt (p := p) (i := i)
  apply UInt64.toNat_inj.mp
  rw [UInt8.toNat_toUInt64, UInt64.xor_comm, UInt64.toNat_xor, toNat_low, high]
  by_cases h : 0x80 ≤ p.getD i 0
  · have hhigh : 128 ≤ byteAt p i := h
    have hadd := xor_eq_add (n := 7) (a := 1) (b := byteAt p i % 128) (by omega)
    rw [if_pos h]
    calc byteAt p i = 1 * 2 ^ 7 + byteAt p i % 128 := by omega
      _ = _ := hadd.symm
  · have hlow : ¬128 ≤ byteAt p i := h
    rw [if_neg h, UInt64.toNat_zero, Nat.zero_xor]
    exact (Nat.mod_eq_of_lt (Nat.lt_of_not_le hlow)).symm

theorem key_step (hn : n < 9) :
    (key p i n ^^^ c) <<< 7 ^^^ d ^^^ (p.getD (i + n) 0).toUInt64 =
      key p i (n + 1) ^^^ (c <<< 7 ^^^ d ^^^ high p (i + n)) := by
  rw [key_succ hn, UInt64.shiftLeft_xor, toUInt64_getD]
  grind

theorem key_last :
    (key p i 8 ^^^ 0x80) <<< 8 ^^^ 0x8000 ^^^ (p.getD (i + 8) 0).toUInt64 =
      UInt64.ofNat (valueOf p i 9) := by
  have hcancel : (key p i 8 ^^^ 0x80) <<< (8 : UInt64) ^^^ (0x8000 : UInt64) = key p i 8 <<< 8 := by
    have hconst : (0x80 : UInt64) <<< (8 : UInt64) ^^^ 0x8000 = 0 := rfl
    rw [UInt64.shiftLeft_xor, UInt64.xor_assoc, hconst, UInt64.xor_zero]
  have hlt : groups p i 8 < 128 ^ 8 := groups_lt
  have hkey := toNat_key (p := p) (i := i) (n := 8) (by decide)
  have hbyte := byteAt_lt (p := p) (i := i + 8)
  have hvalue : valueOf p i 9 = groups p i 8 * 256 + byteAt p (i + 8) := rfl
  apply UInt64.toNat_inj.mp
  rw [hcancel]
  have hshift := toNat_shift_xor (a := key p i 8) (b := (p.getD (i + 8) 0).toUInt64) (m := 8)
    (by decide) hbyte (by omega)
  rw [UInt64.toNat_ofNat_of_lt' (by simp [UInt64.size]; omega), hvalue, ← hkey]
  exact hshift

theorem varintTail_eq (h : k + n = 8) :
    varintTail p n (key p i k ^^^ 0x80) i k =
      (UInt64.ofNat (valueOf p i (k + highBytes p n (i + k) + 1)),
        k + highBytes p n (i + k) + 1) := by
  induction n generalizing k with
  | zero =>
    obtain rfl : k = 8 := h
    rw [varintTail, key_last]
    rfl
  | succ n ih =>
    rw [varintTail, highBytes, key_step (by omega), high]
    by_cases hx : 0x80 ≤ p.getD (i + k) 0
    · have hx' : 128 ≤ byteAt p (i + k) := hx
      simp only [if_pos hx, if_pos hx']
      have hrest := ih (k := k + 1) (by omega)
      have hconst : (0x80 : UInt64) <<< (7 : UInt64) ^^^ 0x4000 ^^^ 0x80 = 0x80 := rfl
      grind
    · have hx' : ¬128 ≤ byteAt p (i + k) := hx
      have hconst : (0x80 : UInt64) <<< (7 : UInt64) ^^^ 0x4000 ^^^ 0 = 0 := rfl
      simp only [if_neg hx, if_neg hx', hconst, UInt64.xor_zero, valueOf]
      rw [if_neg (by omega)]
      rfl

theorem key_step_plain (hn : n < 9) :
    (key p i n ^^^ c) <<< 7 ^^^ (p.getD (i + n) 0).toUInt64 =
      key p i (n + 1) ^^^ (c <<< 7 ^^^ high p (i + n)) := by
  simpa using key_step (p := p) (i := i) (c := c) (d := 0) hn

theorem getVarint_eq : getVarint p i = (UInt64.ofNat (varintValue p i), varintLength p i) := by
  have hone : (p.getD i 0).toUInt64 = key p i 1 ^^^ high p i := by
    simpa [key, groups] using key_step_plain (p := p) (i := i) (n := 0) (c := 0) (by decide)
  have htwo : (0x80 : UInt64) <<< (7 : UInt64) = 0x4000 := rfl
  have hthree : (0x4000 ^^^ 0x80 : UInt64) <<< (7 : UInt64) = 0x204000 := rfl
  have hfour : (0x204000 ^^^ 0x80 : UInt64) <<< (7 : UInt64) ^^^ 0x10204000 = 0 := rfl
  unfold getVarint varintValue varintLength
  simp only [hone, high]
  by_cases h₀ : 0x80 ≤ p.getD i 0
  swap
  · simp only [if_neg h₀, highBytes_of_low h₀, UInt64.xor_zero]
    rfl
  simp only [if_pos h₀, highBytes_of_high h₀, key_step_plain (show 1 < 9 by decide), htwo, high]
  by_cases h₁ : 0x80 ≤ p.getD (i + 1) 0
  swap
  · simp only [if_neg h₁, highBytes_of_low h₁, UInt64.xor_zero, UInt64.xor_assoc, UInt64.xor_self]
    rfl
  simp only [if_pos h₁, highBytes_of_high h₁, key_step_plain (show 2 < 9 by decide), hthree, high]
  by_cases h₂ : 0x80 ≤ p.getD (i + 2) 0
  swap
  · simp only [if_neg h₂, highBytes_of_low h₂, UInt64.xor_zero, UInt64.xor_assoc, UInt64.xor_self]
    rfl
  simp only [if_pos h₂, highBytes_of_high h₂, key_step (show 3 < 9 by decide), hfour, high]
  by_cases h₃ : 0x80 ≤ p.getD (i + 3) 0
  swap
  · simp only [if_neg h₃, highBytes_of_low h₃, UInt64.xor_zero]
    rfl
  simp only [if_pos h₃, highBytes_of_high h₃, UInt64.zero_xor]
  rw [varintTail_eq (by decide)]
  grind

theorem varintValue_lt : varintValue p i < 2 ^ 64 := by
  have hgroups : ∀ n ≤ 8, groups p i n < 128 ^ 8 := fun n hn =>
    groups_lt.trans_le (Nat.pow_le_pow_right (by decide) hn)
  have hbyte := byteAt_lt (p := p) (i := i + 8)
  have hlen := varintLength_le (p := p) (i := i)
  unfold varintValue valueOf
  split
  · have := hgroups 8 le_rfl
    omega
  · have := hgroups (varintLength p i) (by omega)
    omega

/-- `getVarint32` reads the value at `i`, or the largest one that it can give. -/
theorem getVarint32_eq : getVarint32 p i =
    (min (varintValue p i) (2 ^ 32 - 1), varintLength p i) := by
  have hlt := varintValue_lt (p := p) (i := i)
  have hbyte := byteAt_lt (p := p) (i := i)
  have hnat := UInt64.toNat_ofNat_of_lt' (by simpa [UInt64.size] using hlt)
  unfold getVarint32 sqlite3GetVarint32
  simp only [getVarint_eq, hnat]
  by_cases h₀ : byteAt p i < 0x80
  · have hlow := highBytes_of_low (n := 7) (show ¬0x80 ≤ p.getD i 0 from Nat.not_le.mpr h₀)
    have hvalue : valueOf p i 1 = 0 * 128 + byteAt p (i + 0) % 128 := rfl
    simp only [if_pos h₀, varintValue, varintLength, hlow, hvalue]
    grind
  have hh₀ := highBytes_of_high (n := 7) (show 0x80 ≤ p.getD i 0 from Nat.not_lt.mp h₀)
  by_cases h₁ : byteAt p (i + 1) < 0x80
  · have hlow := highBytes_of_low (n := 6) (show ¬0x80 ≤ p.getD (i + 1) 0 from Nat.not_le.mpr h₁)
    have hvalue : valueOf p i 2 =
        (0 * 128 + byteAt p (i + 0) % 128) * 128 + byteAt p (i + 1) % 128 := rfl
    simp only [if_neg h₀, if_pos h₁, varintValue, varintLength, hh₀, hlow, hvalue]
    grind
  have hh₁ := highBytes_of_high (n := 6) (show 0x80 ≤ p.getD (i + 1) 0 from Nat.not_lt.mp h₁)
  by_cases h₂ : byteAt p (i + 2) < 0x80
  · have hlow := highBytes_of_low (n := 5) (show ¬0x80 ≤ p.getD (i + 2) 0 from Nat.not_le.mpr h₂)
    have hvalue : valueOf p i 3 =
        ((0 * 128 + byteAt p (i + 0) % 128) * 128 + byteAt p (i + 1) % 128) * 128 +
          byteAt p (i + 2) % 128 := rfl
    simp only [if_neg h₀, if_neg h₁, if_pos h₂, varintValue, varintLength, hh₀, hh₁, hlow, hvalue]
    grind
  · rw [if_neg h₀, if_neg h₁, if_neg h₂]
    grind

theorem valueTail_eq : valueTail p n iKey (i + k) = (varintTail p n iKey i k).1 := by
  induction n generalizing iKey k with
  | zero => rfl
  | succ n ih =>
    rw [valueTail, varintTail]
    split
    · exact ih (k := k + 1)
    · rfl

theorem sqlite3VarintValue_eq : sqlite3VarintValue p i = (getVarint p i).1.toInt64 := by
  unfold sqlite3VarintValue getVarint
  simp only [valueTail_eq, apply_ite Prod.fst]

/-! ## Reading what was written -/

/-- At `i` there are `n` bytes with the high bit set, and they give `v`. -/
structure High (p : Bytes) (i n v : Nat) : Prop where
  high : ∀ k < n, 128 ≤ byteAt p (i + k)
  sum : groups p i n = v

variable {v fuel : Nat} {b : UInt8} {bytes : Bytes}

theorem High.zero : High p i 0 0 := ⟨fun _ hk => absurd hk (Nat.not_lt_zero _), rfl⟩

theorem byteAt_of_cons (h : b :: bytes <+: p.drop i) :
    byteAt p i = b.toNat ∧ bytes <+: p.drop (i + 1) := by
  obtain ⟨rest, hrest⟩ := h
  have hget : p[i]? = some b := by
    rw [← Nat.add_zero i, ← List.getElem?_drop, ← hrest]
    rfl
  exact ⟨by simp [byteAt, List.getD_eq_getElem?_getD, hget],
    rest, by rw [← List.drop_drop, ← hrest]; rfl⟩

theorem High.snoc (h : High p i n (v / 128))
    (hp : UInt8.ofNat (v % 128 + 128) :: bytes <+: p.drop (i + n)) :
    High p i (n + 1) v ∧ bytes <+: p.drop (i + (n + 1)) := by
  obtain ⟨hbyte, hrest⟩ := byteAt_of_cons hp
  rw [UInt8.toNat_ofNat_of_lt' (by simp [UInt8.size]; omega)] at hbyte
  refine ⟨⟨fun k hk => ?_, by rw [groups_succ, h.sum]; omega⟩, hrest⟩
  rcases Nat.lt_succ_iff_lt_or_eq.mp hk with hk | rfl
  · exact h.high k hk
  · omega

theorem High.highBytes_eq (h : High p i k v) :
    highBytes p (k + n) i = k + highBytes p n (i + k) := by
  have hhigh := h.high
  clear h
  induction k generalizing i with
  | zero => simp
  | succ k ih =>
    have hrest := ih (i := i + 1) fun j hj => by
      have := hhigh (j + 1) (by omega)
      grind
    rw [Nat.add_right_comm, highBytes_of_high (i := i) (hhigh 0 k.succ_pos), hrest]
    grind

theorem div_lt_pow (h : v < 128 ^ (n + 1)) : v / 128 < 128 ^ n :=
  Nat.div_lt_of_lt_mul (by rw [Nat.pow_succ] at h; omega)

theorem putRest_spec (h : v < 128 ^ n) (hn : n ≤ fuel) (hp : putRest fuel v bytes <+: p.drop i) :
    ∃ m ≤ n, High p i m v ∧
      bytes <+: p.drop (i + m) ∧ (putRest fuel v bytes).length = bytes.length + m := by
  induction fuel generalizing n v bytes with
  | zero =>
    obtain rfl : n = 0 := Nat.le_zero.mp hn
    obtain rfl : v = 0 := by simpa using h
    exact ⟨0, le_rfl, .zero, hp, rfl⟩
  | succ fuel ih =>
    rw [putRest] at hp ⊢
    split at hp
    · next hv =>
      subst hv
      exact ⟨0, Nat.zero_le _, .zero, hp, rfl⟩
    · next hv =>
      obtain ⟨n, rfl⟩ : ∃ m, n = m + 1 := Nat.exists_eq_succ_of_ne_zero fun hn => by simp_all
      obtain ⟨m, hm, hhigh, hrest, hlen⟩ := ih (div_lt_pow h) (Nat.le_of_succ_le_succ hn) hp
      obtain ⟨hhigh', hrest'⟩ := hhigh.snoc hrest
      rw [if_neg hv, hlen, List.length_cons]
      exact ⟨m + 1, Nat.succ_le_succ hm, hhigh', hrest', by omega⟩

theorem putGroups_spec (h : v < 128 ^ n) (hp : putGroups n v bytes <+: p.drop i) :
    High p i n v ∧ bytes <+: p.drop (i + n) ∧
      (putGroups n v bytes).length = bytes.length + n := by
  induction n generalizing v bytes with
  | zero =>
    obtain rfl : v = 0 := by simpa using h
    exact ⟨.zero, hp, rfl⟩
  | succ n ih =>
    obtain ⟨hhigh, hrest, hlen⟩ := ih (div_lt_pow h) hp
    obtain ⟨hhigh', hrest'⟩ := hhigh.snoc hrest
    exact ⟨hhigh', hrest', by rw [putGroups, hlen, List.length_cons]; omega⟩

theorem putVarint_of_lt (h : v < 2 ^ 56) :
    putVarint v = putRest 9 (v / 128) [UInt8.ofNat (v % 128)] := by
  unfold putVarint putVarint64
  split_ifs with h₁ h₂ h₃
  · rw [putRest, if_pos (by omega), Nat.mod_eq_of_lt (by omega)]
  · rw [putRest, if_neg (by omega), putRest, if_pos (by omega)]
  · omega
  · rfl

theorem putVarint_of_le (h : 2 ^ 56 ≤ v) :
    putVarint v = putGroups 8 (v / 256) [UInt8.ofNat (v % 256)] := by
  rw [putVarint, if_neg (by omega), if_neg (by omega), putVarint64, if_pos h]

/-- A value that was written at `i` is the value at `i`. -/
theorem varint_of_putVarint (hv : v < 2 ^ 64) (h : putVarint v <+: p.drop i) :
    varintLength p i = (putVarint v).length ∧ varintValue p i = v := by
  by_cases hlong : v < 2 ^ 56
  · rw [putVarint_of_lt hlong] at h ⊢
    obtain ⟨m, hm, hhigh, hrest, hlen⟩ := putRest_spec (n := 7) (by omega) (by decide) h
    obtain ⟨hlast, -⟩ := byteAt_of_cons hrest
    rw [UInt8.toNat_ofNat_of_lt' (by simp [UInt8.size]; omega)] at hlast
    have hlength : varintLength p i = m + 1 := by
      have heq := hhigh.highBytes_eq (n := 7 - m + 1)
      rw [highBytes, if_neg (by omega), show m + (7 - m + 1) = 8 by omega] at heq
      rw [varintLength, heq]
    rw [varintValue, hlen, hlength, valueOf, if_neg (by omega), groups_succ, hhigh.sum, hlast]
    exact ⟨Nat.add_comm _ _, by omega⟩
  · rw [putVarint_of_le (Nat.not_lt.mp hlong)] at h ⊢
    obtain ⟨hhigh, hrest, hlen⟩ := putGroups_spec (by omega) h
    obtain ⟨hlast, -⟩ := byteAt_of_cons hrest
    rw [UInt8.toNat_ofNat_of_lt' (by simp [UInt8.size]; omega)] at hlast
    have hlength : varintLength p i = 9 := by rw [varintLength, hhigh.highBytes_eq (n := 0)]; rfl
    rw [varintValue, hlen, hlength, valueOf, if_pos rfl, hhigh.sum, hlast]
    exact ⟨rfl, by omega⟩

theorem length_putRest (h : v < 128 ^ (fuel + 1)) :
    (putRest fuel (v / 128) bytes).length + 1 = bytes.length + varintLen v := by
  induction fuel generalizing v bytes with
  | zero => rw [putRest, varintLen, if_pos (by omega)]
  | succ fuel ih =>
    rw [putRest, varintLen]
    split
    · rfl
    · rw [ih (div_lt_pow h), List.length_cons]
      omega

theorem varintLen_eq (h : 128 ^ n ≤ v) (h' : v < 128 ^ (n + 1)) : varintLen v = n + 1 := by
  induction n generalizing v with
  | zero => rw [varintLen, if_pos (by omega)]
  | succ n ih =>
    have hle : 128 ^ n ≤ v / 128 := (Nat.le_div_iff_mul_le (by decide)).mpr h
    have hpos : 0 < 128 ^ n := Nat.pow_pos (by decide)
    rw [varintLen, if_neg (by omega), ih hle (div_lt_pow h')]

theorem length_putVarint (hv : v < 2 ^ 63) : (putVarint v).length = varintLen v := by
  by_cases hlong : v < 2 ^ 56
  · have hlen := @length_putRest v 9 [UInt8.ofNat (v % 128)] (by omega)
    rw [putVarint_of_lt hlong]
    simp only [List.length_singleton] at hlen
    omega
  · rw [putVarint_of_le (Nat.not_lt.mp hlong), varintLen_eq (n := 8) (by omega) (by omega)]
    rfl

theorem varintLen_eq_length_iff (hv : v < 2 ^ 64) :
    varintLen v = (putVarint v).length ↔ v < 2 ^ 63 := by
  refine ⟨fun heq => ?_, fun h => (length_putVarint h).symm⟩
  by_contra hle
  -- nine bytes are written, with eight bits in the last of them
  rw [putVarint_of_le (by omega), varintLen_eq (n := 9) (by omega) (by omega)] at heq
  exact absurd heq (by decide : 10 ≠ 9)

/-- Every reader gives back the value written, wherever it stands, and the readers agree on all
bytes. `sqlite3VarintLen` computes the number of bytes written below 2⁶³ only. -/
theorem varint_codec (v : UInt64) (before after p : Bytes) (i : Nat) :
    (let data := before ++ (putVarint v.toNat ++ after)
      let n := (putVarint v.toNat).length
      getVarint data before.length = (v, n) ∧
      sqlite3VarintValue data before.length = v.toInt64 ∧
      getVarint32 data before.length =
        (if v.toNat ≤ 0xffffffff then v.toNat else 0xffffffff, n) ∧
      (varintLen v.toNat = n ↔ v.toNat < 2 ^ 63)) ∧
    sqlite3VarintValue p i = (getVarint p i).1.toInt64 ∧
    getVarint32 p i = (min (getVarint p i).1.toNat 0xffffffff, (getVarint p i).2) := by
  have hat : putVarint v.toNat <+: (before ++ (putVarint v.toNat ++ after)).drop before.length := by
    rw [List.drop_left]
    exact List.prefix_append _ _
  obtain ⟨hlen, hvalue⟩ := varint_of_putVarint v.toNat_lt hat
  have hget := getVarint_eq (p := before ++ (putVarint v.toNat ++ after)) (i := before.length)
  rw [hlen, hvalue, UInt64.ofNat_toNat] at hget
  refine ⟨⟨hget, by rw [sqlite3VarintValue_eq, hget], ?_, varintLen_eq_length_iff v.toNat_lt⟩,
    sqlite3VarintValue_eq, ?_⟩
  · rw [getVarint32_eq, hlen, hvalue, Nat.min_def]
    rfl
  · rw [getVarint32_eq, getVarint_eq, UInt64.toNat_ofNat_of_lt' varintValue_lt]
    rfl

/-- Nine bytes are written for `2 ^ 63`, and `sqlite3VarintLen` says that it takes ten. -/
theorem varintLen_two_pow_63 : (putVarint (2 ^ 63)).length = 9 ∧ varintLen (2 ^ 63) = 10 :=
  ⟨by decide, varintLen_eq (by decide) (by decide)⟩

end SqlCipher.Btree
