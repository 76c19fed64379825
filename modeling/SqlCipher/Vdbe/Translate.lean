import Mathlib.Algebra.Group.Nat.Defs
import Mathlib.Data.List.Chain
import Mathlib.Tactic.Common

/-!
# Changing the encoding of a text

`sqlite3VdbeMemTranslate` (`utf.c`) rewrites a text between UTF-8 and the two byte orders of
UTF-16. It reads UTF-8 leniently: a first byte is followed by any number of continuation bytes,
whose bits run through a 32-bit number. Memory never runs out here, and
`SQLITE_REPLACE_INVALID_UTF` is not defined.
-/

namespace SqlCipher.Utf

open List

inductive Enc | utf8 | utf16le | utf16be
deriving DecidableEq

structure Mem where
  enc : Enc
  z : List UInt8
deriving DecidableEq

def utf8Trans1 : List Nat :=
  range 32 ++ range 16 ++ range 8 ++ range 4 ++ range 2 ++ [0, 0]

/-- The loop of `READ_UTF8` over the continuation bytes. -/
def readMore (c : Nat) : List UInt8 → Nat × List UInt8
  | [] => (c, [])
  | b :: z =>
    if b.toNat &&& 0xc0 = 0x80 then readMore (((c <<< 6) + (0x3f &&& b.toNat)) % 2 ^ 32) z
    else (c, b :: z)

/-- `READ_UTF8`, for a character that starts with the byte `b`. -/
def readUtf8 (b : UInt8) (z : List UInt8) : Nat × List UInt8 :=
  if 0xc0 ≤ b.toNat then
    let r := readMore (utf8Trans1.getD (b.toNat - 0xc0) 0) z
    (if r.1 < 0x80 ∨ r.1 &&& 0xFFFFF800 = 0xD800 then 0xFFFD else r.1, r.2)
  else (b.toNat, z)

def writeUtf8 (c : Nat) : List UInt8 :=
  if c < 0x80 then [.ofNat (c &&& 0xFF)]
  else if c < 0x800 then [.ofNat (0xC0 + (c >>> 6 &&& 0x1F)), .ofNat (0x80 + (c &&& 0x3F))]
  else if c < 0x10000 then
    [.ofNat (0xE0 + (c >>> 12 &&& 0x0F)), .ofNat (0x80 + (c >>> 6 &&& 0x3F)),
      .ofNat (0x80 + (c &&& 0x3F))]
  else
    [.ofNat (0xF0 + (c >>> 18 &&& 0x07)), .ofNat (0x80 + (c >>> 12 &&& 0x3F)),
      .ofNat (0x80 + (c >>> 6 &&& 0x3F)), .ofNat (0x80 + (c &&& 0x3F))]

/-- Two bytes, given as the low and the high one, in the order of the encoding. -/
def Enc.put (e : Enc) (lo hi : Nat) : List UInt8 :=
  if e = .utf16be then [.ofNat hi, .ofNat lo] else [.ofNat lo, .ofNat hi]

/-- `WRITE_UTF16LE` and `WRITE_UTF16BE`. -/
def writeUtf16 (e : Enc) (c : Nat) : List UInt8 :=
  if c ≤ 0xFFFF then e.put (c &&& 0xFF) (c >>> 8 &&& 0xFF)
  else
    e.put ((c >>> 10 &&& 0x3F) + ((c - 0x10000) >>> 10 &&& 0xC0))
      (0xD8 + ((c - 0x10000) >>> 18 &&& 0x03)) ++
    e.put (c &&& 0xFF) (0xDC + (c >>> 8 &&& 0x03))

theorem readMore_length (c : Nat) (z : List UInt8) : (readMore c z).2.length ≤ z.length := by
  fun_induction readMore c z with
  | case1 => simp
  | case2 c b z _ ih => simp only [length_cons]; omega
  | case3 => simp

theorem readUtf8_length (b : UInt8) (z : List UInt8) : (readUtf8 b z).2.length ≤ z.length := by
  unfold readUtf8
  split
  · exact readMore_length _ z
  · simp

def fromUtf8 (e : Enc) : List UInt8 → List UInt8
  | [] => []
  | b :: z => writeUtf16 e (readUtf8 b z).1 ++ fromUtf8 e (readUtf8 b z).2
termination_by z => z.length
decreasing_by exact Nat.lt_succ_of_le (readUtf8_length b z)

def Enc.get (e : Enc) (b b' : UInt8) : Nat :=
  if e = .utf16be then (b.toNat <<< 8) + b'.toNat else b.toNat + (b'.toNat <<< 8)

/-- The loops from UTF-16. The last byte of an odd number of bytes is dropped. -/
def toUtf8 (e : Enc) : List UInt8 → List UInt8
  | b :: b' :: z =>
    let c := e.get b b'
    if 0xd800 ≤ c ∧ c < 0xe000 then
      match z with
      | d :: d' :: z' =>
        writeUtf8 ((e.get d d' &&& 0x03FF) + ((c &&& 0x003F) <<< 10) +
          (((c &&& 0x03C0) + 0x0040) <<< 10)) ++ toUtf8 e z'
      | z => writeUtf8 c ++ toUtf8 e z
    else writeUtf8 c ++ toUtf8 e z
  | _ => []

def swap : List UInt8 → List UInt8
  | b :: b' :: z => b' :: b :: swap z
  | z => z

/-- `sqlite3VdbeMemTranslate` -/
def Mem.translate (m : Mem) (desiredEnc : Enc) : Mem :=
  ⟨desiredEnc,
    if m.enc ≠ .utf8 ∧ desiredEnc ≠ .utf8 then swap m.z
    else if m.enc = .utf8 then fromUtf8 desiredEnc m.z
    else toUtf8 m.enc m.z⟩

/-- The bytes that a text may take: where it is, or in the buffer that is made for it. -/
def Mem.len (m : Mem) (desiredEnc : Enc) : Nat :=
  if m.enc ≠ .utf8 ∧ desiredEnc ≠ .utf8 then m.z.length
  else if desiredEnc = .utf8 then 2 * (m.z.length / 2 * 2) + 1
  else 2 * m.z.length + 2

/-- The bytes written, with the terminator of a new buffer. -/
def Mem.written (m : Mem) (desiredEnc : Enc) : Nat :=
  (m.translate desiredEnc).z.length +
    if m.enc ≠ .utf8 ∧ desiredEnc ≠ .utf8 then 0 else if desiredEnc = .utf8 then 1 else 2

def Enc.unit (e : Enc) (u : Nat) : List UInt8 :=
  e.put (u % 256) (u / 256)

/-- The standard encodings of a scalar value. -/
def Enc.encodeChar : Enc → Char → List UInt8
  | .utf8, c => String.utf8EncodeChar c
  | e, c =>
    if c.toNat < 0x10000 then e.unit c.toNat
    else
      e.unit (0xD800 + (c.toNat - 0x10000) / 0x400) ++
        e.unit (0xDC00 + (c.toNat - 0x10000) % 0x400)

def Enc.encode (e : Enc) (s : List Char) : List UInt8 :=
  s.flatMap e.encodeChar

variable {e e' d : Enc} {z : List UInt8}

theorem land_low (x : Nat) : x &&& 3 = x % 4 ∧ x &&& 7 = x % 8 ∧ x &&& 0xF = x % 16 ∧
    x &&& 0x1F = x % 32 ∧ x &&& 0x3F = x % 64 ∧ x &&& 0xFF = x % 256 ∧
    x &&& 0x3FF = x % 1024 ∧ x &&& 0x1FFFFF = x % 2097152 := by
  refine ⟨?_, ?_, ?_, ?_, ?_, ?_, ?_, ?_⟩
  exacts [Nat.and_two_pow_sub_one_eq_mod x 2, Nat.and_two_pow_sub_one_eq_mod x 3,
    Nat.and_two_pow_sub_one_eq_mod x 4, Nat.and_two_pow_sub_one_eq_mod x 5,
    Nat.and_two_pow_sub_one_eq_mod x 6, Nat.and_two_pow_sub_one_eq_mod x 8,
    Nat.and_two_pow_sub_one_eq_mod x 10, Nat.and_two_pow_sub_one_eq_mod x 21]

theorem land_shiftLeft (x y k : Nat) : x &&& y <<< k = (x >>> k &&& y) <<< k := by
  apply Nat.eq_of_testBit_eq
  intro i
  by_cases h : k ≤ i <;> simp [h, Nat.testBit_shiftLeft]

theorem land_high (x : Nat) : x &&& 0xC0 = x / 64 % 4 * 64 ∧ x &&& 0x3C0 = x / 64 % 16 * 64 ∧
    x &&& 0xFFFFF800 = x / 2048 % 2097152 * 2048 := by
  have h (y k) := land_shiftLeft x y k
  refine ⟨?_, ?_, ?_⟩
  exacts [by simpa [Nat.shiftLeft_eq, Nat.shiftRight_eq_div_pow, land_low] using h 3 6,
    by simpa [Nat.shiftLeft_eq, Nat.shiftRight_eq_div_pow, land_low] using h 15 6,
    by simpa [Nat.shiftLeft_eq, Nat.shiftRight_eq_div_pow, land_low] using h 0x1FFFFF 11]

theorem toNat_scalar (c : Char) :
    c.toNat < 0xD800 ∨ 0xE000 ≤ c.toNat ∧ c.toNat < 0x110000 := by
  have h : Nat.isValidChar c.toNat := c.valid
  unfold Nat.isValidChar at h
  omega

theorem exists_scalar (h : n < 0xD800 ∨ 0xE000 ≤ n ∧ n < 0x110000) : ∃ c : Char, c.toNat = n :=
  ⟨Char.ofNatAux n (by unfold Nat.isValidChar; omega), rfl⟩

theorem writeUtf8_char (c : Char) : writeUtf8 c.toNat = Enc.encodeChar .utf8 c := by
  simp only [writeUtf8, Enc.encodeChar, String.utf8EncodeChar, Char.toNat, land_low,
    Nat.shiftRight_eq_div_pow, Nat.lt_iff_add_one_le]
  grind

/-- A number that is not a surrogate is written as a scalar value, which is the number itself
unless that is too large for one. -/
theorem writeUtf16_char (he : e ≠ .utf8) {c : Nat} (hc : ¬ (0xD800 ≤ c ∧ c < 0xE000)) :
    ∃ ch : Char, writeUtf16 e c = e.encodeChar ch ∧ (c < 0x110000 → ch.toNat = c) := by
  obtain hlt | hge := Nat.lt_or_ge c 0x10000
  · obtain ⟨ch, hch⟩ : ∃ ch : Char, ch.toNat = c := exists_scalar (by omega)
    refine ⟨ch, ?_, fun _ => hch⟩
    rw [Enc.encodeChar.eq_2 _ _ he, if_pos (by omega), writeUtf16, if_pos (by omega), hch]
    simp only [Enc.unit, land_low, Nat.shiftRight_eq_div_pow, Nat.reducePow]
    rw [Nat.mod_eq_of_lt (by omega : c / 256 < 256)]
  · -- the lower twenty bits of what is above `0x10000`
    obtain ⟨ch, hch⟩ : ∃ ch : Char, ch.toNat = 0x10000 + (c - 0x10000) % 0x100000 :=
      exists_scalar (by omega)
    refine ⟨ch, ?_, by omega⟩
    rw [Enc.encodeChar.eq_2 _ _ he, if_neg (by omega), writeUtf16, if_neg (by omega), hch]
    simp only [Enc.unit, land_low, land_high, Nat.shiftRight_eq_div_pow]
    refine congrArg₂ _ (congrArg₂ _ ?_ ?_) (congrArg₂ _ ?_ ?_) <;> omega

def Starts (z : List UInt8) : Prop :=
  ∀ b ∈ z.head?, b.toNat &&& 0xc0 ≠ 0x80

theorem readMore_starts (hz : Starts z) (c : Nat) : readMore c z = (c, z) := by
  cases z with
  | nil => rfl
  | cons b z => simp [readMore, hz b (by simp)]

theorem readMore_cons (hx : x < 64) (c : Nat) (z : List UInt8) :
    readMore c (.ofNat (x + 0x80) :: z) = readMore ((c * 64 + x) % 2 ^ 32) z := by
  have hb : (UInt8.ofNat (x + 0x80)).toNat = x + 0x80 := by
    simp [Nat.mod_eq_of_lt (by omega : x + 128 < 256)]
  rw [readMore, hb, if_pos (by simp only [land_high]; omega), Nat.and_comm, Nat.shiftLeft_eq]
  simp only [land_low]
  congr 3
  omega

theorem utf8Trans1_eq : (∀ k < 32, utf8Trans1.getD k 0 = k) ∧
    (∀ k < 16, utf8Trans1.getD (32 + k) 0 = k) ∧ ∀ k < 8, utf8Trans1.getD (48 + k) 0 = k := by
  decide

theorem toNat_ofNat (h : n < 256) : (UInt8.ofNat n).toNat = n := by
  simp [Nat.mod_eq_of_lt h]

/-- A character of more than one byte, with the first byte `b`. -/
theorem readUtf8_lead (h : 0xc0 ≤ b) (hb : b < 256)
    (hr : readMore (utf8Trans1.getD (b - 0xc0) 0) t = (c, z)) (hc : 0x80 ≤ c)
    (hs : c < 0xD800 ∨ 0xE000 ≤ c ∧ c < 0x110000) :
    (UInt8.ofNat b).toNat &&& 0xc0 ≠ 0x80 ∧ readUtf8 (.ofNat b) t = (c, z) := by
  rw [readUtf8, toNat_ofNat hb, if_pos h, hr]
  simp only [land_high]
  exact ⟨by omega, by rw [if_neg (by omega)]⟩

theorem readUtf8_char (c : Char) (hz : Starts z) :
    ∃ b t, Enc.encodeChar .utf8 c ++ z = b :: t ∧ b.toNat &&& 0xc0 ≠ 0x80 ∧
      readUtf8 b t = (c.toNat, z) := by
  have hc := toNat_scalar c
  simp only [Enc.encodeChar, String.utf8EncodeChar, show c.val.toNat = c.toNat from rfl]
  generalize c.toNat = v at hc
  split_ifs <;> simp only [cons_append, nil_append]
  · refine ⟨_, _, rfl, ?_⟩
    rw [readUtf8, toNat_ofNat (by omega), if_neg (by omega), (land_high _).1]
    exact ⟨by omega, rfl⟩
  · refine ⟨_, _, rfl, readUtf8_lead (by omega) (by omega) ?_ (by omega) hc⟩
    rw [Nat.add_sub_cancel, utf8Trans1_eq.1 _ (by omega), readMore_cons (by omega),
      readMore_starts hz]
    exact Prod.ext (by dsimp only; omega) rfl
  · refine ⟨_, _, rfl, readUtf8_lead (by omega) (by omega) ?_ (by omega) hc⟩
    rw [show v / 4096 % 16 + 224 - 192 = 32 + v / 4096 % 16 by omega,
      utf8Trans1_eq.2.1 _ (by omega), readMore_cons (by omega), readMore_cons (by omega),
      readMore_starts hz]
    exact Prod.ext (by dsimp only; omega) rfl
  · refine ⟨_, _, rfl, readUtf8_lead (by omega) (by omega) ?_ (by omega) hc⟩
    rw [show v / 262144 % 8 + 240 - 192 = 48 + v / 262144 % 8 by omega,
      utf8Trans1_eq.2.2 _ (by omega), readMore_cons (by omega), readMore_cons (by omega),
      readMore_cons (by omega), readMore_starts hz]
    exact Prod.ext (by dsimp only; omega) rfl

theorem exists_unit (e : Enc) (hu : u < 0x10000) :
    ∃ b b', e.unit u = [b, b'] ∧ e.get b b' = u := by
  unfold Enc.unit Enc.put Enc.get
  split <;> refine ⟨_, _, rfl, ?_⟩ <;>
    rw [toNat_ofNat (by omega), toNat_ofNat (by omega), Nat.shiftLeft_eq] <;> omega

theorem toUtf8_char (he : e ≠ .utf8) (c : Char) (z : List UInt8) :
    toUtf8 e (e.encodeChar c ++ z) = Enc.encodeChar .utf8 c ++ toUtf8 e z := by
  have hc := toNat_scalar c
  rw [Enc.encodeChar.eq_2 _ _ he, ← writeUtf8_char]
  split_ifs
  · obtain ⟨b, b', hunit, hget⟩ := exists_unit e (by omega : c.toNat < 0x10000)
    rw [hunit, cons_append, cons_append, nil_append, toUtf8.eq_def]
    simp only [hget]
    rw [if_neg (by omega)]
  · obtain ⟨b, b', hunit, hget⟩ := exists_unit e
      (by omega : 0xD800 + (c.toNat - 0x10000) / 0x400 < 0x10000)
    obtain ⟨d, d', hunit', hget'⟩ := exists_unit e
      (by omega : 0xDC00 + (c.toNat - 0x10000) % 0x400 < 0x10000)
    rw [hunit, hunit', append_assoc]
    simp only [cons_append, nil_append]
    rw [toUtf8, hget, if_pos (by omega), hget']
    simp only [land_low, land_high, Nat.shiftLeft_eq]
    congr 2
    omega

theorem swap_char (he : e ≠ .utf8) (he' : e' ≠ .utf8) (hne : e ≠ e') (c : Char)
    (z : List UInt8) : swap (e.encodeChar c ++ z) = e'.encodeChar c ++ swap z := by
  have hunit (u z) : swap (e.unit u ++ z) = e'.unit u ++ swap z := by
    cases e <;> cases e' <;> simp_all [Enc.unit, Enc.put, swap]
  rw [Enc.encodeChar.eq_2 _ _ he, Enc.encodeChar.eq_2 _ _ he']
  split_ifs
  · rw [hunit]
  · rw [append_assoc, hunit, hunit, append_assoc]

theorem encode_cons (e : Enc) (c : Char) (s : List Char) :
    e.encode (c :: s) = e.encodeChar c ++ e.encode s :=
  flatMap_cons

theorem starts_encode (s : List Char) : Starts (Enc.encode .utf8 s) := by
  induction s with
  | nil => simp [Starts, Enc.encode]
  | cons c s ih =>
    obtain ⟨b, t, hbt, hb, -⟩ := readUtf8_char c ih
    rw [encode_cons, hbt]
    simpa [Starts] using hb

theorem fromUtf8_encode (he : e ≠ .utf8) (s : List Char) :
    fromUtf8 e (Enc.encode .utf8 s) = e.encode s := by
  induction s with
  | nil => simp [Enc.encode, fromUtf8]
  | cons c s ih =>
    obtain ⟨b, t, hbt, -, hr⟩ := readUtf8_char c (starts_encode s)
    have hc := toNat_scalar c
    obtain ⟨ch, hch, heq⟩ := writeUtf16_char he (by omega : ¬ (0xD800 ≤ c.toNat ∧ _))
    obtain rfl : ch = c := Char.toNat_inj.1 (heq (by omega))
    rw [encode_cons, encode_cons, hbt, fromUtf8, hr, ih, hch]

theorem encode_induction {f : List UInt8 → List UInt8} (hnil : f [] = [])
    (h : ∀ c z, f (e.encodeChar c ++ z) = e'.encodeChar c ++ f z) (s : List Char) :
    f (e.encode s) = e'.encode s := by
  induction s with
  | nil => exact hnil
  | cons c s ih => exact (h c _).trans (congrArg _ ih)

theorem translate_encode (h : e ≠ e') (s : List Char) :
    Mem.translate ⟨e, e.encode s⟩ e' = ⟨e', e'.encode s⟩ := by
  unfold Mem.translate
  split_ifs with hswap hfrom
  · rw [encode_induction rfl (swap_char hswap.1 hswap.2 h)]
  · subst hfrom
    rw [fromUtf8_encode h.symm]
  · obtain rfl : e' = .utf8 := by_contra fun h => hswap ⟨hfrom, h⟩
    rw [encode_induction rfl (toUtf8_char hfrom)]

theorem translate_path (s : List Char) (e : Enc) (path : List Enc)
    (h : (e :: path).IsChain (· ≠ ·)) :
    path.foldl Mem.translate ⟨e, e.encode s⟩ = ⟨path.getLastD e, (path.getLastD e).encode s⟩ := by
  induction path generalizing e with
  | nil => rfl
  | cons e' path ih =>
    rw [isChain_cons_cons] at h
    rw [foldl_cons, translate_encode h.1, ih e' h.2, getLastD_cons]

theorem readUtf8_scalar (b : UInt8) (z : List UInt8) :
    ¬ (0xD800 ≤ (readUtf8 b z).1 ∧ (readUtf8 b z).1 < 0xE000) := by
  have := b.toNat_lt
  simp only [readUtf8, land_high]
  split_ifs <;> dsimp only <;> omega

theorem fromUtf8_scalars (he : e ≠ .utf8) (z : List UInt8) : ∃ s, fromUtf8 e z = e.encode s := by
  fun_induction fromUtf8 e z with
  | case1 => exact ⟨[], rfl⟩
  | case2 b z ih =>
    obtain ⟨s, hs⟩ := ih
    obtain ⟨c, hc, -⟩ := writeUtf16_char he (readUtf8_scalar b z)
    exact ⟨c :: s, by rw [hs, hc]; rfl⟩

theorem readMore_lt (hc : c ≤ 0xFFFF) (h : 0xFFFF < (readMore c z).1) :
    (readMore c z).2.length < z.length := by
  cases z with
  | nil => exact absurd h (by simpa [readMore] using hc)
  | cons b z =>
    rw [readMore] at h ⊢
    split_ifs at h ⊢ with hb
    · exact Nat.lt_succ_of_le (readMore_length _ z)
    · exact absurd h (by simpa using hc)

theorem utf8Trans1_le (k : Nat) : utf8Trans1.getD k 0 ≤ 31 := by
  obtain h | h := Nat.lt_or_ge k 64
  · exact (by decide : ∀ k < 64, utf8Trans1.getD k 0 ≤ 31) k h
  · simp [utf8Trans1, h]

theorem readUtf8_lt (h : 0xFFFF < (readUtf8 b z).1) : (readUtf8 b z).2.length < z.length := by
  have := b.toNat_lt
  have := utf8Trans1_le (b.toNat - 0xc0)
  unfold readUtf8 at h ⊢
  split_ifs at h ⊢ with hb
  · exact readMore_lt (by omega) (by dsimp only at h; split at h <;> omega)
  · dsimp only at h
    omega

theorem writeUtf16_length (e : Enc) (c : Nat) :
    (writeUtf16 e c).length = if c ≤ 0xFFFF then 2 else 4 := by
  have (lo hi : Nat) : (e.put lo hi).length = 2 := by unfold Enc.put; split <;> rfl
  unfold writeUtf16
  split <;> simp [*]

theorem fromUtf8_length (e : Enc) (z : List UInt8) : (fromUtf8 e z).length ≤ 2 * z.length := by
  fun_induction fromUtf8 e z with
  | case1 => simp
  | case2 b z ih =>
    have := readUtf8_length b z
    have := @readUtf8_lt z b
    rw [length_append, writeUtf16_length, length_cons]
    split <;> omega

theorem toUtf8_length (e : Enc) (z : List UInt8) :
    (toUtf8 e z).length ≤ 2 * (z.length / 2 * 2) := by
  have hw (c) : (writeUtf8 c).length ≤ 4 := by unfold writeUtf8; split_ifs <;> simp
  fun_induction toUtf8 e z <;> grind

theorem swap_length (z : List UInt8) : (swap z).length = z.length := by
  fun_induction swap z <;> simp_all

theorem written_le (m : Mem) (h : m.enc ≠ d) : m.written d ≤ m.len d := by
  have := fromUtf8_length d m.z
  have := toUtf8_length m.enc m.z
  unfold Mem.written Mem.len Mem.translate
  split_ifs <;> simp_all [swap_length]

/-- Along every path of encodings a text of scalar values stays the standard encoding of them.
From any bytes, as UTF-8, comes the encoding of a text, which survives the way to UTF-8 and
back. No translation writes more than was computed beforehand. -/
theorem text_survives :
    (∀ (s : List Char) (e : Enc) (path : List Enc), (e :: path).IsChain (· ≠ ·) →
      path.foldl Mem.translate ⟨e, e.encode s⟩ =
        ⟨path.getLastD e, (path.getLastD e).encode s⟩) ∧
    (∀ (z : List UInt8) (d : Enc), d ≠ .utf8 →
      (∃ s, Mem.translate ⟨.utf8, z⟩ d = ⟨d, d.encode s⟩) ∧
      ((Mem.translate ⟨.utf8, z⟩ d).translate .utf8).translate d =
        Mem.translate ⟨.utf8, z⟩ d) ∧
    ∀ (m : Mem) (d : Enc), m.enc ≠ d → m.written d ≤ m.len d := by
  refine ⟨translate_path, fun z d hd => ?_, fun m d => written_le m⟩
  obtain ⟨s, hs⟩ := fromUtf8_scalars hd z
  have hz : Mem.translate ⟨.utf8, z⟩ d = ⟨d, d.encode s⟩ := by
    simp [Mem.translate, hs]
  rw [hz, translate_encode hd, translate_encode hd.symm]
  exact ⟨⟨s, rfl⟩, rfl⟩

end SqlCipher.Utf
