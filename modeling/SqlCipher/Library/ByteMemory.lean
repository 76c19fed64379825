import Mathlib.Data.Nat.Basic
import Mathlib.Data.UInt

/-!
# Memory as bytes

A memory is a byte for every address. Numbers are stored little-endian in a fixed number of bytes;
what does not fit is cut off. A read depends on the bytes it covers only, and a write to other
addresses leaves it alone.
-/

namespace ByteMemory

abbrev Mem := Nat → UInt8

def fill (m : Mem) (a n : Nat) (f : Nat → UInt8) : Mem := fun x =>
  if a ≤ x ∧ x < a + n then f (x - a) else m x

def writeLe (m : Mem) (a n v : Nat) : Mem := fill m a n fun i => UInt8.ofNat (v / 256 ^ i)

def readLe (m : Mem) : Nat → Nat → Nat
  | _, 0 => 0
  | a, n + 1 => (m a).toNat + 256 * readLe m (a + 1) n

variable {m m' : Mem} {a b k n v x : Nat} {f : Nat → UInt8}

theorem fill_of_mem (h : a ≤ x) (h' : x < a + n) : fill m a n f x = f (x - a) := if_pos ⟨h, h'⟩

theorem fill_of_notMem (h : x < a ∨ a + n ≤ x) : fill m a n f x = m x := by
  apply if_neg
  omega

theorem readLe_congr (h : ∀ x, a ≤ x → x < a + n → m x = m' x) : readLe m a n = readLe m' a n := by
  induction n generalizing a with
  | zero => rfl
  | succ n ih =>
    rw [readLe, readLe, h a (Nat.le_refl a) (by omega), ih fun x h1 h2 => h x (by omega) (by omega)]

theorem readLe_fill_of_disjoint (h : a + n ≤ b ∨ b + k ≤ a) :
    readLe (fill m b k f) a n = readLe m a n := by
  apply readLe_congr
  intro x h1 h2
  exact fill_of_notMem (by omega)

theorem readLe_writeLe_of_disjoint (h : a + n ≤ b ∨ b + k ≤ a) :
    readLe (writeLe m b k v) a n = readLe m a n :=
  readLe_fill_of_disjoint h

/-- What is read back is what was written, up to the bytes that were cut off. -/
theorem readLe_writeLe (m : Mem) (a n v : Nat) : readLe (writeLe m a n v) a n = v % 256 ^ n := by
  -- the bytes from `i` on are those of `v / 256 ^ i`
  suffices h : ∀ i j, i + j = n → readLe (writeLe m a n v) (a + i) j = v / 256 ^ i % 256 ^ j by
    simpa using h 0 n (Nat.zero_add n)
  intro i j
  induction j generalizing i with
  | zero => intro _; simp [readLe, Nat.mod_one]
  | succ j ih =>
    intro hij
    have hbyte : writeLe m a n v (a + i) = UInt8.ofNat (v / 256 ^ i) := by
      rw [writeLe, fill_of_mem (by omega) (by omega), Nat.add_sub_cancel_left]
    have hdiv : v / 256 ^ (i + 1) = v / 256 ^ i / 256 := by
      rw [Nat.pow_succ, Nat.div_div_eq_div_mul]
    have hpow : 256 ^ (j + 1) = 256 * 256 ^ j := Nat.pow_succ'
    rw [readLe, hbyte, Nat.add_assoc, ih (i + 1) (by omega), UInt8.toNat_ofNat', hdiv, hpow,
      Nat.mod_mul]

end ByteMemory
