import Mathlib.Data.List.Basic
import Mathlib.Tactic.Common

/-!
# Bounded buffers

A buffer is a list of cells of fixed length. `readAt` and `writeAt` take a signed
offset, as pointer arithmetic does, and answer `none` when any cell they would touch
lies outside the buffer. On success they are the list operations `slice` and
`overwrite`, whose cell-by-cell laws are all a client needs: contents are compared
slice by slice, and a write is invisible to every slice disjoint from it.
-/

namespace Buffer

open List

variable {α : Type*} {buf src xs : List α} {off len o n : Nat}

def slice (buf : List α) (off len : Nat) : List α := (buf.drop off).take len

def overwrite (buf : List α) (off : Nat) (src : List α) : List α :=
  buf.take off ++ src ++ buf.drop (off + src.length)

def readAt (buf : List α) (off len : Int) : Option (List α) :=
  if 0 ≤ off ∧ 0 ≤ len ∧ off + len ≤ buf.length then some (slice buf off.toNat len.toNat)
  else none

def writeAt (buf : List α) (off : Int) (src : List α) : Option (List α) :=
  if 0 ≤ off ∧ off + src.length ≤ buf.length then some (overwrite buf off.toNat src) else none

/-! ## Slices -/

theorem length_slice (h : off + len ≤ buf.length) : (slice buf off len).length = len := by
  simp only [slice, length_take, length_drop]
  omega

theorem getElem?_slice (buf : List α) (off len i : Nat) :
    (slice buf off len)[i]? = if i < len then buf[off + i]? else none := by
  simp [slice, getElem?_take, getElem?_drop]

@[simp] theorem slice_zero (buf : List α) (off : Nat) : slice buf off 0 = [] := by
  simp [slice]

@[simp] theorem slice_all (buf : List α) : slice buf 0 buf.length = buf := by
  simp [slice]

theorem slice_append_left (xs ys : List α) : slice (xs ++ ys) 0 xs.length = xs := by
  simp [slice]

theorem slice_append_right (xs ys : List α) (off len : Nat) :
    slice (xs ++ ys) (xs.length + off) len = slice ys off len := by
  rw [slice, slice, drop_length_add_append]

theorem slice_add (buf : List α) (off m n : Nat) :
    slice buf off (m + n) = slice buf off m ++ slice buf (off + m) n := by
  simp only [slice, take_add, drop_drop]

theorem slice_slice (buf : List α) (h : o + n ≤ len) :
    slice (slice buf off len) o n = slice buf (off + o) n := by
  apply ext_getElem?
  intro i
  simp only [getElem?_slice]
  split
  · rw [if_pos (by omega), Nat.add_assoc]
  · rfl

/-- Two buffers that agree on a slice agree on every part of it. -/
theorem slice_congr_of_le {a b : List α} (h : slice a off len = slice b off len) (lo : off ≤ o)
    (hi : o + n ≤ off + len) : slice a o n = slice b o n := by
  obtain ⟨d, rfl⟩ := Nat.exists_eq_add_of_le lo
  rw [← slice_slice a (show d + n ≤ len by omega), h, slice_slice b (by omega)]

/-! ## Overwriting -/

theorem length_overwrite (h : off + src.length ≤ buf.length) :
    (overwrite buf off src).length = buf.length := by
  simp only [overwrite, length_append, length_take, length_drop]
  omega

theorem getElem?_overwrite (h : off + src.length ≤ buf.length) (i : Nat) :
    (overwrite buf off src)[i]? =
      if i < off then buf[i]? else if i < off + src.length then src[i - off]? else buf[i]? := by
  have hl : (buf.take off).length = off := by
    rw [length_take]; omega
  rw [overwrite, append_assoc]
  split
  · rw [getElem?_append_left (by omega), getElem?_take, if_pos ‹_›]
  · rw [getElem?_append_right (by omega), hl]
    split
    · rw [getElem?_append_left (by omega)]
    · rw [getElem?_append_right (by omega), getElem?_drop]
      congr 1
      omega

@[simp] theorem overwrite_nil (buf : List α) (off : Nat) : overwrite buf off [] = buf := by
  simp [overwrite]

section

variable (h : off + src.length ≤ buf.length)
include h

@[simp] theorem slice_overwrite_self :
    slice (overwrite buf off src) off src.length = src := by
  apply ext_getElem?
  intro i
  rw [getElem?_slice, getElem?_overwrite h]
  split
  · rw [if_neg (by omega), if_pos (by omega), Nat.add_sub_cancel_left]
  · rw [getElem?_eq_none (by omega)]

/-- A slice inside the part just written is a slice of what was written. -/
theorem slice_overwrite_inner (hn : o + n ≤ src.length) :
    slice (overwrite buf off src) (off + o) n = slice src o n := by
  rw [← slice_slice (overwrite buf off src) hn, slice_overwrite_self h]

theorem slice_overwrite_head (hn : n ≤ src.length) :
    slice (overwrite buf off src) off n = slice src 0 n := by
  simpa using slice_overwrite_inner (o := 0) h (by omega)

theorem slice_overwrite_disjoint (hd : o + n ≤ off ∨ off + src.length ≤ o) :
    slice (overwrite buf off src) o n = slice buf o n := by
  apply ext_getElem?
  intro i
  simp only [getElem?_slice, getElem?_overwrite h]
  split
  · rcases hd with hd | hd
    · rw [if_pos (by omega)]
    · rw [if_neg (by omega), if_neg (by omega)]
  · rfl

end

/-! ## Checked access -/

theorem readAt_of_le (h : off + len ≤ buf.length) :
    readAt buf off len = some (slice buf off len) := by
  rw [readAt, if_pos ⟨by omega, by omega, by omega⟩]
  simp

theorem writeAt_of_le (h : off + src.length ≤ buf.length) :
    writeAt buf off src = some (overwrite buf off src) := by
  rw [writeAt, if_pos ⟨by omega, by omega⟩]
  simp

theorem readAt_zero_of_le (h : len ≤ buf.length) : readAt buf 0 len = some (slice buf 0 len) := by
  simpa using readAt_of_le (by omega : 0 + len ≤ buf.length)

theorem writeAt_zero_of_le (h : src.length ≤ buf.length) :
    writeAt buf 0 src = some (overwrite buf 0 src) := by
  simpa using writeAt_of_le (by omega : 0 + src.length ≤ buf.length)

theorem readAt_eq_some {off len : Int} :
    readAt buf off len = some xs ↔
      0 ≤ off ∧ 0 ≤ len ∧ off + len ≤ buf.length ∧ slice buf off.toNat len.toNat = xs := by
  unfold readAt
  split
  · simp_all
  · simp only [reduceCtorEq, false_iff]
    tauto

theorem writeAt_eq_some {off : Int} :
    writeAt buf off src = some xs ↔
      0 ≤ off ∧ off + src.length ≤ buf.length ∧ overwrite buf off.toNat src = xs := by
  unfold writeAt
  split
  · simp_all
  · simp only [reduceCtorEq, false_iff]
    tauto

theorem readAt_of_neg (buf : List α) (off : Int) {len : Int} (h : len < 0) :
    readAt buf off len = none := by
  rw [readAt, if_neg (by omega)]

theorem length_of_readAt {off len : Int} (h : readAt buf off len = some xs) :
    (xs.length : Int) = len := by
  obtain ⟨h0, hl, hb, rfl⟩ := readAt_eq_some.mp h
  rw [length_slice (by omega)]
  omega

theorem length_of_writeAt {off : Int} (h : writeAt buf off src = some xs) :
    xs.length = buf.length := by
  obtain ⟨h0, hb, rfl⟩ := writeAt_eq_some.mp h
  exact length_overwrite (by omega)

end Buffer
