import SqlCipher.Btree.Varint

/-!
# Parsing cells

`CellInfo`, what `btree.c` knows about a cell, and the three functions that fill it in. They read
the header of the cell with loops of their own, and so do the four functions that only want the
size of a cell. The sizes agree (`cellSize_eq_nSize`), and so does the reader of the key with that
of `util.c` (`cellKey_eq`). The readers of the payload size take seven bits of a ninth byte, and
cut off what does not fit in 32 bits (`payloadSize_eq_getVarint32_iff`).
-/

namespace SqlCipher.Btree

/-- `CellInfo`. The payload of a cell without one is nowhere. -/
structure CellInfo where
  nKey : Int
  pPayload : Option Nat
  nPayload : Nat
  nLocal : Nat
  nSize : Nat
  deriving DecidableEq, Repr

section

variable (bt : BtShared)

/-- `btreeParseCellAdjustSizeForOverflow`, for a payload at `i` of the cell at `pc`. -/
def parseCellAdjustSizeForOverflow (page : MemPage) (pc i : Nat) (nKey : Int)
    (nPayload : Nat) : CellInfo :=
  let surplus := page.minLocal + (nPayload - page.minLocal) % (bt.usableSize - 4)
  let nLocal := if surplus ≤ page.maxLocal then surplus % 2 ^ 16 else page.minLocal % 2 ^ 16
  { nKey, pPayload := some i, nPayload, nLocal,
    nSize := ((i + nLocal - pc) % 2 ^ 16 + 4) % 2 ^ 16 }

def parseCellPayload (page : MemPage) (pc i : Nat) (nKey : Int) (nPayload : Nat) :
    CellInfo :=
  if nPayload ≤ page.maxLocal then
    let nSize := (nPayload % 2 ^ 16 + (i - pc) % 2 ^ 16) % 2 ^ 16
    { nKey, pPayload := some i, nPayload, nLocal := nPayload % 2 ^ 16,
      nSize := if nSize < 4 then 4 else nSize }
  else parseCellAdjustSizeForOverflow bt page pc i nKey nPayload

/-- The loop of `btreeParseCellPtr`, which has 64 bits. -/
def varintRestWide (data : Bytes) : Nat → Nat → Nat → Nat × Nat
  | 0, nPayload, i => (nPayload, i)
  | k + 1, nPayload, i =>
    let x := byteAt data (i + 1)
    let nPayload := (nPayload * 128 + x % 128) % 2 ^ 64
    if 128 ≤ x then varintRestWide data k nPayload (i + 1) else (nPayload, i + 1)

/-- The payload size at `i` as `btreeParseCellPtr` reads it, and the position after it. -/
def payloadSizeWide (data : Bytes) (i : Nat) : Nat × Nat :=
  let x := byteAt data i
  if 128 ≤ x then
    let r := varintRestWide data 8 (x % 128) i
    (r.1 % 2 ^ 32, r.2 + 1)
  else (x, i + 1)

def parseCellPtrNoPayload (data : Bytes) (pc : Nat) : CellInfo :=
  let r := getVarint data (pc + 4)
  { nKey := r.1.toInt64.toInt, pPayload := none, nPayload := 0, nLocal := 0, nSize := 4 + r.2 }

/-- The key at `i` as `btreeParseCellPtr` reads it, with the loop unrolled, and the position after
it. -/
def cellKey (data : Bytes) (i : Nat) : UInt64 × Nat :=
  let iKey := (data.getD i 0).toUInt64
  if 0x80 ≤ data.getD i 0 then
    let x := data.getD (i + 1) 0
    let iKey := (iKey <<< 7) ^^^ x.toUInt64
    if 0x80 ≤ x then
      let x := data.getD (i + 2) 0
      let iKey := (iKey <<< 7) ^^^ x.toUInt64
      if 0x80 ≤ x then
        let x := data.getD (i + 3) 0
        let iKey := (iKey <<< 7) ^^^ 0x10204000 ^^^ x.toUInt64
        if 0x80 ≤ x then
          let x := data.getD (i + 4) 0
          let iKey := (iKey <<< 7) ^^^ 0x4000 ^^^ x.toUInt64
          if 0x80 ≤ x then
            let x := data.getD (i + 5) 0
            let iKey := (iKey <<< 7) ^^^ 0x4000 ^^^ x.toUInt64
            if 0x80 ≤ x then
              let x := data.getD (i + 6) 0
              let iKey := (iKey <<< 7) ^^^ 0x4000 ^^^ x.toUInt64
              if 0x80 ≤ x then
                let x := data.getD (i + 7) 0
                let iKey := (iKey <<< 7) ^^^ 0x4000 ^^^ x.toUInt64
                if 0x80 ≤ x then
                  ((iKey <<< 8) ^^^ 0x8000 ^^^ (data.getD (i + 8) 0).toUInt64, i + 9)
                else (iKey, i + 8)
              else (iKey, i + 7)
            else (iKey, i + 6)
          else (iKey, i + 5)
        else (iKey, i + 4)
      else (iKey ^^^ 0x204000, i + 3)
    else (iKey ^^^ 0x4000, i + 2)
  else (iKey, i + 1)

def parseCellPtr (page : MemPage) (data : Bytes) (pc : Nat) : CellInfo :=
  let r := payloadSizeWide data pc
  let k := cellKey data r.2
  parseCellPayload bt page pc k.2 k.1.toInt64.toInt r.1

def parseCellPtrIndex (page : MemPage) (data : Bytes) (pc : Nat) : CellInfo :=
  let r := payloadSize data (pc + page.childPtrSize)
  parseCellPayload bt page pc r.2 r.1 r.1

def MemPage.parseCell (page : MemPage) (data : Bytes) (pc : Nat) : CellInfo :=
  match page.xParseCell with
  | .btreeParseCellPtr => parseCellPtr bt page data pc
  | .btreeParseCellPtrIndex => parseCellPtrIndex bt page data pc
  | .btreeParseCellPtrNoPayload => parseCellPtrNoPayload data pc

/-- The sizes as `lockBtree` computes them. -/
structure BtShared.Sized : Prop where
  usable_ge : 480 ≤ bt.usableSize
  usable_le : bt.usableSize ≤ bt.pageSize
  page_le : bt.pageSize ≤ 65536
  maxLocal_eq : bt.maxLocal = (bt.usableSize - 12) * 64 / 255 - 23
  minLocal_eq : bt.minLocal = (bt.usableSize - 12) * 32 / 255 - 23
  maxLeaf_eq : bt.maxLeaf = bt.usableSize - 35
  minLeaf_eq : bt.minLeaf = (bt.usableSize - 12) * 32 / 255 - 23

inductive PageType where
  | indexInterior | tableInterior | indexLeaf | tableLeaf
  deriving DecidableEq, Repr

def PageType.flags : PageType → Nat
  | .indexInterior => 0x02
  | .tableInterior => 0x05
  | .indexLeaf => 0x0a
  | .tableLeaf => 0x0d

def MemPage.OfType (page : MemPage) (t : PageType) : Prop :=
  decodeFlags bt t.flags page = (page, .ok)

end

instance (bt : BtShared) (page : MemPage) (t : PageType) : Decidable (page.OfType bt t) :=
  inferInstanceAs (Decidable (_ = _))

variable {bt : BtShared} {page : MemPage} {t : PageType} {data : Bytes} {pc i n : Nat} {k : Int}

/-- Every page that `decodeFlags` accepts is of one of the types. -/
theorem exists_ofType (h : (decodeFlags bt flagByte page).2 = .ok) :
    ∃ t : PageType, flagByte = t.flags ∧ (decodeFlags bt flagByte page).1.OfType bt t := by
  have hflag := decodeFlags_ok.mp h
  simp only [List.mem_cons, List.not_mem_nil, or_false] at hflag
  rcases hflag with rfl | rfl | rfl | rfl
  · exact ⟨.indexInterior, rfl, rfl⟩
  · exact ⟨.tableInterior, rfl, rfl⟩
  · exact ⟨.indexLeaf, rfl, rfl⟩
  · exact ⟨.tableLeaf, rfl, rfl⟩

namespace MemPage.OfType

section

variable (h : page.OfType bt t)
include h

theorem page_eq : page = (decodeFlags bt t.flags page).1 := by
  rw [show decodeFlags bt t.flags page = (page, .ok) from h]

theorem childPtrSize_eq :
    page.childPtrSize = if t = .indexInterior ∨ t = .tableInterior then 4 else 0 := by
  rw [h.page_eq]
  cases t <;> rfl

theorem cellSize_eq : page.cellSize bt data pc = match t with
    | .indexInterior => cellSizePtr bt page data pc
    | .tableInterior => cellSizePtrNoPayload data pc
    | .indexLeaf => cellSizePtrIdxLeaf bt page data pc
    | .tableLeaf => cellSizePtrTableLeaf bt page data pc := by
  have hsize : page.xCellSize = (decodeFlags bt t.flags page).1.xCellSize := congrArg _ h.page_eq
  unfold MemPage.cellSize
  rw [hsize]
  cases t <;> rfl

theorem parseCell_eq : page.parseCell bt data pc = match t with
    | .indexInterior => parseCellPtrIndex bt page data pc
    | .tableInterior => parseCellPtrNoPayload data pc
    | .indexLeaf => parseCellPtrIndex bt page data pc
    | .tableLeaf => parseCellPtr bt page data pc := by
  have hparse : page.xParseCell = (decodeFlags bt t.flags page).1.xParseCell := congrArg _ h.page_eq
  unfold MemPage.parseCell
  rw [hparse]
  cases t <;> rfl

theorem maxLocal_eq :
    page.maxLocal = if t = .tableLeaf ∨ t = .tableInterior then bt.maxLeaf else bt.maxLocal := by
  rw [h.page_eq]
  cases t <;> rfl

theorem minLocal_eq :
    page.minLocal = if t = .tableLeaf ∨ t = .tableInterior then bt.minLeaf else bt.minLocal := by
  rw [h.page_eq]
  cases t <;> rfl

end

/-- What is kept on a page leaves room for the header of a cell and a page number. -/
theorem maxLocal_le (hbt : bt.Sized) (h : page.OfType bt t) :
    page.minLocal ≤ page.maxLocal ∧ page.maxLocal + 35 ≤ bt.usableSize := by
  obtain ⟨_, _, _, _, _, _, _⟩ := hbt
  rw [h.maxLocal_eq, h.minLocal_eq]
  split <;> omega

end MemPage.OfType

/-- The size of a cell with a header of `nHeader` bytes, in the size functions and in the
parsers. -/
theorem localSize_eq (hbt : bt.Sized) (h : page.OfType bt t) (hheader : nHeader ≤ 18)
    (hleast : least = 4 ∨ least = 0 ∧ 4 ≤ nHeader) :
    localSize bt page nPayload nHeader least =
      (parseCellPayload bt page pc (pc + nHeader) nKey nPayload).nSize := by
  obtain ⟨hmin, hmax⟩ := h.maxLocal_le hbt
  obtain ⟨_, _, _, -, -, -, -⟩ := hbt
  unfold localSize parseCellPayload parseCellAdjustSizeForOverflow
  split
  · have hfit : (nPayload % 2 ^ 16 + (pc + nHeader - pc) % 2 ^ 16) % 2 ^ 16 =
        nPayload + nHeader := by omega
    simp only [hfit]
    split <;> omega
  · simp only
    split <;> split <;> omega

theorem payloadSizeWide_eq (i : Nat) : payloadSizeWide data i = payloadSize data i := by
  have hrest : ∀ k n i, varintRest data k (n % 2 ^ 32) i =
      ((varintRestWide data k n i).1 % 2 ^ 32, (varintRestWide data k n i).2) := by
    intro k
    induction k with
    | zero => intro n i; rfl
    | succ k ih =>
      intro n i
      rw [varintRest, varintRestWide]
      have hstep : (n % 2 ^ 32 * 128 + byteAt data (i + 1) % 128) % 2 ^ 32 =
          (n * 128 + byteAt data (i + 1) % 128) % 2 ^ 64 % 2 ^ 32 := by omega
      rw [hstep]
      split
      · exact ih _ _
      · rfl
  have hall := hrest 8 (byteAt data i % 128) i
  rw [Nat.mod_eq_of_lt (show byteAt data i % 128 < 2 ^ 32 by omega)] at hall
  simp only [payloadSizeWide, payloadSize, hall]
  split <;> rfl

theorem cellKey_eq (i : Nat) :
    cellKey data i = ((getVarint data i).1, i + (getVarint data i).2) := by
  simp only [cellKey, getVarint, varintTail]
  split_ifs <;> rfl

theorem cellSize_eq_nSize (hbt : bt.Sized) (h : page.OfType bt t) :
    page.cellSize bt data pc = (page.parseCell bt data pc).nSize := by
  have hlen : ∀ i, varintLength data i ≤ 9 := fun _ => varintLength_le
  have hchild := h.childPtrSize_eq
  rw [h.cellSize_eq, h.parseCell_eq]
  cases t with
  | tableInterior =>
    simp only [cellSizePtrNoPayload, parseCellPtrNoPayload, skipVarint_eq, getVarint_eq]
    omega
  | tableLeaf =>
    simp only [cellSizePtrTableLeaf, parseCellPtr, payloadSizeWide_eq, payloadSize_eq,
      skipVarint_eq, cellKey_eq, getVarint_eq]
    have h₁ := hlen pc
    have h₂ := hlen (pc + varintLength data pc)
    rw [Nat.add_assoc pc, Nat.add_sub_cancel_left]
    exact localSize_eq hbt h (by omega) (.inl rfl)
  | indexLeaf =>
    simp only [reduceCtorEq, or_self, if_false] at hchild
    simp only [cellSizePtrIdxLeaf, parseCellPtrIndex, payloadSize_eq, hchild, Nat.add_zero,
      Nat.add_sub_cancel_left]
    exact localSize_eq hbt h ((hlen pc).trans (by decide)) (.inl rfl)
  | indexInterior =>
    simp only [true_or, if_true] at hchild
    simp only [cellSizePtr, parseCellPtrIndex, payloadSize_eq, hchild, Nat.add_assoc,
      Nat.add_sub_cancel_left]
    have := hlen (pc + 4)
    exact localSize_eq hbt h (by omega) (.inr ⟨rfl, by omega⟩)

@[simp] theorem parseCellPayload_nKey : (parseCellPayload bt page pc i k n).nKey = k := by
  unfold parseCellPayload
  split <;> rfl

@[simp] theorem parseCellPayload_nPayload : (parseCellPayload bt page pc i k n).nPayload = n := by
  unfold parseCellPayload
  split <;> rfl

@[simp] theorem parseCellPayload_pPayload :
    (parseCellPayload bt page pc i k n).pPayload = some i := by
  unfold parseCellPayload
  split <;> rfl

/-- The payload sizes at which the b-tree and `getVarint32` agree. They fit in 32 bits and do
without the eighth bit of a ninth byte, or both readers end at the largest 32-bit value. -/
def Readable (data : Bytes) (i : Nat) : Prop :=
  let v := (getVarint data i).1.toNat
  let short := if (getVarint data i).2 = 9 then v / 256 * 128 + v % 128 else v
  short = v ∧ v < 2 ^ 32 ∨ 2 ^ 32 - 1 ≤ v ∧ short % 2 ^ 32 = 2 ^ 32 - 1

instance (data : Bytes) (i : Nat) : Decidable (Readable data i) :=
  inferInstanceAs (Decidable (_ ∨ _))

theorem groups_eq_short : groups data i (varintLength data i) =
    if varintLength data i = 9 then varintValue data i / 256 * 128 + varintValue data i % 128
    else varintValue data i := by
  split
  · next hnine =>
    have hlast := byteAt_lt (p := data) (i := i + 8)
    rw [varintValue, valueOf, if_pos hnine, hnine, groups_succ]
    omega
  · next hshort => rw [varintValue, valueOf, if_neg hshort]

theorem payloadSize_eq_getVarint32_iff :
    (payloadSize data i).1 = (getVarint32 data i).1 ↔ Readable data i := by
  have hlt := varintValue_lt (p := data) (i := i)
  have hle : groups data i (varintLength data i) ≤ varintValue data i := by
    rw [groups_eq_short]
    split <;> omega
  rw [Readable, payloadSize_eq, getVarint32_eq, getVarint_eq,
    UInt64.toNat_ofNat_of_lt' (by simpa [UInt64.size] using hlt), ← groups_eq_short]
  simp only
  omega

def keyOffset (t : PageType) (data : Bytes) (pc : Nat) : Nat :=
  if t = .tableLeaf then pc + (getVarint32 data pc).2 else pc + 4

/-- The size functions agree with the parsers. The key of a table page is what `sqlite3GetVarint`
reads. Except on interior table pages, the payload size ends where `getVarint32` ends, and is what
it reads for the encodings of `Readable` and no others. -/
theorem parseCell_agrees (bt : BtShared) (hbt : bt.Sized) (t : PageType) (page : MemPage)
    (h : page.OfType bt t) (data : Bytes) (pc : Nat) :
    let info := page.parseCell bt data pc
    let i := pc + page.childPtrSize
    page.cellSize bt data pc = info.nSize ∧
      (t = .tableLeaf ∨ t = .tableInterior →
        info.nKey = (getVarint data (keyOffset t data pc)).1.toInt64.toInt) ∧
      (t = .indexLeaf ∨ t = .indexInterior → info.nKey = info.nPayload) ∧
      (t ≠ .tableInterior →
        info.pPayload = some (if t = .tableLeaf then
            keyOffset t data pc + (getVarint data (keyOffset t data pc)).2
          else i + (getVarint32 data i).2) ∧
        (info.nPayload = (getVarint32 data i).1 ↔ Readable data i)) := by
  have hchild := h.childPtrSize_eq
  have hend : ∀ i, (payloadSize data i).2 = i + (getVarint32 data i).2 := by
    intro i
    rw [payloadSize_eq, getVarint32_eq]
  refine ⟨cellSize_eq_nSize hbt h, ?_⟩
  rw [h.parseCell_eq]
  cases t with
  | tableInterior => simp [parseCellPtrNoPayload, keyOffset]
  | tableLeaf =>
    have hzero : page.childPtrSize = 0 := hchild
    simp only [parseCellPtr, payloadSizeWide_eq, cellKey_eq, parseCellPayload_nKey,
      parseCellPayload_pPayload, parseCellPayload_nPayload, hend, hzero, Nat.add_zero]
    simpa [keyOffset] using payloadSize_eq_getVarint32_iff
  | indexLeaf =>
    simpa [parseCellPtrIndex, hend] using payloadSize_eq_getVarint32_iff
  | indexInterior =>
    simpa [parseCellPtrIndex, hend] using payloadSize_eq_getVarint32_iff

def smallShared : BtShared where
  pageSize := 512
  usableSize := 512
  maxLocal := 102
  minLocal := 39
  maxLeaf := 477
  minLeaf := 39
  max1bytePayload := 102
  cellSizeCk := false

def smallLeaf : MemPage := (decodeFlags smallShared 0x0a .blank).1

/-- A payload of three bytes on a leaf of an index. -/
theorem parseCell_agrees_small :
    smallLeaf.cellSize smallShared [3, 7, 8, 9] 0 =
        (smallLeaf.parseCell smallShared [3, 7, 8, 9] 0).nSize ∧
      (smallLeaf.parseCell smallShared [3, 7, 8, 9] 0).nPayload = 3 := by
  have hall := parseCell_agrees smallShared ⟨by decide, by decide, by decide, rfl, rfl, rfl, rfl⟩
    .indexLeaf smallLeaf rfl [3, 7, 8, 9] 0
  exact ⟨hall.1, (hall.2.2.2 (by decide)).2.mpr (by decide)⟩

/-- A payload size of 2³² bytes, in five bytes. -/
def hugeCell : Bytes := [0x90, 0x80, 0x80, 0x80, 0]

/-- A payload size of 256 bytes, in nine bytes. -/
def paddedCell : Bytes := [0x80, 0x80, 0x80, 0x80, 0x80, 0x80, 0x80, 0x81, 0]

/-- A payload size of 2³² bytes is read as zero, and one of nine bytes without the last byte's
eighth bit. `getVarint32` gives the largest 32-bit value, and all bits. -/
theorem not_parseCell_agrees :
    (smallLeaf.parseCell smallShared hugeCell 0).nPayload = 0 ∧
      (getVarint32 hugeCell 0).1 = 0xffffffff ∧
      (smallLeaf.parseCell smallShared paddedCell 0).nPayload = 128 ∧
      (getVarint32 paddedCell 0).1 = 256 := by
  decide

end SqlCipher.Btree
