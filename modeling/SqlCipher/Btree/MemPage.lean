import SqlCipher.Codec.Context

/-!
# Pages as the b-tree sees them

`MemPage`, what `btree.c` keeps for each page in the cache besides the content, and the function
`btreeInitPage` that fills it in from the header of the page. What it fills in depends on three
bytes of the content (`btreeInitPage_congr`), and these decide whether the page is accepted at all
(`isInit_btreeInitPage`).
-/

namespace SqlCipher.Btree

structure BtShared where
  pageSize : Nat
  usableSize : Nat
  maxLocal : Nat
  minLocal : Nat
  maxLeaf : Nat
  minLeaf : Nat
  max1bytePayload : Nat
  /-- `SQLITE_CellSizeCk` -/
  cellSizeCk : Bool
  deriving DecidableEq, Repr

inductive CellSize where
  | cellSizePtr | cellSizePtrIdxLeaf | cellSizePtrNoPayload | cellSizePtrTableLeaf
  deriving DecidableEq, Repr

inductive ParseCell where
  | btreeParseCellPtr | btreeParseCellPtrIndex | btreeParseCellPtrNoPayload
  deriving DecidableEq, Repr

/-- A `MemPage`. The pointers into the page are offsets from its start. -/
structure MemPage where
  isInit : Bool
  intKey : Bool
  intKeyLeaf : Bool
  leaf : Bool
  childPtrSize : Nat
  max1bytePayload : Nat
  nOverflow : Nat
  maxLocal : Nat
  minLocal : Nat
  cellOffset : Nat
  nFree : Int
  nCell : Nat
  maskPage : Nat
  aCellIdx : Nat
  aDataEnd : Nat
  aDataOfst : Nat
  xCellSize : CellSize
  xParseCell : ParseCell
  deriving DecidableEq, Repr

def MemPage.blank : MemPage where
  isInit := false
  intKey := false
  intKeyLeaf := false
  leaf := false
  childPtrSize := 0
  max1bytePayload := 0
  nOverflow := 0
  maxLocal := 0
  minLocal := 0
  cellOffset := 0
  nFree := 0
  nCell := 0
  maskPage := 0
  aCellIdx := 0
  aDataEnd := 0
  aDataOfst := 0
  xCellSize := .cellSizePtr
  xParseCell := .btreeParseCellPtr

def hdrOffset (pgno : Nat) : Nat := if pgno = 1 then 100 else 0

def byteAt (data : Bytes) (i : Nat) : Nat := (data.getD i 0).toNat

def get2byte (data : Bytes) (i : Nat) : Nat := byteAt data i * 256 + byteAt data (i + 1)

section

variable (bt : BtShared)

def BtShared.mxCell : Nat := (bt.pageSize - 8) / 6

/-- The loop that reads a 32-bit value with at most `k` bytes after the one at `i`, and its last
position. -/
def varintRest (data : Bytes) : Nat → Nat → Nat → Nat × Nat
  | 0, nSize, i => (nSize, i)
  | k + 1, nSize, i =>
    let x := byteAt data (i + 1)
    let nSize := (nSize * 128 + x % 128) % 2 ^ 32
    if 128 ≤ x then varintRest data k nSize (i + 1) else (nSize, i + 1)

def payloadSize (data : Bytes) (i : Nat) : Nat × Nat :=
  let x := byteAt data i
  let r := if 128 ≤ x then varintRest data 8 (x % 128) i else (x, i)
  (r.1, r.2 + 1)

def skipVarint (data : Bytes) : Nat → Nat → Nat
  | 0, i => i
  | k + 1, i => if 128 ≤ byteAt data i then skipVarint data k (i + 1) else i + 1

def localSize (page : MemPage) (nSize nHeader least : Nat) : Nat :=
  if nSize ≤ page.maxLocal then max least (nSize + nHeader) % 2 ^ 16
  else
    let nSize := page.minLocal + (nSize - page.minLocal) % (bt.usableSize - 4)
    ((if page.maxLocal < nSize then page.minLocal else nSize) + 4 + nHeader) % 2 ^ 16

def cellSizePtr (page : MemPage) (data : Bytes) (pc : Nat) : Nat :=
  let r := payloadSize data (pc + 4)
  localSize bt page r.1 (r.2 - pc) 0

def cellSizePtrIdxLeaf (page : MemPage) (data : Bytes) (pc : Nat) : Nat :=
  let r := payloadSize data pc
  localSize bt page r.1 (r.2 - pc) 4

def cellSizePtrNoPayload (data : Bytes) (pc : Nat) : Nat := skipVarint data 9 (pc + 4) - pc

def cellSizePtrTableLeaf (page : MemPage) (data : Bytes) (pc : Nat) : Nat :=
  let r := payloadSize data pc
  localSize bt page r.1 (skipVarint data 9 r.2 - pc) 4

def MemPage.cellSize (page : MemPage) (data : Bytes) (pc : Nat) : Nat :=
  match page.xCellSize with
  | .cellSizePtr => cellSizePtr bt page data pc
  | .cellSizePtrIdxLeaf => cellSizePtrIdxLeaf bt page data pc
  | .cellSizePtrNoPayload => cellSizePtrNoPayload data pc
  | .cellSizePtrTableLeaf => cellSizePtrTableLeaf bt page data pc

def btreeCellSizeCheck (data : Bytes) (page : MemPage) : ResultCode :=
  let iCellFirst := page.cellOffset + 2 * page.nCell
  let iCellLast : Int := bt.usableSize - 4 - (if page.leaf then 0 else 1)
  if (List.range page.nCell).all fun i =>
      let pc := get2byte data (page.cellOffset + i * 2)
      iCellFirst ≤ pc ∧ pc ≤ iCellLast ∧ pc + page.cellSize bt data pc ≤ bt.usableSize
  then .ok else .corrupt

def decodeFlags (flagByte : Nat) (page : MemPage) : MemPage × ResultCode :=
  let page := { page with max1bytePayload := bt.max1bytePayload }
  if 0x0a ≤ flagByte then
    let page := { page with childPtrSize := 0, leaf := true }
    if flagByte = 0x0d then
      ({ page with
          intKeyLeaf := true
          xCellSize := .cellSizePtrTableLeaf
          xParseCell := .btreeParseCellPtr
          intKey := true
          maxLocal := bt.maxLeaf
          minLocal := bt.minLeaf }, .ok)
    else if flagByte = 0x0a then
      ({ page with
          intKey := false
          intKeyLeaf := false
          xCellSize := .cellSizePtrIdxLeaf
          xParseCell := .btreeParseCellPtrIndex
          maxLocal := bt.maxLocal
          minLocal := bt.minLocal }, .ok)
    else
      ({ page with
          intKey := false
          intKeyLeaf := false
          xCellSize := .cellSizePtrIdxLeaf
          xParseCell := .btreeParseCellPtrIndex }, .corrupt)
  else
    let page := { page with childPtrSize := 4, leaf := false }
    if flagByte = 0x02 then
      ({ page with
          intKey := false
          intKeyLeaf := false
          xCellSize := .cellSizePtr
          xParseCell := .btreeParseCellPtrIndex
          maxLocal := bt.maxLocal
          minLocal := bt.minLocal }, .ok)
    else if flagByte = 0x05 then
      ({ page with
          intKeyLeaf := false
          xCellSize := .cellSizePtrNoPayload
          xParseCell := .btreeParseCellPtrNoPayload
          intKey := true
          maxLocal := bt.maxLeaf
          minLocal := bt.minLeaf }, .ok)
    else
      ({ page with
          intKey := false
          intKeyLeaf := false
          xCellSize := .cellSizePtr
          xParseCell := .btreeParseCellPtrIndex }, .corrupt)

def MemPage.setOffsets (pgno nCell : Nat) (page : MemPage) : MemPage :=
  { page with
    maskPage := (bt.pageSize - 1) % 2 ^ 16
    nOverflow := 0
    cellOffset := hdrOffset pgno + 8 + page.childPtrSize
    aCellIdx := hdrOffset pgno + page.childPtrSize + 8
    aDataEnd := bt.pageSize
    aDataOfst := page.childPtrSize
    nCell := nCell }

def btreeInitPage (pgno : Nat) (data : Bytes) (page : MemPage) :
    MemPage × ResultCode :=
  let r := decodeFlags bt (byteAt data (hdrOffset pgno)) page
  if r.2 ≠ .ok then (r.1, .corrupt)
  else
    let page := r.1.setOffsets bt pgno (get2byte data (hdrOffset pgno + 3))
    if bt.mxCell < page.nCell then (page, .corrupt)
    else
      let page := { page with nFree := -1, isInit := true }
      (page, if bt.cellSizeCk then btreeCellSizeCheck bt data page else .ok)

/-- `pageReinit`, for a page with `nRef` references. What `btreeInitPage` returns is not looked
at. -/
def pageReinit (pgno : Nat) (data : Bytes) (nRef : Nat) (page : MemPage) : MemPage :=
  if page.isInit then
    let page := { page with isInit := false }
    if 1 < nRef then (btreeInitPage bt pgno data page).1 else page
  else page

/-- The bytes of the header that `btreeInitPage` goes by: the flags and the number of cells. -/
def SameHeader (pgno : Nat) (data data' : Bytes) : Prop :=
  byteAt data (hdrOffset pgno) = byteAt data' (hdrOffset pgno) ∧
    get2byte data (hdrOffset pgno + 3) = get2byte data' (hdrOffset pgno + 3)

instance (pgno : Nat) (data data' : Bytes) : Decidable (SameHeader pgno data data') :=
  inferInstanceAs (Decidable (_ ∧ _))

def Accepts (pgno : Nat) (data : Bytes) : Prop :=
  byteAt data (hdrOffset pgno) ∈ [0x02, 0x05, 0x0a, 0x0d] ∧
    get2byte data (hdrOffset pgno + 3) ≤ bt.mxCell

end

instance (bt : BtShared) (pgno : Nat) (data : Bytes) : Decidable (Accepts bt pgno data) :=
  inferInstanceAs (Decidable (_ ∧ _))

variable {bt : BtShared} {pgno : Nat} {data data' : Bytes} {page : MemPage}

theorem decodeFlags_ok :
    (decodeFlags bt flagByte page).2 = .ok ↔ flagByte ∈ [0x02, 0x05, 0x0a, 0x0d] := by
  unfold decodeFlags
  split_ifs <;> simp_all <;> omega

theorem isInit_decodeFlags : (decodeFlags bt flagByte page).1.isInit = page.isInit := by
  unfold decodeFlags
  split_ifs <;> rfl

theorem isInit_btreeInitPage (h : page.isInit = false) :
    (btreeInitPage bt pgno data page).1.isInit = true ↔ Accepts bt pgno data := by
  have hflags : (decodeFlags bt (byteAt data (hdrOffset pgno)) page).2 = .ok ↔ _ := decodeFlags_ok
  have hinit : (decodeFlags bt (byteAt data (hdrOffset pgno)) page).1.isInit = _ :=
    isInit_decodeFlags
  unfold btreeInitPage Accepts
  grind [MemPage.setOffsets]

/-- Only three bytes of the content matter to the fields. -/
theorem btreeInitPage_congr (h : SameHeader pgno data data') :
    (btreeInitPage bt pgno data page).1 = (btreeInitPage bt pgno data' page).1 := by
  unfold btreeInitPage
  rw [h.1, h.2]
  dsimp only
  split_ifs <;> dsimp only

/-- A page is initialized from `data`, or not at all. -/
def MemPage.From (bt : BtShared) (pgno : Nat) (data : Bytes) (page : MemPage) : Prop :=
  page.isInit = false ∨ page = (btreeInitPage bt pgno data { page with isInit := false }).1

instance : Decidable (page.From bt pgno data) := inferInstanceAs (Decidable (_ ∨ _))

/-- What a page that is accepted has held before does not matter, and its flags and number of cells
can be told from it. -/
theorem btreeInitPage_accepts (h : Accepts bt pgno data) (page page' : MemPage) :
    (btreeInitPage bt pgno data page).1 = (btreeInitPage bt pgno data page').1 ∧
      (btreeInitPage bt pgno data page).1.leaf = decide (0x0a ≤ byteAt data (hdrOffset pgno)) ∧
      (btreeInitPage bt pgno data page).1.intKey =
        decide (byteAt data (hdrOffset pgno) ∈ [0x05, 0x0d]) ∧
      (btreeInitPage bt pgno data page).1.nCell = get2byte data (hdrOffset pgno + 3) := by
  obtain ⟨hflag, hcells⟩ := h
  unfold btreeInitPage
  simp only [List.mem_cons, List.not_mem_nil, or_false] at hflag
  rcases hflag with hflag | hflag | hflag | hflag <;>
    simp [hflag, decodeFlags, MemPage.setOffsets, Nat.not_lt.mpr hcells]

theorem sameHeader_of_eq (h : Accepts bt pgno data) (h' : Accepts bt pgno data')
    (heq : (btreeInitPage bt pgno data page).1 = (btreeInitPage bt pgno data' page').1) :
    SameHeader pgno data data' := by
  obtain ⟨-, hleaf, hkey, hcell⟩ := btreeInitPage_accepts h page page
  obtain ⟨-, hleaf', hkey', hcell'⟩ := btreeInitPage_accepts h' page' page'
  refine ⟨?_, hcell.symm.trans (heq ▸ hcell')⟩
  have hflag := h.1
  have hflag' := h'.1
  rw [heq] at hleaf hkey
  have hleaf := hleaf.symm.trans hleaf'
  have hkey := hkey.symm.trans hkey'
  simp only [List.mem_cons, List.not_mem_nil, or_false, decide_eq_decide] at *
  omega

/-- A page is initialized from its decoded content, if it has been decoded, or not at all. -/
def MemPage.Fresh (bt : BtShared) (pgno : Nat) (out : Option Bytes) (page : MemPage) : Prop :=
  page.isInit = false ∨ ∃ plain ∈ out, page.From bt pgno plain

instance {out : Option Bytes} : Decidable (page.Fresh bt pgno out) :=
  inferInstanceAs (Decidable (_ ∨ _))

/-- A page reinitialized from `data` is initialized from the pages with the same header, and from
any page at all if `data` is not accepted. -/
theorem pageReinit_fresh : (pageReinit bt pgno data nRef page).Fresh bt pgno out ↔
    (page.isInit = true → 1 < nRef → Accepts bt pgno data →
      ∃ plain ∈ out, SameHeader pgno data plain) := by
  unfold pageReinit
  split_ifs with hinit href
  · have hiff : (btreeInitPage bt pgno data { page with isInit := false }).1.isInit = true ↔ _ :=
      isInit_btreeInitPage rfl
    constructor
    · intro hfresh _ _ hacc
      obtain hno | ⟨plain, hplain, hno | hfrom⟩ := hfresh
      · exact absurd (hno.symm.trans (hiff.mpr hacc)) nofun
      · exact absurd (hno.symm.trans (hiff.mpr hacc)) nofun
      · refine ⟨plain, hplain, sameHeader_of_eq hacc ?_ hfrom⟩
        exact (isInit_btreeInitPage rfl).mp (hfrom ▸ hiff.mpr hacc)
    · intro h
      by_cases hacc : Accepts bt pgno data
      · obtain ⟨plain, hplain, hsame⟩ := h hinit href hacc
        have hacc' : Accepts bt pgno plain := by
          unfold Accepts
          rw [← hsame.1, ← hsame.2]
          exact hacc
        refine .inr ⟨plain, hplain, .inr ?_⟩
        rw [btreeInitPage_congr hsame]
        exact (btreeInitPage_accepts hacc' _ _).1
      · exact .inl (Bool.not_eq_true _ ▸ mt hiff.mp hacc)
  · exact ⟨fun _ _ h => absurd h href, fun _ => .inl rfl⟩
  · exact ⟨fun _ h => absurd h hinit, fun _ => .inl (Bool.not_eq_true _ ▸ hinit)⟩

end SqlCipher.Btree
