import Mathlib.Data.List.Forall2
import Mathlib.Data.List.Induction
import SqlCipher.Wal.Mergesort

/-!
# The two checkpoint iterators

A checkpoint visits the pages of the log in ascending order, each with its last frame. The iterator
is either a merge of sorted blocks of the wal-index (WALITER-1) or a map from all pages of the
database to their last frames (WALITER-2); `walIteratorInit()` takes the smaller one. Both yield the
same, and the map fits into the block allocated for it, if and only if the size of the block does
not wrap around. What is read behind the block of a map may be anything. The blocks of the merge are
modelled as lists: a wal-index whose blocks would not fit could not be mapped.
-/

namespace SqlCipher.Wal

open List Option

/-- The widths of `size_t`. -/
inductive SizeT
  | bits32
  | bits64

def SizeT.width : SizeT → Nat
  | bits32 => 32
  | bits64 => 64

/-- `SZ_WALITERATOR()`: three `u32`, then segments of three `int` and two pointers, aligned. -/
def SizeT.szWalIterator (nSegment : Nat) : SizeT → Nat
  | bits32 => 12 + nSegment * 20
  | bits64 => 16 + nSegment * 32

/-- What `walIteratorInit()` reads: the header and the page number of each frame, from frame 1 on.
-/
structure WalIndex where
  size : SizeT
  mxFrame : Nat
  nPage : Nat
  nBackfill : Nat
  pgno : Nat → Nat
  backfill_lt : nBackfill < mxFrame
  mxFrame_lt : mxFrame < 2 ^ 32
  nPage_lt : nPage < 2 ^ 32

/-- The sum is a `u32`, the difference and the quotient a `size_t`, and the result an `int`, whose
negative values are those from 2^31 on here. -/
def walFramePage (size : SizeT) (iFrame : Nat) : Nat :=
  ((iFrame + 4096) % 2 ^ 32 + (2 ^ size.width - 4062 - 1)) % 2 ^ size.width / 4096 % 2 ^ 32

/-- The asserts of `walFramePage()`. -/
def InTable (size : SizeT) (iFrame : Nat) : Prop :=
  (walFramePage size iFrame = 0 ∨ 4062 < iFrame) ∧
    (1 ≤ walFramePage size iFrame ∨ iFrame ≤ 4062) ∧
    (walFramePage size iFrame ≤ 1 ∨ 4062 + 4096 < iFrame) ∧
    (2 ≤ walFramePage size iFrame ∨ iFrame ≤ 4062 + 4096) ∧
    (walFramePage size iFrame ≤ 2 ∨ 4062 + 2 * 4096 < iFrame) ∧ walFramePage size iFrame < 2 ^ 31

instance : Decidable (InTable size iFrame) := inferInstanceAs (Decidable (_ ∧ _))

/-- The asserts hold as long as nothing wraps around. -/
theorem walFramePage_eq (hlt : iFrame < 2 ^ 32) (h : InTable size iFrame) :
    walFramePage size iFrame = (iFrame + 33) / 4096 := by
  unfold InTable walFramePage at *
  cases size <;> simp only [SizeT.width] at * <;> omega

def hashZero (i : Nat) : Nat := if i = 0 then 0 else 4062 + (i - 1) * 4096

def hashSize (i : Nat) : Nat := if i = 0 then 4062 else 4096

namespace WalIndex

variable (x : WalIndex)

def firstPage : Nat := walFramePage x.size (x.nBackfill + 1)

def lastPage : Nat := walFramePage x.size x.mxFrame

def blocks : List Nat := (range (x.lastPage + 1 - x.firstPage)).map (x.firstPage + ·)

def nEntry (i : Nat) : Nat := if i = x.lastPage then x.mxFrame - hashZero i else hashSize i

def blockFrames (i : Nat) : List Nat := (range (x.nEntry i)).map (hashZero i + 1 + ·)

def frames : List Nat := x.blocks.flatMap x.blockFrames

end WalIndex

structure WalSegment where
  iZero : Nat
  aIndex : List Nat
  aPgno : Nat → Nat

structure WalIterator where
  iPrior : Nat
  nPagemap : Nat
  aPagemap : Nat → Nat
  aSegment : List WalSegment

variable (x : WalIndex)

def sortIterator : WalIterator where
  iPrior := 0
  nPagemap := 0
  aPagemap := fun _ => 0
  aSegment := x.blocks.map fun i =>
    let aPgno := fun j => x.pgno (hashZero i + 1 + j)
    ⟨hashZero i + 1, walMergesort aPgno (x.nEntry i), aPgno⟩

/-- The choice between the algorithms. -/
def choosesMap : Bool :=
  (x.mxFrame + (2 ^ 32 - hashZero x.firstPage % 2 ^ 32)) % 2 ^ 32 * 2 % 2 ^ x.size.width >
    x.nPage * 4 % 2 ^ x.size.width

/-- The bytes allocated for the iterator of algorithm WALITER-2. -/
def mapBytes : Nat := (x.size.szWalIterator 1 + x.nPage * 4) % 2 ^ x.size.width

/-- The page map is chosen, and not larger than `SQLITE_MAX_ALLOCATION_SIZE`. -/
def buildsMap : Bool := choosesMap x && mapBytes x ≤ 2147483391

/-- The iterator of algorithm WALITER-2, whose only segment stays empty. An entry outside the block
is what the memory behind it holds when it is read. -/
def mapIterator (behind : Nat → Nat) : WalIterator where
  iPrior := 0
  nPagemap := x.nPage
  aPagemap page :=
    if x.size.szWalIterator 1 + page * 4 ≤ mapBytes x then
      x.frames.foldl (fun map f => if x.pgno f ≤ x.nPage then
        Function.update map (x.pgno f) f else map)
        (fun _ => 0) page
    else behind page
  aSegment := [⟨0, [], fun _ => 0⟩]

def walIteratorInit (behind : Nat → Nat) : Option WalIterator :=
  if choosesMap x then
    if buildsMap x then some (mapIterator x behind) else none
  else some (sortIterator x)

/-- The offsets at which the page map is written. The entry of page 0 is the last member of the
segment, before the others. -/
def mapWrites : List Nat :=
  (x.frames.filter (x.pgno · ≤ x.nPage)).map fun f => x.size.szWalIterator 1 - 4 + 4 * x.pgno f

/-- The loop of algorithm WALITER-2, with the number of pages left. -/
def mapNext (aPagemap : Nat → Nat) : Nat → Nat → Nat × Nat
  | 0, _ => (0xFFFFFFFF, 0)
  | n + 1, iPrior =>
    if aPagemap (iPrior + 1) ≠ 0 then (iPrior + 1, aPagemap (iPrior + 1))
    else mapNext aPagemap n (iPrior + 1)

def WalSegment.advance (iMin : Nat) (s : WalSegment) : WalSegment :=
  { s with aIndex := s.aIndex.dropWhile (s.aPgno · ≤ iMin) }

def sortNext (iMin : Nat) : List WalSegment → Nat × Nat
  | [] => (0xFFFFFFFF, 0)
  | s :: segments =>
    let best := sortNext iMin segments
    match (s.advance iMin).aIndex with
    | [] => best
    | j :: _ => if s.aPgno j < best.1 then (s.aPgno j, s.iZero + j) else best

def WalIterator.scan (p : WalIterator) : Nat × Nat :=
  if p.nPagemap ≠ 0 then mapNext p.aPagemap (p.nPagemap - p.iPrior) p.iPrior
  else sortNext p.iPrior p.aSegment

def WalIterator.advance (p : WalIterator) : WalIterator :=
  { p with iPrior := p.scan.1, aSegment := p.aSegment.map (·.advance p.iPrior) }

def walIteratorNext (p : WalIterator) : Option ((Nat × Nat) × WalIterator) :=
  if p.scan.1 = 0xFFFFFFFF then none else some (p.scan, p.advance)

/-- What the iterator returns until its end. -/
inductive Yields : WalIterator → List (Nat × Nat) → Prop
  | stop {p} : walIteratorNext p = none → Yields p []
  | next {p p' x l} : walIteratorNext p = some (x, p') → Yields p' l → Yields p (x :: l)

variable (pgno : Nat → Nat)

def lastFrame (frames : List Nat) (page : Nat) : Option Nat :=
  (frames.filter (pgno · = page)).getLast?

/-- Each page after `iPrior` with its frame. The numbers 0 and 0xFFFFFFFF are no pages. -/
def pagesAfter (frame : Nat → Option Nat) (iPrior : Nat) : List (Nat × Nat) :=
  (range' (iPrior + 1) (0xFFFFFFFF - (iPrior + 1))).filterMap fun page =>
    (frame page).map (page, ·)

/-- The last frame of a page of the database. -/
def WalIndex.pageFrame (page : Nat) : Option Nat :=
  if page ≤ x.nPage then lastFrame x.pgno x.frames page else none

/-- Each page of the database that occurs in the tables visited, with its last frame. -/
def WalIndex.lastFrames : List (Nat × Nat) := pagesAfter x.pageFrame 0

/-- The first page after `iPrior` that has a frame, with this frame. -/
structure Returns (frame : Nat → Option Nat) (iPrior : Nat) (r : Nat × Nat) : Prop where
  le : r.1 ≤ 0xFFFFFFFF
  none : ∀ page, iPrior < page → page < r.1 → frame page = .none
  some : r.1 < 0xFFFFFFFF → iPrior < r.1 ∧ frame r.1 = .some r.2

theorem pagesAfter_eq (h : Returns frame iPrior r) :
    pagesAfter frame iPrior = if r.1 = 0xFFFFFFFF then [] else r :: pagesAfter frame r.1 := by
  have hnone : ∀ n, iPrior + 1 + n ≤ r.1 →
      ((range' (iPrior + 1) n).filterMap fun page => (frame page).map (page, ·)) = [] := by
    intro n hn
    rw [filterMap_eq_nil_iff]
    intro page hpage
    rw [mem_range'_1] at hpage
    rw [h.none page (by omega) (by omega), map_none]
  split_ifs with hend
  · rcases Nat.lt_or_ge iPrior 0xFFFFFFFF with hlt | hge
    · exact hnone _ (by omega)
    · rw [pagesAfter, Nat.sub_eq_zero_of_le (by omega)]
      rfl
  · have := h.le
    obtain ⟨hlt, hframe⟩ := h.some (by omega)
    have hsplit : 0xFFFFFFFF - (iPrior + 1) =
        (r.1 - (iPrior + 1)) + (0xFFFFFFFF - (r.1 + 1) + 1) := by omega
    rw [pagesAfter, hsplit, ← range'_append_1, filterMap_append, hnone _ (by omega),
      nil_append, Nat.add_sub_cancel' hlt, range'_succ, filterMap_cons, hframe]
    rfl

/-- An iterator that returns the right page in each state it takes yields all of them. -/
theorem yields_of_returns {I : WalIterator → Prop}
    (hscan : ∀ p, I p → Returns frame p.iPrior p.scan)
    (hadvance : ∀ p, I p → p.scan.1 ≠ 0xFFFFFFFF → I p.advance) (hp : I p) :
    Yields p (pagesAfter frame p.iPrior) := by
  induction hn : 0xFFFFFFFF - p.iPrior using Nat.strong_induction_on generalizing p with
  | _ n ih =>
    have hreturns := hscan p hp
    rw [pagesAfter_eq hreturns]
    split_ifs with hend
    · exact .stop (if_pos hend)
    · have hlt := (hreturns.some (lt_of_le_of_ne hreturns.le hend)).1
      have := hreturns.le
      refine .next (if_neg hend) (ih _ ?_ (hadvance p hp hend) rfl)
      simp only [WalIterator.advance]
      omega

theorem mem_pagesAfter : (page, f) ∈ pagesAfter frame iPrior ↔
    iPrior < page ∧ page < 0xFFFFFFFF ∧ frame page = some f := by
  rw [pagesAfter, mem_filterMap]
  constructor
  · rintro ⟨page', hpage, h⟩
    rw [mem_range'_1] at hpage
    obtain ⟨f', hf, heq⟩ := map_eq_some_iff.mp h
    obtain ⟨rfl, rfl⟩ := Prod.mk.inj heq
    exact ⟨by omega, by omega, hf⟩
  · rintro ⟨hlt, hmax, hf⟩
    exact ⟨page, mem_range'_1.mpr (by omega), by rw [hf]; rfl⟩

theorem Yields.unique (h : Yields p l) (h' : Yields p l') : l = l' := by
  induction h generalizing l' with
  | stop hnone =>
    cases h' with
    | stop => rfl
    | next hsome => cases hnone.symm.trans hsome
  | next hsome _ ih =>
    cases h' with
    | stop hnone => cases hnone.symm.trans hsome
    | next hsome' h' =>
      obtain ⟨rfl, rfl⟩ := Prod.mk.inj (some.inj (hsome.symm.trans hsome'))
      rw [ih h']

theorem lastFrame_append (l l' : List Nat) (page : Nat) :
    lastFrame pgno (l ++ l') page = (lastFrame pgno l' page).or (lastFrame pgno l page) := by
  rw [lastFrame, filter_append, getLast?_append]
  rfl

theorem mapIterator_aPagemap (hpage : page ≤ x.nPage)
    (hentry : x.size.szWalIterator 1 + page * 4 ≤ mapBytes x) :
    (mapIterator x behind).aPagemap page = (lastFrame x.pgno x.frames page).getD 0 := by
  simp only [mapIterator, if_pos hentry]
  induction x.frames using reverseRecOn with
  | nil => rfl
  | append_singleton frames f ih =>
    rw [foldl_append, lastFrame_append]
    by_cases h : x.pgno f = page
    · simp [lastFrame, h, hpage]
    · by_cases hle : x.pgno f ≤ x.nPage
      · simp [lastFrame, h, hle, Function.update_of_ne (Ne.symm h), ih]
      · simp [lastFrame, h, hle, ih]

theorem frame_pos (h : lastFrame x.pgno x.frames page = some f) : 0 < f := by
  have hmem := (mem_filter.mp (mem_of_getLast? h)).1
  obtain ⟨i, -, hf⟩ := mem_flatMap.mp hmem
  obtain ⟨j, -, rfl⟩ := mem_map.mp hf
  omega

theorem returns_mapNext (hmap : ∀ page ≤ nPage, aPagemap page = (frame page).getD 0)
    (hpos : ∀ page f, frame page = some f → 0 < f)
    (hlarge : ∀ page, nPage < page → frame page = none) (hmax : nPage < 2 ^ 32) (n iPrior : Nat)
    (hn : n + iPrior = nPage) : Returns frame iPrior (mapNext aPagemap n iPrior) := by
  induction n generalizing iPrior with
  | zero => exact ⟨le_rfl, fun page hlt _ => hlarge page (by omega),
      fun h => absurd h (lt_irrefl _)⟩
  | succ n ih =>
    rw [mapNext]
    have hvalue := hmap (iPrior + 1) (by omega)
    cases hframe : frame (iPrior + 1) with
    | none =>
      rw [if_neg (by simp [hvalue, hframe])]
      have hrest := ih (iPrior + 1) (by omega)
      refine ⟨hrest.le, fun page hlt hpage => ?_, fun h => ?_⟩
      · rcases Nat.lt_or_ge (iPrior + 1) page with h | h
        · exact hrest.none page h hpage
        · rwa [show page = iPrior + 1 by omega]
      · exact ⟨by have := (hrest.some h).1; omega, (hrest.some h).2⟩
    | some f =>
      rw [hframe, getD_some] at hvalue
      rw [hvalue, if_pos (hpos _ f hframe).ne']
      exact ⟨by omega, fun page h h' => by omega, fun _ => ⟨Nat.lt_succ_self _, hframe⟩⟩

variable (behind : Nat → Nat)

/-- What the page map has for a page of the database. -/
def mapFrame (page : Nat) : Option Nat :=
  if page ≤ x.nPage ∧ (mapIterator x behind).aPagemap page ≠ 0 then
    some ((mapIterator x behind).aPagemap page)
  else none

/-- The state of the iterator of algorithm WALITER-2. -/
structure Maps (x : WalIndex) (behind : Nat → Nat) (p : WalIterator) : Prop where
  nPagemap : p.nPagemap = x.nPage
  aPagemap : p.aPagemap = (mapIterator x behind).aPagemap
  aSegment : p.aSegment = (mapIterator x behind).aSegment
  iPrior_le : p.iPrior ≤ x.nPage

theorem Maps.returns {x : WalIndex} (h : Maps x behind p) :
    Returns (mapFrame x behind) p.iPrior p.scan := by
  rw [WalIterator.scan, h.nPagemap]
  split_ifs with hzero
  · refine returns_mapNext (fun page hpage => ?_) (fun page f hf => ?_) (fun page hpage => ?_)
      x.nPage_lt _ _ (Nat.sub_add_cancel h.iPrior_le)
    · rw [h.aPagemap, mapFrame]
      split_ifs with hentry
      · rfl
      · exact not_not.mp fun hne => hentry ⟨hpage, hne⟩
    · rw [mapFrame] at hf
      split_ifs at hf with hentry
      exact some.inj hf ▸ Nat.pos_of_ne_zero hentry.2
    · exact if_neg (by omega)
  · rw [h.aSegment]
    refine ⟨le_rfl, fun page hlt _ => ?_, fun h => absurd h (lt_irrefl _)⟩
    exact if_neg (by omega)

theorem yields_mapIterator : Yields (mapIterator x behind) (pagesAfter (mapFrame x behind) 0) := by
  refine yields_of_returns (fun p => Maps.returns behind) (fun p h hend => ?_)
    (⟨rfl, rfl, rfl, Nat.zero_le _⟩ : Maps x behind (mapIterator x behind))
  refine ⟨h.nPagemap, h.aPagemap, ?_, ?_⟩
  · rw [WalIterator.advance, h.aSegment]
    rfl
  · by_contra hlarge
    have hframe := (h.returns.some (lt_of_le_of_ne h.returns.le hend)).2
    cases hframe.symm.trans (if_neg fun h => hlarge h.1)

/-- The size of the block of the page map does not wrap around. -/
def SizeFits : Prop := x.size.szWalIterator 1 + x.nPage * 4 < 2 ^ x.size.width

theorem SizeFits.mapBytes_eq {x : WalIndex} (h : SizeFits x) :
    mapBytes x = x.size.szWalIterator 1 + x.nPage * 4 := Nat.mod_eq_of_lt h

/-- In a block of the right size the page map has the last frames. -/
theorem SizeFits.mapFrame_eq {x : WalIndex} (h : SizeFits x) : mapFrame x behind = x.pageFrame := by
  funext page
  unfold mapFrame WalIndex.pageFrame
  by_cases hpage : page ≤ x.nPage
  · rw [mapIterator_aPagemap x hpage (by rw [h.mapBytes_eq]; omega)]
    cases hf : lastFrame x.pgno x.frames page with
    | none => simp
    | some f => simp [hpage, (frame_pos x hf).ne']
  · simp [hpage]

theorem SizeFits.mapWrites_le {x : WalIndex} (h : SizeFits x) (hoffset : offset ∈ mapWrites x) :
    offset + 4 ≤ mapBytes x := by
  obtain ⟨f, hf, rfl⟩ := mem_map.mp hoffset
  have hpage : x.pgno f ≤ x.nPage := of_decide_eq_true (mem_filter.mp hf).2
  have hsegment : 4 ≤ x.size.szWalIterator 1 := by cases x.size <;> decide
  rw [h.mapBytes_eq]
  omega

/-- In a block whose size wrapped around, the last pages have no entry, so that the iterator returns
what it finds behind the block. -/
theorem sizeFits_of_yields {x : WalIndex} (h : ∀ behind, Yields (mapIterator x behind) l) :
    SizeFits x := by
  by_contra hwrap
  have hmax := x.nPage_lt
  obtain ⟨page, hpos, hle, hlt, hentry⟩ : ∃ page, 0 < page ∧ page ≤ x.nPage ∧ page < 0xFFFFFFFF ∧
      ¬ x.size.szWalIterator 1 + page * 4 ≤ mapBytes x := by
    refine ⟨min x.nPage 0xFFFFFFFE, ?_⟩
    unfold SizeFits mapBytes at *
    generalize x.size = size at *
    cases size <;> simp only [SizeT.width, SizeT.szWalIterator] at * <;> omega
  have hbehind (v : Nat) : (mapIterator x fun _ => v).aPagemap page = v := if_neg hentry
  -- with a 1 behind the block the page is returned, with a 0 it is not
  have hone : (page, 1) ∈ l := by
    rw [(h fun _ => 1).unique (yields_mapIterator x fun _ => 1), mem_pagesAfter]
    exact ⟨hpos, hlt, by rw [mapFrame, hbehind]; exact if_pos ⟨hle, one_ne_zero⟩⟩
  rw [(h fun _ => 0).unique (yields_mapIterator x fun _ => 0), mem_pagesAfter, mapFrame, hbehind]
    at hone
  cases hone.2.2.symm.trans (if_neg fun hne => hne.2 rfl)

theorem mem_dropWhile (hl : Ascending aPgno l) (iMin j : Nat) :
    j ∈ l.dropWhile (aPgno · ≤ iMin) ↔ j ∈ l ∧ iMin < aPgno j := by
  induction l with
  | nil => simp
  | cons a l ih =>
    obtain ⟨hlt, hl⟩ := pairwise_cons.mp hl
    rw [dropWhile_cons]
    split_ifs with h
    · rw [ih hl, mem_cons]
      grind
    · grind

theorem lastFrame_range (b n page f : Nat) :
    lastFrame pgno ((range n).map (b + ·)) page = some f ↔ ∃ j < n, f = b + j ∧
      pgno (b + j) = page ∧ ∀ k, j < k → k < n → pgno (b + k) ≠ page := by
  induction n with
  | zero => simp [lastFrame]
  | succ n ih =>
    rw [range_succ, map_append, lastFrame_append]
    by_cases h : pgno (b + n) = page
    · have hlast : lastFrame pgno [b + n] page = some (b + n) := by simp [lastFrame, h]
      rw [map_singleton, hlast, some_or, some.injEq]
      constructor
      · rintro rfl
        exact ⟨n, Nat.lt_succ_self n, rfl, h, fun k hk hk' => by omega⟩
      · rintro ⟨j, hj, rfl, -, hother⟩
        by_contra hne
        exact hother n (by omega) (Nat.lt_succ_self n) h
    · have hlast : lastFrame pgno [b + n] page = none := by simp [lastFrame, h]
      rw [map_singleton, hlast, none_or, ih]
      constructor
      · rintro ⟨j, hj, rfl, hpage, hother⟩
        refine ⟨j, by omega, rfl, hpage, fun k hk hk' => ?_⟩
        rcases Nat.lt_succ_iff_lt_or_eq.mp hk' with hk' | rfl
        · exact hother k hk hk'
        · exact h
      · rintro ⟨j, hj, rfl, hpage, hother⟩
        have hne : j ≠ n := by
          rintro rfl
          exact h hpage
        exact ⟨j, by omega, rfl, hpage, fun k hk hk' => hother k hk (by omega)⟩

/-- The segment stands for a block, as far as pages after `iPrior` go. -/
structure Segment (x : WalIndex) (iPrior i : Nat) (s : WalSegment) : Prop where
  iZero : s.iZero = hashZero i + 1
  aPgno : ∀ j, s.aPgno j = x.pgno (hashZero i + 1 + j)
  ascending : Ascending s.aPgno s.aIndex
  mem_iff : ∀ j, iPrior < s.aPgno j → (j ∈ s.aIndex ↔
    j < x.nEntry i ∧ ∀ k, j < k → k < x.nEntry i → s.aPgno k ≠ s.aPgno j)

theorem Segment.advance {x : WalIndex} (h : Segment x iPrior i s) (hle : iPrior ≤ page) :
    Segment x page i (s.advance iPrior) where
  iZero := h.iZero
  aPgno := h.aPgno
  ascending := h.ascending.sublist (dropWhile_sublist _)
  mem_iff j hj := by
    have hlt : iPrior < s.aPgno j := hle.trans_lt hj
    exact (mem_dropWhile h.ascending iPrior j).trans ((and_iff_left hlt).trans (h.mem_iff j hlt))

theorem Segment.lastFrame {x : WalIndex} (h : Segment x iPrior i s)
    (hj : j ∈ (s.advance iPrior).aIndex) :
    Wal.lastFrame x.pgno (x.blockFrames i) (s.aPgno j) = some (s.iZero + j) := by
  obtain ⟨hmem, hlt⟩ := (mem_dropWhile h.ascending iPrior j).mp hj
  obtain ⟨hj, hlast⟩ := (h.mem_iff j hlt).mp hmem
  refine (lastFrame_range _ _ _ _ _).mpr ⟨j, hj, by rw [h.iZero], (h.aPgno j).symm,
    fun k hk hk' => ?_⟩
  rw [← h.aPgno]
  exact hlast k hk hk'

theorem Segment.exists_mem {x : WalIndex} (h : Segment x iPrior i s) (hpage : iPrior < page)
    (hf : Wal.lastFrame x.pgno (x.blockFrames i) page = some f) :
    ∃ j ∈ (s.advance iPrior).aIndex, s.aPgno j = page := by
  obtain ⟨j, hj, -, rfl, hlast⟩ := (lastFrame_range _ _ _ _ _).mp hf
  simp only [← h.aPgno] at hpage hlast ⊢
  exact ⟨j, (mem_dropWhile h.ascending iPrior j).mpr ⟨(h.mem_iff j hpage).mpr ⟨hj, hlast⟩, hpage⟩,
    rfl⟩

theorem Returns.or {frame block : Nat → Option Nat} (h : Returns frame iPrior best)
    (hblock : ∀ page, iPrior < page → page < best.1 → block page = .none) :
    Returns (fun page => (frame page).or (block page)) iPrior best where
  le := h.le
  none page hlt hpage := by rw [h.none page hlt hpage, hblock page hlt hpage, none_or]
  some hlt := ⟨(h.some hlt).1, by rw [(h.some hlt).2, some_or]⟩

theorem Returns.or_lt {frame block : Nat → Option Nat} (h : Returns frame iPrior best)
    (hpage : iPrior < page) (hlt : page < best.1) (hsome : block page = .some f)
    (hblock : ∀ other, iPrior < other → other < page → block other = .none) :
    Returns (fun page => (frame page).or (block page)) iPrior (page, f) where
  le := hlt.le.trans h.le
  none other ho ho' := by
    rw [h.none other ho (ho'.trans hlt), hblock other ho ho', none_or]
  some _ := ⟨hpage, by rw [h.none page hpage hlt, hsome, none_or]⟩

theorem returns_sortNext {x : WalIndex} {iPrior : Nat}
    (h : List.Forall₂ (Segment x iPrior) blocks segments) :
    Returns (lastFrame x.pgno (blocks.flatMap x.blockFrames)) iPrior
      (sortNext iPrior segments) := by
  induction h with
  | nil => exact ⟨le_rfl, fun _ _ _ => rfl, fun h => absurd h (lt_irrefl _)⟩
  | @cons i s blocks segments hs _ ih =>
    have hblock : ∀ page, iPrior < page → (∀ j ∈ (s.advance iPrior).aIndex, s.aPgno j ≠ page) →
        lastFrame x.pgno (x.blockFrames i) page = none := by
      intro page hpage hne
      by_contra hsome
      obtain ⟨f, hf⟩ := ne_none_iff_exists'.mp hsome
      obtain ⟨j, hj, heq⟩ := hs.exists_mem hpage hf
      exact hne j hj heq
    have hframes := funext fun page =>
      lastFrame_append x.pgno (x.blockFrames i) (blocks.flatMap x.blockFrames) page
    rw [flatMap_cons, hframes, sortNext]
    have hasc := (hs.advance le_rfl).ascending
    cases hindex : (s.advance iPrior).aIndex with
    | nil => exact ih.or fun page hlt _ => hblock page hlt (by simp [hindex])
    | cons j rest =>
      have hj : j ∈ (s.advance iPrior).aIndex := hindex ▸ mem_cons_self
      -- The first index of a segment has its smallest page.
      have hfirst : ∀ k ∈ (s.advance iPrior).aIndex, s.aPgno j ≤ s.aPgno k := by
        rw [hindex] at hasc ⊢
        exact forall_mem_cons.mpr ⟨le_rfl, fun k hk => ((pairwise_cons.mp hasc).1 k hk).le⟩
      have hsmaller : ∀ page, iPrior < page → page < s.aPgno j →
          lastFrame x.pgno (x.blockFrames i) page = none :=
        fun page hlt hpage => hblock page hlt fun k hk => (hpage.trans_le (hfirst k hk)).ne'
      dsimp only
      split_ifs with hlt
      · exact ih.or_lt ((mem_dropWhile hs.ascending iPrior j).mp hj).2 hlt
          (hs.lastFrame hj) hsmaller
      · exact ih.or fun page hlt' hpage => hsmaller page hlt' (hpage.trans_le (not_lt.mp hlt))

theorem nEntry_le {x : WalIndex} (hframe : InTable x.size x.mxFrame) (i : Nat) :
    0 < x.nEntry i ∧ x.nEntry i ≤ 4096 := by
  have := x.backfill_lt
  have hpage : x.lastPage = (x.mxFrame + 33) / 4096 := walFramePage_eq x.mxFrame_lt hframe
  unfold WalIndex.nEntry hashZero hashSize
  split_ifs <;> omega

/-- The state of the iterator of algorithm WALITER-1. -/
structure Sorts (x : WalIndex) (p : WalIterator) : Prop where
  nPagemap : p.nPagemap = 0
  segments : List.Forall₂ (Segment x p.iPrior) x.blocks p.aSegment

theorem Sorts.returns {x : WalIndex} (h : Sorts x p) :
    Returns (lastFrame x.pgno x.frames) p.iPrior p.scan := by
  rw [WalIterator.scan, if_neg (not_not.mpr h.nPagemap)]
  exact returns_sortNext h.segments

theorem yields_sortIterator {x : WalIndex} (hframe : InTable x.size x.mxFrame) :
    Yields (sortIterator x) (pagesAfter (lastFrame x.pgno x.frames) 0) := by
  have hstart : Sorts x (sortIterator x) := by
    refine ⟨rfl, forall₂_map_right_iff.mpr (forall₂_same.mpr fun i _ => ?_)⟩
    have hlatest := @latest_walMergesort (fun j => x.pgno (hashZero i + 1 + j)) _
      (nEntry_le hframe i).1 (nEntry_le hframe i).2
    exact ⟨rfl, fun _ => rfl, hlatest.ascending, fun j _ => by simp [hlatest.mem_iff]⟩
  refine yields_of_returns (fun p => Sorts.returns) (fun p h hend => ⟨h.nPagemap, ?_⟩) hstart
  have hle := (h.returns.some (lt_of_le_of_ne h.returns.le hend)).1.le
  exact forall₂_map_right_iff.mpr (h.segments.imp fun _ _ hs => hs.advance hle)

theorem filter_pagesAfter :
    (pagesAfter (lastFrame x.pgno x.frames) 0).filter (·.1 ≤ x.nPage) = x.lastFrames := by
  rw [WalIndex.lastFrames, pagesAfter, pagesAfter, filter_filterMap]
  congr 1
  funext page
  unfold WalIndex.pageFrame
  by_cases h : page ≤ x.nPage <;> cases lastFrame x.pgno x.frames page <;>
    simp [h, Nat.lt_of_not_le]

/-- The merge returns the pages of the database with their last frames. A page map that is built
returns the same, whatever is behind its block, and lies in its block, if and only if the size of
the block does not wrap around. -/
theorem walIterators_agree (x : WalIndex) (hframe : InTable x.size x.mxFrame) :
    (∃ l, Yields (sortIterator x) l ∧ l.filter (·.1 ≤ x.nPage) = x.lastFrames) ∧
      ((buildsMap x = true → (∀ behind, Yields (mapIterator x behind) x.lastFrames) ∧
          ∀ offset ∈ mapWrites x, offset + 4 ≤ mapBytes x) ↔
        (buildsMap x = true → SizeFits x)) := by
  refine ⟨⟨_, yields_sortIterator hframe, filter_pagesAfter x⟩, fun h hbuilt => ?_,
    fun h hbuilt => ?_⟩
  · exact sizeFits_of_yields (h hbuilt).1
  · refine ⟨fun behind => ?_, fun offset => (h hbuilt).mapWrites_le⟩
    rw [WalIndex.lastFrames, ← (h hbuilt).mapFrame_eq behind]
    exact yields_mapIterator x behind

def onePage (mxFrame nPage : Nat) (hpos : 0 < mxFrame) (hmax : mxFrame < 2 ^ 32)
    (hpage : nPage < 2 ^ 32) : WalIndex :=
  ⟨.bits32, mxFrame, nPage, 0, fun _ => 3, hpos, hmax, hpage⟩

theorem walIterators_agree_onePage :
    buildsMap (onePage 9 4 (by decide) (by decide) (by decide)) = true ∧
      ∀ behind, Yields (mapIterator (onePage 9 4 (by decide) (by decide) (by decide)) behind)
        (onePage 9 4 (by decide) (by decide) (by decide)).lastFrames := by
  have hagree := walIterators_agree (onePage 9 4 (by decide) (by decide) (by decide)) (by decide)
  exact ⟨by decide, (hagree.2.mpr (fun _ => by unfold SizeFits; decide) (by decide)).1⟩

/-- With 2^30 pages and a `size_t` of 32 bits the page map has no room at all. -/
theorem mapWrites_outside :
    buildsMap (onePage 1 (2 ^ 30) (by decide) (by decide) (by decide)) ∧
      ∃ offset ∈ mapWrites (onePage 1 (2 ^ 30) (by decide) (by decide) (by decide)),
        mapBytes (onePage 1 (2 ^ 30) (by decide) (by decide) (by decide)) ≤ offset := by
  decide

end SqlCipher.Wal
