import Mathlib.Data.List.Induction
import Mathlib.Tactic.Common

/-!
# Row sets

`rowset.c`: rowids are inserted in any order. Either they are read back in increasing order, each
once, or it is tested whether a rowid was inserted before the batch that is being inserted. An entry
goes to a list, which is sorted when it is needed, and from there to a forest of search trees.
-/

namespace SqlCipher.Vdbe

open List

/-- Merge two sorted lists. Remove duplicates. -/
def rowSetEntryMerge : List Int → List Int → List Int
  | [], pB => pB
  | pA, [] => pA
  | a :: pA, b :: pB =>
    if a ≤ b then
      if a < b then a :: rowSetEntryMerge pA (b :: pB) else rowSetEntryMerge pA (b :: pB)
    else b :: rowSetEntryMerge (a :: pA) pB
termination_by pA pB => pA.length + pB.length

/-- Put a sorted list into the first empty bucket, merged with the buckets before it. -/
def intoBuckets (pIn : List Int) : List (List Int) → List (List Int)
  | [] => [pIn]
  | b :: aBucket =>
    if b = [] then pIn :: aBucket else [] :: intoBuckets (rowSetEntryMerge b pIn) aBucket

/-- The source has forty buckets, and fewer than `2 ^ 40` entries are assumed. -/
def rowSetEntrySort (pIn : List Int) : List Int :=
  (pIn.foldl (fun aBucket v => intoBuckets [v] aBucket) []).foldl rowSetEntryMerge []

inductive RowSetTree
  | null
  | node (pLeft : RowSetTree) (v : Int) (pRight : RowSetTree)

def rowSetTreeToList : RowSetTree → List Int
  | .null => []
  | .node pLeft v pRight => rowSetTreeToList pLeft ++ v :: rowSetTreeToList pRight

/-- A tree of at most this depth, and the unused elements of the list. -/
def rowSetNDeepTree : Nat → List Int → RowSetTree × List Int
  | _, [] => (.null, [])
  | 0, v :: pList | 1, v :: pList => (.node .null v .null, pList)
  | iDepth + 2, pList =>
    let left := rowSetNDeepTree (iDepth + 1) pList
    match left.2 with
    | [] => left
    | v :: rest =>
      let right := rowSetNDeepTree (iDepth + 1) rest
      (.node left.1 v right.1, right.2)

theorem rowSetNDeepTree_append (iDepth : Nat) (l : List Int) :
    rowSetTreeToList (rowSetNDeepTree iDepth l).1 ++ (rowSetNDeepTree iDepth l).2 = l := by
  fun_induction rowSetNDeepTree iDepth l with
  | case1 | case2 | case3 => simp [rowSetTreeToList]
  | case4 iDepth l hl left hrest ih => exact ih
  | case5 iDepth l hl left v rest hrest right ih ih' =>
    rw [rowSetTreeToList, append_assoc, cons_append, ih', ← hrest, ih]

/-- The tree so far becomes the left subtree of the next element, until the list is used up. -/
def deepenTree (iDepth : Nat) (p : RowSetTree) : List Int → RowSetTree
  | [] => p
  | v :: pList =>
    deepenTree (iDepth + 1) (.node p v (rowSetNDeepTree iDepth pList).1)
      (rowSetNDeepTree iDepth pList).2
termination_by pList => pList.length
decreasing_by
  have := congrArg length (rowSetNDeepTree_append iDepth pList)
  simp only [length_append] at this
  simp only [length_cons]
  omega

def rowSetListToTree : List Int → RowSetTree
  | [] => .null
  | v :: pList => deepenTree 1 (.node .null v .null) pList

def RowSetTree.contains (iRowid : Int) : RowSetTree → Bool
  | .null => false
  | .node pLeft v pRight =>
    if v < iRowid then pRight.contains iRowid
    else if iRowid < v then pLeft.contains iRowid
    else true

structure RowSet where
  entry : List Int
  forest : List RowSetTree
  sorted : Bool
  next : Bool
  iBatch : Int

def rowSetInit : RowSet := ⟨[], [], true, false, 0⟩

def rowSetClear (p : RowSet) : RowSet :=
  { p with entry := [], forest := [], sorted := true, next := false }

def rowSetInsert (p : RowSet) (rowid : Int) : RowSet :=
  { p with
    entry := p.entry ++ [rowid]
    sorted := p.sorted && !p.entry.getLast?.any (rowid ≤ ·) }

def RowSet.sortedEntry (p : RowSet) : List Int :=
  if p.sorted then p.entry else rowSetEntrySort p.entry

/-- The loop over the forest: the list becomes the first tree that is missing. -/
def intoForest (p : List Int) : List RowSetTree → List RowSetTree
  | [] => [rowSetListToTree p]
  | .null :: forest => rowSetListToTree p :: forest
  | tree :: forest => .null :: intoForest (rowSetEntryMerge (rowSetTreeToList tree) p) forest

def startBatch (p : RowSet) (iBatch : Int) : RowSet :=
  if iBatch = p.iBatch then p
  else if p.entry = [] then { p with iBatch := iBatch }
  else { p with
    entry := []
    forest := intoForest p.sortedEntry p.forest
    sorted := true
    iBatch := iBatch }

def rowSetTest (p : RowSet) (iBatch iRowid : Int) : Bool :=
  (startBatch p iBatch).forest.any (·.contains iRowid)

def rowSetNext (p : RowSet) : Option Int × RowSet :=
  let p := if p.next then p else { p with entry := p.sortedEntry, sorted := true, next := true }
  match p.entry with
  | [] => (none, p)
  | [v] => (some v, rowSetClear p)
  | v :: entry => (some v, { p with entry })

inductive RowSetOp
  | insert (rowid : Int)
  | test (iBatch iRowid : Int)

def RowSetOp.run (p : RowSet) : RowSetOp → RowSet
  | .insert rowid => rowSetInsert p rowid
  | .test iBatch _ => startBatch p iBatch

def nextResults : Nat → RowSet → List (Option Int)
  | 0, _ => []
  | n + 1, p => (rowSetNext p).1 :: nextResults n (rowSetNext p).2

abbrev Increasing (l : List Int) : Prop := l.Pairwise (· < ·)

theorem rowSetEntryMerge_spec (ha : Increasing a) (hb : Increasing b) :
    Increasing (rowSetEntryMerge a b) ∧ ∀ v, v ∈ rowSetEntryMerge a b ↔ v ∈ a ∨ v ∈ b := by
  fun_induction rowSetEntryMerge a b with
  | case1 | case2 => simp_all
  | case3 | case4 | case5 => grind [pairwise_cons]

/-- Buckets with increasing lists, which together have the elements in `S`. -/
structure Hold (S : Int → Prop) (aBucket : List (List Int)) : Prop where
  increasing : ∀ b ∈ aBucket, Increasing b
  mem_iff : ∀ v, (∃ b ∈ aBucket, v ∈ b) ↔ S v

theorem Hold.intoBuckets (h : Hold S bs) (hl : Increasing l) :
    Hold (fun v => v ∈ l ∨ S v) (intoBuckets l bs) := by
  obtain ⟨hinc, hmem⟩ := h
  induction bs generalizing S l with
  | nil => exact ⟨by simpa [Vdbe.intoBuckets] using hl, by simp [Vdbe.intoBuckets, ← hmem]⟩
  | cons b bs ih =>
    rw [forall_mem_cons] at hinc
    unfold Vdbe.intoBuckets
    split
    · exact ⟨forall_mem_cons.mpr ⟨hl, hinc.2⟩, by simp_all⟩
    · obtain ⟨hmerge, hiff⟩ := rowSetEntryMerge_spec hinc.1 hl
      obtain ⟨hinc', hmem'⟩ := ih hmerge hinc.2 fun v => Iff.rfl
      refine ⟨forall_mem_cons.mpr ⟨.nil, hinc'⟩, fun v => ?_⟩
      simp [hmem', hiff, ← hmem, or_assoc, or_left_comm]

theorem rowSetEntrySort_spec (l : List Int) :
    Increasing (rowSetEntrySort l) ∧ ∀ v, v ∈ rowSetEntrySort l ↔ v ∈ l := by
  have hfill : ∀ S bs, Hold S bs → Hold (fun v => v ∈ l ∨ S v)
      (l.foldl (fun aBucket v => intoBuckets [v] aBucket) bs) := by
    induction l with
    | nil => simp
    | cons v l ih =>
      intro S bs h
      simpa [or_assoc, or_left_comm] using ih _ _ (h.intoBuckets (pairwise_singleton _ v))
  have hmerge : ∀ (bs : List (List Int)) acc, (∀ b ∈ bs, Increasing b) → Increasing acc →
      Increasing (bs.foldl rowSetEntryMerge acc) ∧
        ∀ v, v ∈ bs.foldl rowSetEntryMerge acc ↔ v ∈ acc ∨ ∃ b ∈ bs, v ∈ b := by
    intro bs
    induction bs with
    | nil => simp
    | cons b bs ih =>
      intro acc hbs hacc
      rw [forall_mem_cons] at hbs
      obtain ⟨hinc, hiff⟩ := rowSetEntryMerge_spec hacc hbs.1
      simpa [hiff, or_assoc] using ih _ hbs.2 hinc
  obtain ⟨hinc, hmem⟩ := hfill (fun _ => False) [] ⟨nofun, by simp⟩
  simpa [hmem, rowSetEntrySort] using hmerge _ [] hinc .nil

theorem rowSetTreeToList_deepenTree (iDepth : Nat) (p : RowSetTree) (l : List Int) :
    rowSetTreeToList (deepenTree iDepth p l) = rowSetTreeToList p ++ l := by
  fun_induction deepenTree iDepth p l with
  | case1 => simp
  | case2 iDepth p v l ih =>
    rw [ih, rowSetTreeToList, append_assoc, cons_append, rowSetNDeepTree_append]

theorem rowSetTreeToList_rowSetListToTree (l : List Int) :
    rowSetTreeToList (rowSetListToTree l) = l := by
  cases l with
  | nil => rfl
  | cons v l => simp [rowSetListToTree, rowSetTreeToList_deepenTree, rowSetTreeToList]

theorem map_intoForest (l : List Int) (forest : List RowSetTree) :
    (intoForest l forest).map rowSetTreeToList = intoBuckets l (forest.map rowSetTreeToList) := by
  fun_induction intoForest l forest with
  | case1 | case2 => simp [intoBuckets, rowSetTreeToList_rowSetListToTree, rowSetTreeToList]
  | case3 l tree forest hne ih =>
    have : rowSetTreeToList tree ≠ [] := by
      cases tree with
      | null => exact absurd rfl hne
      | node => simp [rowSetTreeToList]
    simp [intoBuckets, this, ih, rowSetTreeToList]

theorem contains_iff (h : Increasing (rowSetTreeToList tree)) :
    tree.contains v ↔ v ∈ rowSetTreeToList tree := by
  induction tree with
  | null => simp [RowSetTree.contains, rowSetTreeToList]
  | node l w r ihl ihr =>
    simp only [rowSetTreeToList, pairwise_append, pairwise_cons, forall_mem_cons] at h
    obtain ⟨hl, ⟨hgt, hr⟩, hlt⟩ := h
    have hlt := fun a ha => (hlt a ha).1
    grind [RowSetTree.contains, rowSetTreeToList]

def RowSet.after (ops : List RowSetOp) : RowSet := ops.foldl RowSetOp.run rowSetInit

def lastBatch (ops : List RowSetOp) : Int :=
  ops.foldl (fun b op => match op with | .insert _ => b | .test iBatch _ => iBatch) 0

/-- The rowid was inserted before a change of the batch number. -/
def Settled (ops : List RowSetOp) (v : Int) : Prop :=
  ∃ before b r after, ops = before ++ .test b r :: after ∧ b ≠ lastBatch before ∧
    .insert v ∈ before

theorem settled_concat (ops : List RowSetOp) (op : RowSetOp) (v : Int) :
    Settled (ops ++ [op]) v ↔ Settled ops v ∨
      ∃ b r, op = .test b r ∧ b ≠ lastBatch ops ∧ .insert v ∈ ops := by
  constructor
  · rintro ⟨before, b, r, after, heq, hb, hv⟩
    rcases eq_nil_or_concat after with rfl | ⟨after, x, rfl⟩
    · obtain ⟨rfl, h⟩ := append_inj' heq rfl
      exact .inr ⟨b, r, by simpa using h, hb, hv⟩
    · rw [concat_eq_append, ← cons_append, ← append_assoc] at heq
      obtain ⟨rfl, -⟩ := append_inj' heq rfl
      exact .inl ⟨before, b, r, after, rfl, hb, hv⟩
  · rintro (⟨before, b, r, after, rfl, hb, hv⟩ | ⟨b, r, rfl, hb, hv⟩)
    · exact ⟨before, b, r, after ++ [op], by simp, hb, hv⟩
    · exact ⟨ops, b, r, [], rfl, hb, hv⟩

/-- Between the calls of a run. -/
structure RowSet.Inv (ops : List RowSetOp) (p : RowSet) : Prop where
  batch : p.iBatch = lastBatch ops
  sorted : p.sorted = true → Increasing p.entry
  next : p.next = false
  forest : Hold (Settled ops) (p.forest.map rowSetTreeToList)
  mem_iff : ∀ v, .insert v ∈ ops ↔ v ∈ p.entry ∨ Settled ops v

variable {p : RowSet} {ops : List RowSetOp}

theorem RowSet.Inv.sortedEntry (h : p.Inv ops) :
    Increasing p.sortedEntry ∧ ∀ v, v ∈ p.sortedEntry ↔ v ∈ p.entry := by
  unfold RowSet.sortedEntry
  split
  · exact ⟨h.sorted ‹_›, fun _ => Iff.rfl⟩
  · exact rowSetEntrySort_spec _

theorem RowSet.Inv.insert (h : p.Inv ops) (v : Int) :
    (rowSetInsert p v).Inv (ops ++ [.insert v]) := by
  have hset : Settled (ops ++ [.insert v]) = Settled ops := funext fun w => by
    simp [settled_concat]
  refine ⟨by simpa [lastBatch, rowSetInsert] using h.batch, fun hs => ?_, h.next, hset ▸ h.forest,
    fun w => ?_⟩
  · simp only [rowSetInsert, Bool.and_eq_true, Bool.not_eq_true'] at hs
    have hinc := h.sorted hs.1
    refine pairwise_append.mpr ⟨hinc, pairwise_singleton _ _, ?_⟩
    rcases eq_nil_or_concat p.entry with hnil | ⟨l, x, hl⟩
    · simp [hnil]
    · rw [hl, concat_eq_append] at hinc hs ⊢
      have hx : ∀ w ∈ l, w < x := by simpa using (pairwise_append.mp hinc).2.2
      grind
  · simp [hset, h.mem_iff, rowSetInsert, or_right_comm]

theorem RowSet.Inv.startBatch (h : p.Inv ops) (b r : Int) :
    (startBatch p b).Inv (ops ++ [.test b r]) := by
  have hset : ∀ v, Settled (ops ++ [.test b r]) v ↔ Settled ops v ∨
      b ≠ lastBatch ops ∧ .insert v ∈ ops := fun v => by simp [settled_concat]
  have hbatch : lastBatch (ops ++ [.test b r]) = b := by simp [lastBatch]
  unfold Vdbe.startBatch
  split_ifs with hb hnil
  · have hset : Settled (ops ++ [.test b r]) = Settled ops := funext fun v => by
      rw [hset, ← h.batch]
      simp [hb]
    exact ⟨hbatch.symm ▸ hb.symm, h.sorted, h.next, hset ▸ h.forest,
      by simpa [hset] using h.mem_iff⟩
  · have hset : Settled (ops ++ [.test b r]) = Settled ops := funext fun v => by
      simp [hset, h.mem_iff, hnil]
    exact ⟨hbatch.symm, h.sorted, h.next, hset ▸ h.forest, by simpa [hset] using h.mem_iff⟩
  · obtain ⟨hinc, hmem⟩ := h.sortedEntry
    have hset : Settled (ops ++ [.test b r]) = fun v => v ∈ p.sortedEntry ∨ Settled ops v :=
      funext fun v => by
        rw [h.batch] at hb
        simp [hset, hb, h.mem_iff, hmem, or_left_comm]
    refine ⟨hbatch.symm, fun _ => .nil, h.next, ?_, fun v => by simp [hset, h.mem_iff, hmem]⟩
    rw [hset, map_intoForest]
    exact h.forest.intoBuckets hinc

theorem RowSet.inv_after (ops : List RowSetOp) : (RowSet.after ops).Inv ops := by
  induction ops using reverseRecOn with
  | nil =>
    have hnone : ∀ v, ¬Settled [] v := by simp [Settled]
    exact ⟨rfl, fun _ => .nil, rfl, ⟨nofun, by simp [hnone, after, rowSetInit]⟩,
      by simp [hnone, after, rowSetInit]⟩
  | append_singleton ops op ih =>
    rw [after, foldl_append]
    cases op with
    | insert v => exact ih.insert v
    | test b r => exact ih.startBatch b r

/-- What the next calls of `sqlite3RowSetNext` have to return. -/
def RowSet.pending (p : RowSet) : List Int := if p.next then p.entry else p.sortedEntry

theorem pending_rowSetNext (p : RowSet) :
    (rowSetNext p).1 = p.pending.head? ∧ (rowSetNext p).2.pending = p.pending.tail := by
  cases hnext : p.next with
  | false =>
    simp only [rowSetNext, RowSet.pending, hnext]
    rcases p.sortedEntry with _ | ⟨v, _ | _⟩ <;> simp [rowSetClear, RowSet.sortedEntry]
  | true =>
    simp only [rowSetNext, RowSet.pending, hnext]
    rcases hp : p.entry with _ | ⟨v, _ | _⟩ <;> simp [rowSetClear, RowSet.sortedEntry, hnext, hp]

theorem nextResults_eq (h : p.pending = l) (n : Nat) :
    nextResults (l.length + n) p = l.map some ++ replicate n none := by
  induction l generalizing p with
  | nil =>
    induction n generalizing p with
    | zero => rfl
    | succ n ih =>
      obtain ⟨hhead, htail⟩ := h ▸ pending_rowSetNext p
      rw [Nat.add_succ, nextResults, hhead, ih htail]
      rfl
  | cons v l ih =>
    obtain ⟨hhead, htail⟩ := h ▸ pending_rowSetNext p
    rw [length_cons, Nat.succ_add, nextResults, hhead, ih htail]
    rfl

/-- A test finds exactly the rowids inserted before the last change of the batch number seen by a
test, itself included. After insertions only, the distinct rowids come back in increasing order, and
then the end. -/
theorem rowSet_answers :
    (∀ ops b r, rowSetTest (.after ops) b r = true ↔ Settled (ops ++ [.test b r]) r) ∧
    ∀ l : List Int, ∃ s : List Int, s.Pairwise (· < ·) ∧ (∀ v, v ∈ s ↔ v ∈ l) ∧
      ∀ n, nextResults (s.length + n) (.after (l.map .insert)) =
        s.map some ++ replicate n none := by
  refine ⟨fun ops b r => ?_, fun l => ?_⟩
  · have hforest := ((RowSet.inv_after ops).startBatch b r).forest
    rw [← hforest.mem_iff, rowSetTest, any_eq_true]
    simp only [mem_map, exists_exists_and_eq_and]
    exact exists_congr fun tree => and_congr_right fun htree =>
      contains_iff (hforest.increasing _ (mem_map_of_mem htree))
  · have h := RowSet.inv_after (l.map .insert)
    obtain ⟨hinc, hmem⟩ := h.sortedEntry
    refine ⟨_, hinc, fun v => ?_, fun n => nextResults_eq (by simp [RowSet.pending, h.next]) n⟩
    have hnone : ¬Settled (l.map .insert) v := by
      rintro ⟨before, b, r, after, heq, -, -⟩
      have hmem : RowSetOp.test b r ∈ l.map .insert := heq ▸ by simp
      simp at hmem
    simpa [hnone, hmem] using (h.mem_iff v).symm

end SqlCipher.Vdbe
