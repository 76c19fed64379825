import SqlCipher.Changeset.Apply

/-!
# Stored changes

A changeset is stored as table headers, each followed by entries: an operation and its records. An
UPDATE of a changeset has an old and a new record. A patchset leaves out what is not needed: its
UPDATE has the new record only, with the key in it, and its DELETE the key only. Here is how entries
are decoded and merged, and how records shorter than the table are extended.
-/

namespace SqlCipher.Changeset

variable {N V : Type}

structure Entry (V : Type) where
  op : Op
  indirect : Bool
  record : List (Option V)
  deriving DecidableEq, Repr

structure Block (N V : Type) extends Header N where
  entries : List (Entry V)
  deriving DecidableEq, Repr

structure Blob (N V : Type) where
  patchset : Bool
  blocks : List (Block N V)
  deriving DecidableEq, Repr

def Blob.changes (b : Blob N V) : List (Header N × Entry V) :=
  b.blocks.flatMap fun k => k.entries.map (k.toHeader, ·)

def spread : List Bool → List (Option V) → List (Option V)
  | [], _ => []
  | true :: pk, f :: fields => f :: spread pk fields
  | true :: pk, [] => none :: spread pk []
  | false :: pk, fields => none :: spread pk fields

def keyOnly (pk : List Bool) (fields : List (Option V)) : List (Option V) :=
  List.zipWith (fun b f => if b then f else none) pk fields

namespace Entry

variable (patchset : Bool) (pk : List Bool) (e : Entry V)

def newRecord : List (Option V) :=
  if e.op = .update ∧ patchset = false then e.record.drop pk.length else e.record

/-- The old record of an UPDATE. What is not in the key or in the new record is dropped. -/
def oldRecord : List (Option V) :=
  List.zipWith (fun (b : Bool) (f : Option V × Option V) => if b || f.2.isSome then f.1 else none)
    pk ((e.record.take pk.length).zip (e.record.drop pk.length))

def change : Change V :=
  match e.op with
  | .insert => ⟨.insert, pk.map fun _ => none, e.record⟩
  | .delete => ⟨.delete, if patchset then spread pk e.record else e.record, pk.map fun _ => none⟩
  | .update =>
    if patchset then ⟨.update, keyOnly pk e.record, nonKey pk e.record⟩
    else ⟨.update, e.oldRecord pk, e.record.drop pk.length⟩

def isCorrupt : Bool :=
  patchset && e.op = .update && (keyFields pk e.record).any (·.isNone)

def decode : Except ErrorCode (Change V) :=
  if e.isCorrupt patchset pk then .error .corrupt else .ok (e.change patchset pk)

def isEmpty : Bool :=
  e.op ≠ .delete && (e.newRecord patchset pk).all (·.isNone)

end Entry

def decodeEntries (patchset : Bool) (pk : List Bool) :
    List (Entry V) → List (Change V) × Option ErrorCode
  | [] => ([], none)
  | e :: es =>
    match e.decode patchset pk with
    | .error code => ([], some code)
    | .ok c =>
      let r := decodeEntries patchset pk es
      (if e.isEmpty patchset pk then r.1 else c :: r.1, r.2)

def decodeBlocks (patchset : Bool) : List (Block N V) → List (Group N V) × Option ErrorCode
  | [] => ([], none)
  | k :: ks =>
    match decodeEntries patchset k.pk k.entries with
    | (cs, some code) => ([{ k.toHeader with changes := cs }], some code)
    | (cs, none) =>
      let r := decodeBlocks patchset ks
      ({ k.toHeader with changes := cs } :: r.1, r.2)

def Blob.decode (b : Blob N V) : Stream N V × Option ErrorCode :=
  ({ patchset := b.patchset, groups := (decodeBlocks b.patchset b.blocks).1 },
    (decodeBlocks b.patchset b.blocks).2)

variable (patchset : Bool)

/-- The fields that `sessionChangeHash` and `sessionChangeEqual` look at. -/
def entryKey (pk : List Bool) (e : Entry V) : List (Option V) :=
  if patchset = true ∧ e.op = .delete then e.record else keyFields pk e.record

def Entry.Readable (pk : List Bool) (e : Entry V) : Prop :=
  e.isCorrupt patchset pk = false ∧ e.isEmpty patchset pk = false

def Block.group (k : Block N V) : Group N V :=
  { k.toHeader with changes := k.entries.map (·.change patchset k.pk) }

theorem decodeEntries_of_readable {patchset : Bool} {pk : List Bool} {es : List (Entry V)}
    (h : ∀ e ∈ es, e.Readable patchset pk) :
    decodeEntries patchset pk es = (es.map (·.change patchset pk), none) := by
  induction es with
  | nil => rfl
  | cons e es ih =>
    obtain ⟨hcorrupt, hempty⟩ := h e List.mem_cons_self
    rw [decodeEntries, Entry.decode, hcorrupt, ih fun e' he' => h e' (List.mem_cons_of_mem e he')]
    simp [hempty]

/-- A changeset all of whose entries are handed out. -/
theorem Blob.decode_of_readable {b : Blob N V}
    (h : ∀ c ∈ b.changes, c.2.Readable b.patchset c.1.pk) :
    b.decode = (⟨b.patchset, b.blocks.map (·.group b.patchset)⟩, none) := by
  have hblocks : ∀ ks : List (Block N V), (∀ k ∈ ks, ∀ e ∈ k.entries, e.Readable b.patchset k.pk) →
      decodeBlocks b.patchset ks = (ks.map (·.group b.patchset), none) := by
    intro ks hks
    induction ks with
    | nil => rfl
    | cons k ks ih =>
      rw [decodeBlocks, decodeEntries_of_readable (hks k List.mem_cons_self),
        ih fun k' hk' => hks k' (List.mem_cons_of_mem k hk')]
      rfl
  rw [Blob.decode, hblocks b.blocks]
  intro k hk e he
  exact h (k.toHeader, e) (List.mem_flatMap.mpr ⟨k, hk, List.mem_map_of_mem he⟩)

def mergeRecord (left right : List (Option V)) : List (Option V) :=
  List.zipWith (fun l r => r.or l) left right

/-- The values of a run of `sessionMergeValue`: the second record, if any, over the first. -/
def mergeValues (one : List (Option V)) : Option (List (Option V)) → List (Option V)
  | none => one
  | some two => List.zipWith (fun a b => b.or a) one two

section Merge

variable [DecidableEq V]

/-- `sessionMergeUpdate`. The old and the new record, or nothing if no column changes. -/
def mergeUpdate (pk : List Bool) (patchset : Bool) (old₁ : List (Option V))
    (old₂ : Option (List (Option V))) (new₁ : List (Option V)) (new₂ : Option (List (Option V))) :
    Option (List (Option V)) :=
  let columns := pk.zip ((mergeValues old₁ old₂).zip (mergeValues new₁ new₂))
  if patchset then some (columns.map fun c => c.2.2)
  else if columns.any fun c => !c.1 && c.2.1 != c.2.2 then
    some (columns.map (fun c => if c.1 || c.2.1 != c.2.2 then c.2.1 else none) ++
      columns.map (fun c => if c.1 || c.2.1 == c.2.2 then none else c.2.2))
  else none

/-- `sessionChangeMerge` for changesets: what becomes of a change when another to its row is added.
-/
def changeMerge (pk : List Bool) (patchset : Bool) (exist : Option (Entry V)) (e₂ : Entry V) :
    Option (Entry V) :=
  match exist with
  | none => some e₂
  | some e₁ =>
    let indirect := e₂.indirect && e₁.indirect
    let new := fun e : Entry V => if patchset then e.record else e.record.drop pk.length
    match e₁.op, e₂.op with
    | .insert, .insert | .update, .insert | .delete, .update | .delete, .delete => some e₁
    | .insert, .delete => none
    | .insert, .update => some ⟨.insert, indirect, mergeRecord e₁.record (new e₂)⟩
    | .delete, .insert =>
      if patchset then some ⟨.update, indirect, e₂.record⟩
      else (mergeUpdate pk patchset e₁.record none e₂.record none).map (⟨.update, indirect, ·⟩)
    | .update, .update =>
      (mergeUpdate pk patchset e₂.record (some e₁.record) (new e₁) (some (new e₂))).map
        (⟨.update, indirect, ·⟩)
    | .update, .delete =>
      some ⟨.delete, indirect, if patchset then e₂.record else mergeRecord e₂.record e₁.record⟩

end Merge

/-- `sessionChangesetExtendRecord`: a record of `nCol` columns for a table with the defaults
`dflt`. -/
def extendRecord (dflt : List V) (nCol : Nat) (e : Entry V) : Entry V :=
  let undefs := List.replicate (dflt.length - nCol) none
  { e with record := match e.op with
    | .insert => e.record ++ (dflt.drop nCol).map some
    | .delete => if patchset then e.record else e.record ++ (dflt.drop nCol).map some
    | .update =>
      if patchset then e.record ++ undefs
      else e.record.take nCol ++ undefs ++ (e.record.drop nCol ++ undefs) }

end SqlCipher.Changeset
