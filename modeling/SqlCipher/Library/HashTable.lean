import Mathlib.Data.List.Nodup
import Mathlib.Data.List.Flatten
import Mathlib.Tactic.Common

/-!
# Hash tables with chains

A table of buckets, each a list of entries with a key. The number of buckets doubles when the
table is half full, and an entry goes to the front of the bucket that the hash of its key gives.
Whatever the hash function, such a table is a finite map from keys to entries: `find_alter` says
what is found after an entry was changed, added or removed.
-/

structure HashTable (α : Type) where
  buckets : List (List α)
  nEntry : Nat
  deriving DecidableEq, Repr

namespace HashTable

open Option List

variable {α κ : Type}

def empty : HashTable α := ⟨[], 0⟩

def entries (t : HashTable α) : List α := t.buckets.flatten

def map (f : α → α) (t : HashTable α) : HashTable α where
  buckets := t.buckets.map (List.map f)
  nEntry := t.nEntry

section Operations

variable (key : α → κ) (hash : κ → Nat)

def rehash (n : Nat) (entries : List α) : List (List α) :=
  entries.foldl (fun b a => b.modify (hash (key a) % n) (a :: ·)) (replicate n [])

def grow (t : HashTable α) : HashTable α :=
  if t.buckets.length = 0 ∨ t.buckets.length / 2 ≤ t.nEntry then
    { t with
      buckets := rehash key hash (2 * if t.buckets.length = 0 then 128 else t.buckets.length)
        t.entries }
  else t

variable [DecidableEq κ]

def find (k : κ) (t : HashTable α) : Option α :=
  (t.buckets[hash k % t.buckets.length]?.getD []).find? fun a => key a = k

def erase (k : κ) (t : HashTable α) : HashTable α where
  buckets := t.buckets.modify (hash k % t.buckets.length) (eraseP fun a => key a = k)
  nEntry := t.nEntry - 1

omit [DecidableEq κ] in
def insert (k : κ) (a : α) (t : HashTable α) : HashTable α where
  buckets := t.buckets.modify (hash k % t.buckets.length) (a :: ·)
  nEntry := t.nEntry + 1

def adjust (k : κ) (f : α → α) (t : HashTable α) : HashTable α where
  buckets := t.buckets.modify (hash k % t.buckets.length)
    (List.map fun a => if key a = k then f a else a)
  nEntry := t.nEntry

def alter (k : κ) (f : Option α → Option α) (t : HashTable α) : HashTable α :=
  let t := t.grow key hash
  let found := t.find key hash k
  let t := if found.isSome then t.erase key hash k else t
  match f found with
  | none => t
  | some a => t.insert hash k a

end Operations

/-! ## Buckets -/

/-- One bucket is changed: what the flat list gains and loses. -/
theorem perm_flatten_modify (l l' : List α) {bs : List (List α)} (hi : bs[i]? = some b)
    (h : (l ++ f b).Perm (l' ++ b)) : (l ++ (bs.modify i f).flatten).Perm (l' ++ bs.flatten) := by
  induction bs generalizing i with
  | nil => cases hi
  | cons c bs ih =>
    cases i with
    | zero =>
      obtain rfl : c = b := by simpa using hi
      simpa [List.modify] using h.append_right bs.flatten
    | succ i =>
      have hrec := (ih (i := i) (by simpa using hi)).append_left c
      simp only [modify_succ_cons, flatten_cons]
      refine (perm_append_comm_assoc ..).trans (hrec.trans ?_)
      exact perm_append_comm_assoc ..

section Bucketed

variable (key : α → κ) (hash : κ → Nat)

def Bucketed (bs : List (List α)) : Prop :=
  ∀ i b, bs[i]? = some b → ∀ a ∈ b, hash (key a) % bs.length = i

variable {key hash} {bs : List (List α)}

theorem Bucketed.modify (h : Bucketed key hash bs)
    (hf : ∀ b, ∀ a ∈ f b, a ∈ b ∨ hash (key a) % bs.length = j) :
    Bucketed key hash (bs.modify j f) := by
  intro i b hb a ha
  rw [length_modify]
  rw [getElem?_modify] at hb
  obtain ⟨c, hc, rfl⟩ := map_eq_some_iff.mp hb
  by_cases hij : j = i
  · subst hij
    rw [if_pos rfl] at ha
    exact (hf c a ha).elim (h j c hc a) id
  · rw [if_neg hij] at ha
    exact h i c hc a ha

theorem bucketed_replicate (n : Nat) : Bucketed key hash (replicate n []) := by
  intro i b hb a ha
  rw [getElem?_replicate, ite_none_right_eq_some] at hb
  rw [← some.inj hb.2] at ha
  cases ha

theorem Bucketed.mem_bucket (h : Bucketed key hash bs) {a : α} (ha : a ∈ bs.flatten) :
    ∃ b, bs[hash (key a) % bs.length]? = some b ∧ a ∈ b := by
  obtain ⟨b, hb, hab⟩ := mem_flatten.mp ha
  obtain ⟨i, hi, rfl⟩ := getElem_of_mem hb
  have hget := getElem?_eq_getElem hi
  rw [h i _ hget a hab]
  exact ⟨_, hget, hab⟩

theorem rehash_spec (key : α → κ) (hash : κ → Nat) (hn : 0 < n) (l : List α) :
    (rehash key hash n l).length = n ∧ Bucketed key hash (rehash key hash n l) ∧
      (rehash key hash n l).flatten.Perm l := by
  suffices hfold : ∀ bs : List (List α), bs.length = n → Bucketed key hash bs →
      (l.foldl (fun b a => b.modify (hash (key a) % n) (a :: ·)) bs).length = n ∧
      Bucketed key hash (l.foldl (fun b a => b.modify (hash (key a) % n) (a :: ·)) bs) ∧
      (l.foldl (fun b a => b.modify (hash (key a) % n) (a :: ·)) bs).flatten.Perm
        (l ++ bs.flatten) by
    have hempty := hfold (replicate n []) (by simp) (bucketed_replicate n)
    simpa [rehash] using hempty
  induction l with
  | nil => exact fun bs hlen hbs => ⟨hlen, hbs, .refl _⟩
  | cons a l ih =>
    intro bs hlen hbs
    have hlt : hash (key a) % n < bs.length := by
      rw [hlen]
      exact Nat.mod_lt _ hn
    obtain ⟨h₁, h₂, h₃⟩ := ih (bs.modify (hash (key a) % n) (a :: ·)) (by simpa using hlen)
      (hbs.modify fun b c hc => by
        rw [hlen]
        exact (mem_cons.mp hc).elim (fun h => .inr (by rw [h])) .inl)
    refine ⟨h₁, h₂, h₃.trans ?_⟩
    have hone := perm_flatten_modify [] [a] (getElem?_eq_getElem hlt) (.refl _)
    exact (hone.append_left l).trans (by simp)

end Bucketed

/-! ## Tables as maps -/

section Maps

variable (key : α → κ) (hash : κ → Nat)

structure Wf (t : HashTable α) : Prop where
  bucketed : Bucketed key hash t.buckets
  nodup : (t.entries.map key).Nodup
  count : t.nEntry = t.entries.length

variable {key hash} {t t' : HashTable α} {k : κ} {a : α}

theorem wf_empty : Wf key hash (empty : HashTable α) :=
  ⟨nofun, by simp [entries, empty], rfl⟩

section

variable (h : Wf key hash t)
include h

theorem Wf.eq_of_key (ha : a ∈ t.entries) (hb : b ∈ t.entries) (hkey : key a = key b) : a = b :=
  inj_on_of_nodup_map h.nodup ha hb hkey

theorem Wf.grow : Wf key hash (t.grow key hash) ∧
    (t.grow key hash).entries.Perm t.entries ∧ 0 < (t.grow key hash).buckets.length := by
  unfold HashTable.grow
  split
  · have hn : 0 < 2 * if t.buckets.length = 0 then 128 else t.buckets.length := by
      split <;> omega
    obtain ⟨hlen, hbucketed, hperm⟩ := rehash_spec key hash hn t.entries
    refine ⟨⟨hbucketed, ?_, ?_⟩, hperm, hlen.symm ▸ hn⟩
    · exact (hperm.map key).nodup_iff.mpr h.nodup
    · exact h.count.trans hperm.length_eq.symm
  · rename_i hc
    exact ⟨h, .refl _, by omega⟩

theorem Wf.insert (hlen : 0 < t.buckets.length) (hfree : ∀ c ∈ t.entries, key c ≠ key a) :
    Wf key hash (t.insert hash (key a) a) ∧
      (t.insert hash (key a) a).entries.Perm (a :: t.entries) := by
  have hlt : hash (key a) % t.buckets.length < t.buckets.length := Nat.mod_lt _ hlen
  have hperm : (t.insert hash (key a) a).entries.Perm (a :: t.entries) :=
    perm_flatten_modify [] [a] (getElem?_eq_getElem hlt) (.refl _)
  refine ⟨⟨?_, ?_, ?_⟩, hperm⟩
  · refine h.bucketed.modify fun b c hc => ?_
    exact (mem_cons.mp hc).elim (fun h => .inr (by rw [h])) .inl
  · refine (hperm.map key).nodup_iff.mpr (nodup_cons.mpr ⟨?_, h.nodup⟩)
    simpa using hfree
  · change t.nEntry + 1 = _
    rw [hperm.length_eq, h.count]
    rfl

variable [DecidableEq κ]

theorem Wf.find_eq_some_iff :
    t.find key hash k = some a ↔ a ∈ t.entries ∧ key a = k := by
  constructor
  · intro hfind
    have hkey : key a = k := by simpa using find?_some hfind
    have hmem := mem_of_find?_eq_some hfind
    cases hb : t.buckets[hash k % t.buckets.length]? with
    | none => simp [hb] at hmem
    | some b =>
      rw [hb, getD_some] at hmem
      exact ⟨mem_flatten.mpr ⟨b, mem_of_getElem? hb, hmem⟩, hkey⟩
  · rintro ⟨hmem, rfl⟩
    obtain ⟨b, hb, hab⟩ := h.bucketed.mem_bucket hmem
    have hsome : ((b.find? fun c => key c = key a)).isSome := by
      rw [find?_isSome]
      exact ⟨a, hab, by simp⟩
    obtain ⟨c, hc⟩ := isSome_iff_exists.mp hsome
    have hcmem : c ∈ t.entries := mem_flatten.mpr ⟨b, mem_of_getElem? hb, mem_of_find?_eq_some hc⟩
    have hckey : key c = key a := by simpa using find?_some hc
    rw [find, hb, getD_some, hc, h.eq_of_key hcmem hmem hckey]

theorem Wf.find_eq_none_iff :
    t.find key hash k = none ↔ ∀ a ∈ t.entries, key a ≠ k := by
  rw [eq_none_iff_forall_ne_some]
  simp only [ne_eq, h.find_eq_some_iff, not_and]

theorem Wf.find_congr (h' : Wf key hash t')
    (hmem : ∀ a, key a = k → (a ∈ t.entries ↔ a ∈ t'.entries)) :
    t.find key hash k = t'.find key hash k := by
  refine ext fun a => ?_
  rw [h.find_eq_some_iff, h'.find_eq_some_iff]
  exact and_congr_left fun ha => hmem a ha

theorem Wf.erase (hfind : t.find key hash k = some a) :
    Wf key hash (t.erase key hash k) ∧ (a :: (t.erase key hash k).entries).Perm t.entries := by
  obtain ⟨hmem, rfl⟩ := h.find_eq_some_iff.mp hfind
  obtain ⟨b, hb, hab⟩ := h.bucketed.mem_bucket hmem
  have herase : (a :: b.eraseP fun c => key c = key a).Perm b := by
    obtain ⟨c, l₁, l₂, -, hc, hsplit, hrest⟩ := exists_of_eraseP
      (p := fun c => decide (key c = key a)) hab (by simp)
    have hcmem : c ∈ t.entries := mem_flatten.mpr ⟨b, mem_of_getElem? hb, by simp [hsplit]⟩
    obtain rfl : c = a := h.eq_of_key hcmem hmem (by simpa using hc)
    rw [hrest]
    conv_rhs => rw [hsplit]
    exact perm_middle.symm
  have hperm : (a :: (t.erase key hash (key a)).entries).Perm t.entries :=
    perm_flatten_modify [a] [] hb herase
  refine ⟨⟨?_, ?_, ?_⟩, hperm⟩
  · exact h.bucketed.modify fun b c hc => .inl (mem_of_mem_eraseP hc)
  · have hnodup := (hperm.map key).nodup_iff.mpr h.nodup
    exact (nodup_cons.mp hnodup).2
  · have hlen := hperm.length_eq
    have hcount := h.count
    simp only [length_cons] at hlen
    change t.nEntry - 1 = _
    omega

theorem Wf.find_insert (hlen : 0 < t.buckets.length)
    (hfree : ∀ c ∈ t.entries, key c ≠ key a) (k : κ) :
    (t.insert hash (key a) a).find key hash k =
      if k = key a then some a else t.find key hash k := by
  obtain ⟨hwf, hins⟩ := h.insert hlen hfree
  by_cases heq : k = key a
  · rw [if_pos heq, heq, hwf.find_eq_some_iff]
    exact ⟨hins.mem_iff.mpr mem_cons_self, rfl⟩
  · rw [if_neg heq]
    refine hwf.find_congr h fun c hc => ?_
    rw [hins.mem_iff, mem_cons, or_iff_right]
    rintro rfl
    exact heq hc.symm

/-- Changing what is under a key keeps the table in order, and only that changes. -/
theorem Wf.alter (hf : ∀ a, f (t.find key hash k) = some a → key a = k) :
    Wf key hash (t.alter key hash k f) ∧
      ∀ k', (t.alter key hash k f).find key hash k' =
        if k' = k then f (t.find key hash k) else t.find key hash k' := by
  obtain ⟨hgrow, hperm, hlen⟩ := h.grow
  have hfind : ∀ k', (t.grow key hash).find key hash k' = t.find key hash k' := fun k' =>
    hgrow.find_congr h fun a _ => hperm.mem_iff
  simp only [HashTable.alter, hfind]
  generalize t.grow key hash = u at *
  -- the entry under the key is taken out
  have hout : ∃ v, v = (if (t.find key hash k).isSome then u.erase key hash k else u) ∧
      Wf key hash v ∧ 0 < v.buckets.length ∧
      ∀ c, c ∈ v.entries ↔ c ∈ u.entries ∧ key c ≠ k := by
    cases hk : t.find key hash k with
    | none =>
      refine ⟨u, rfl, hgrow, hlen, fun c => ⟨fun hc => ⟨hc, ?_⟩, And.left⟩⟩
      exact hgrow.find_eq_none_iff.mp ((hfind k).trans hk) c hc
    | some a =>
      obtain ⟨hwf, hcons⟩ := hgrow.erase ((hfind k).trans hk)
      have hkey : key a = k := (hgrow.find_eq_some_iff.mp ((hfind k).trans hk)).2
      have hnodup : (key a :: (u.erase key hash k).entries.map key).Nodup :=
        (hcons.map key).nodup_iff.mpr hgrow.nodup
      refine ⟨_, rfl, hwf, by simpa [HashTable.erase] using hlen, fun c => ⟨fun hc => ⟨?_, ?_⟩, ?_⟩⟩
      · exact hcons.mem_iff.mp (mem_cons_of_mem a hc)
      · rw [← hkey]
        rintro heq
        exact (nodup_cons.mp hnodup).1 (heq ▸ mem_map_of_mem hc)
      · rintro ⟨hc, hne⟩
        rcases mem_cons.mp (hcons.mem_iff.mpr hc) with rfl | hc
        · exact absurd hkey hne
        · exact hc
  obtain ⟨v, hv, hvwf, hvlen, hvmem⟩ := hout
  rw [← hv]
  have hother : ∀ k', k' ≠ k → v.find key hash k' = t.find key hash k' := by
    intro k' hne
    rw [← hfind]
    refine hvwf.find_congr hgrow fun c hc => ?_
    rw [hvmem, hc]
    exact and_iff_left hne
  cases hres : f (t.find key hash k) with
  | none =>
    refine ⟨hvwf, fun k' => ?_⟩
    by_cases heq : k' = k
    · rw [if_pos heq, heq, hvwf.find_eq_none_iff]
      exact fun c hc => ((hvmem c).mp hc).2
    · rw [if_neg heq, hother k' heq]
  | some a =>
    obtain rfl := hf a hres
    have hfree : ∀ c ∈ v.entries, key c ≠ key a := fun c hc => ((hvmem c).mp hc).2
    refine ⟨(hvwf.insert hvlen hfree).1, fun k' => ?_⟩
    rw [hvwf.find_insert hvlen hfree]
    split
    · rfl
    · next heq => exact hother k' heq

theorem Wf.map (hf : ∀ a ∈ t.entries, key' (f a) = key a) :
    Wf key' hash (t.map f) ∧ ∀ k, (t.map f).find key' hash k = (t.find key hash k).map f := by
  have hlen : (t.map f).buckets.length = t.buckets.length := List.length_map _
  have hentries : (t.map f).entries = t.entries.map f := List.map_flatten.symm
  have hmem : ∀ i b, t.buckets[i]? = some b → ∀ a ∈ b, a ∈ t.entries := fun i b hb a ha =>
    mem_flatten.mpr ⟨b, mem_of_getElem? hb, ha⟩
  have hwf : Wf key' hash (t.map f) := by
    refine ⟨fun i b hb a ha => ?_, ?_, ?_⟩
    · rw [HashTable.map, getElem?_map] at hb
      obtain ⟨c, hc, rfl⟩ := map_eq_some_iff.mp hb
      obtain ⟨a', ha', rfl⟩ := mem_map.mp ha
      rw [hf a' (hmem i c hc a' ha'), hlen]
      exact h.bucketed i c hc a' ha'
    · rw [hentries, List.map_map]
      exact (map_congr_left hf : t.entries.map (key' ∘ f) = _) ▸ h.nodup
    · rw [hentries, List.length_map]
      exact h.count
  refine ⟨hwf, fun k => ext fun b => ?_⟩
  rw [hwf.find_eq_some_iff, hentries, List.mem_map, map_eq_some_iff]
  constructor
  · rintro ⟨⟨a, ha, rfl⟩, hk⟩
    exact ⟨a, h.find_eq_some_iff.mpr ⟨ha, (hf a ha).symm.trans hk⟩, rfl⟩
  · rintro ⟨a, ha, rfl⟩
    obtain ⟨ha, hk⟩ := h.find_eq_some_iff.mp ha
    exact ⟨⟨a, ha, rfl⟩, (hf a ha).trans hk⟩

/-- Only the bucket of a key has entries with the key. -/
theorem Wf.adjust_eq_map (f : α → α) :
    t.adjust key hash k f = t.map fun a => if key a = k then f a else a := by
  simp only [HashTable.adjust, HashTable.map, HashTable.mk.injEq, and_true]
  refine ext_getElem? fun i => ?_
  rw [getElem?_modify, getElem?_map]
  cases hb : t.buckets[i]? with
  | none => rfl
  | some b =>
    by_cases hi : hash k % t.buckets.length = i
    · simp [hi]
    · have hother : b.map (fun a => if key a = k then f a else a) = b := by
        refine (map_congr_left fun a ha => if_neg ?_).trans (map_id b)
        rintro rfl
        exact hi (h.bucketed i b hb a ha)
      simp [hi, hother]

end

end Maps

end HashTable
