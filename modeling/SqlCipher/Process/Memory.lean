import SqlCipher.Memory.PrivateHeapRun
import SqlCipher.Process.Library

/-!
# The memory of the process

What is allocated never overlaps (`Process.Sane`), and the heap, once there is one, is made of
blocks of which only those of provider records are in use (`Process.HasHeap`). This module says what
allocating and freeing do to this.
-/

namespace SqlCipher

open ByteMemory Proc List

variable {σ ω : Type} {l : Process σ} {noise : Nat → UInt8}

def Region.Disjoint (r r' : Region) : Prop := r.addr + r.size ≤ r'.addr ∨ r'.addr + r'.size ≤ r.addr

instance : Std.Symm Region.Disjoint := ⟨fun _ _ => Or.symm⟩

instance (r r' : Region) : Decidable (r.Disjoint r') := inferInstanceAs (Decidable (_ ∨ _))

structure Region.Fresh (live : List Region) (r : Region) : Prop where
  pos : 0 < r.addr
  nonempty : 0 < r.size
  lt : r.addr + r.size < 2 ^ 64
  apart : ∀ r' ∈ live, r.Disjoint r'

/-- What is allocated does not overlap, and the size of the heap is one to ask for. -/
structure Process.Sane (l : Process σ) : Prop where
  step : heapSizeStep ≤ l.heap.sz
  small : l.heap.sz < 2 ^ 32
  nonempty : ∀ r ∈ l.live, 0 < r.size
  apart : l.live.Pairwise Region.Disjoint
  nodup : l.providers.Nodup

def providerRegion (q : Nat) : Region := ⟨q, providerSz⟩

def Process.heapRegion (l : Process σ) : Region := ⟨l.heap.base, l.heap.sz⟩

/-- The record of a provider is intact, in memory of its own or among those `held` on the heap. -/
def Process.Record (l : Process σ) (held : List Nat) (q : Nat) : Prop :=
  q ∈ l.records ∧ (providerRegion q ∈ l.live ∨ q ∈ held)

def Process.HasHeap (l : Process σ) (held : List Nat) : Prop :=
  ∃ bs, l.heap.Rep bs ∧ usedPayloads bs = held ∧ (∀ b ∈ bs, b.used = true → providerSz ≤ b.size) ∧
    l.heapRegion ∈ l.live

namespace Process.Sane

variable (hl : l.Sane) {r r' : Region} {q : Nat} {E : ResultCode → Process σ → Prop}
include hl

theorem disjoint (hr : r ∈ l.live) (hr' : r' ∈ l.live) (hne : r ≠ r') :
    r.Disjoint r' := hl.apart.forall hr hr' hne

theorem addr_ne (hr : r ∈ l.live) (hr' : r' ∈ l.live) (hne : r ≠ r') : r.addr ≠ r'.addr := by
  have hd := hl.disjoint hr hr' hne
  have := hl.nonempty r hr
  have := hl.nonempty r' hr'
  unfold Region.Disjoint at hd
  omega

theorem mem_filter (hr : r ∈ l.live) (hr' : r' ∈ l.live) (hne : r ≠ r') :
    r ∈ l.live.filter fun x => x.addr ≠ r'.addr :=
  List.mem_filter.mpr ⟨hr, by simpa using hl.addr_ne hr hr' hne⟩

theorem mem_records (hr : r ∈ l.live) (hr' : r' ∈ l.live) (hne : r ≠ r') (hq : q ∈ l.records)
    (hlo : r.addr ≤ q) (hhi : q < r.addr + r.size) :
    q ∈ l.records.filter fun x => ¬ (r'.addr ≤ x ∧ x < r'.addr + r'.size) := by
  have hd := hl.disjoint hr hr' hne
  unfold Region.Disjoint at hd
  refine List.mem_filter.mpr ⟨hq, ?_⟩
  simp only [decide_eq_true_eq]
  omega

theorem large : privateBlockSz ≤ l.heap.sz := by
  have := hl.step
  unfold heapSizeStep privateBlockSz at *
  omega

theorem providerRegion_ne_heapRegion (q : Nat) : providerRegion q ≠ l.heapRegion := by
  intro heq
  have hsz : providerSz = l.heap.sz := congrArg Region.size heq
  have := hl.step
  unfold providerSz heapSizeStep at *
  omega

theorem outside (hr : r ∈ l.live) (hne : r ≠ l.heapRegion) (hheap : l.heapRegion ∈ l.live) :
    l.heap.Outside r.addr r.size :=
  hl.disjoint hr hheap hne

end Process.Sane

theorem internalFree_wp (hlive : ∃ r ∈ l.live, r.addr = ptr) :
    wpOr N (internalFree ptr size noise) Q E l ↔ Q () { l with
      heap := { l.heap with mem := fill l.heap.mem ptr size noise }
      live := l.live.filter fun r => r.addr ≠ ptr
      records := l.records.filter fun q => ¬ (ptr ≤ q ∧ q < ptr + size) } := by
  simp only [internalFree, wp_bind, wp_get, if_pos hlive, wp_modify]

namespace Process.HasHeap

variable {held : List Nat} (hheap : l.HasHeap held)
include hheap

theorem heapRegion_mem : l.heapRegion ∈ l.live := by
  obtain ⟨bs, -, -, -, h⟩ := hheap
  exact h

theorem bounds (hq : q ∈ held) :
    l.heapRegion.addr ≤ q ∧ q < l.heapRegion.addr + l.heapRegion.size := by
  obtain ⟨bs, hrep, rfl, hroom, -⟩ := hheap
  obtain ⟨b, hb, rfl⟩ := mem_map.mp hq
  obtain ⟨hb, hused⟩ := List.mem_filter.mp hb
  have hbounds := hrep.tiling.bounds hb
  have hsize := hroom b hb hused
  unfold Process.heapRegion Block.payload Block.stop providerSz at *
  dsimp only
  omega

theorem fill_outside (hout : l.heap.Outside a n) (f : Nat → UInt8) {live : List Region}
    {records : List Nat} (hlive : l.heapRegion ∈ live) :
    { l with
      heap := { l.heap with mem := fill l.heap.mem a n f }
      live := live
      shieldMask := mask
      records := records }.HasHeap held := by
  obtain ⟨bs, hrep, hused, hroom, -⟩ := hheap
  exact ⟨bs, hrep.fill_outside hout f, hused, hroom, hlive⟩

variable (hl : l.Sane)
include hl

theorem freeProvider_wp (hq : q ∈ held) :
    wp (freeProvider q noise) (fun _ l' => ∃ h, l' = { l with
      heap := h, records := l.records.filter fun r => r ≠ q } ∧
      h.base = l.heap.base ∧ h.sz = l.heap.sz ∧ l'.HasHeap (held.filter (· ≠ q))) E l := by
  obtain ⟨bs, hrep, rfl, hroom, hmem⟩ := hheap
  obtain ⟨b, hb, rfl⟩ := mem_map.mp hq
  obtain ⟨hb, hused⟩ := List.mem_filter.mp hb
  obtain ⟨pre, post, rfl⟩ := append_of_mem hb
  obtain ⟨h, hfree, hbase, hsize, hrep'⟩ := hrep.free hl.large hused providerSz noise
  simp only [freeProvider, wp_bind, wp_get, hrep.findAlloc_eq hl.large, hfree, wp_modify]
  refine ⟨h, rfl, hbase, hsize, _, hrep', hrep.usedPayloads_release hused, ?_, ?_⟩
  · intro c hc hcu
    have hkept : c ∈ (release pre b post).filter Block.used := List.mem_filter.mpr ⟨hc, hcu⟩
    rw [(release_spec hrep.apart).2] at hkept
    exact hroom c (by grind) hcu
  · rw [Process.heapRegion, hbase, hsize]
    exact hmem

theorem freeProvider_own_wp (hq : providerRegion q ∈ l.live) :
    wp (freeProvider q noise) (fun _ l' => l'.HasHeap held ∧ l' = { l with
      heap := { l.heap with mem := fill l.heap.mem q providerSz noise }
      live := l.live.filter fun r => r.addr ≠ q
      records := l.records.filter fun r => ¬ (q ≤ r ∧ r < q + providerSz) }) E l := by
  have hmem := hheap.heapRegion_mem
  have hout := hl.outside hq (hl.providerRegion_ne_heapRegion q) hmem
  have hfind : findAlloc l.heap.mem q l.heap.sz 0 l.heap.base = some none := by
    obtain ⟨bs, hrep, -⟩ := hheap
    exact hrep.findAlloc_outside hl.large (hout.ne_payload (hl.nonempty _ hq) hrep)
  simp only [freeProvider, wp_bind, wp_get, hfind]
  refine (internalFree_wp ⟨_, hq, rfl⟩).mpr ⟨hheap.fill_outside hout noise ?_, rfl⟩
  exact hl.mem_filter hmem hq (hl.providerRegion_ne_heapRegion q).symm

end Process.HasHeap

theorem providerRegion_bounds (q : Nat) :
    (providerRegion q).addr ≤ q ∧ q < (providerRegion q).addr + (providerRegion q).size := by
  have hpos : 0 < providerSz := by decide
  exact ⟨Nat.le_refl q, Nat.lt_add_of_pos_right hpos⟩

theorem Process.HasHeap.ne_of_own (hheap : l.HasHeap held) (hl : l.Sane)
    (hp : p ∈ held) (hq : providerRegion q ∈ l.live) : q ≠ p := by
  rintro rfl
  have hd := hl.disjoint hq hheap.heapRegion_mem (hl.providerRegion_ne_heapRegion q)
  have hb := hheap.bounds hp
  have hb' := providerRegion_bounds q
  unfold Region.Disjoint at hd
  omega

theorem Process.Record.internalFree (h : l.Record held q) (hl : l.Sane)
    (hheap : held = [] ∨ l.HasHeap held) (hr : r ∈ l.live) (hown : r ≠ providerRegion q)
    (hne : held = [] ∨ r ≠ l.heapRegion) {heap : PrivateHeap} :
    Process.Record { l with
      heap := heap
      live := l.live.filter fun x => x.addr ≠ r.addr
      shieldMask := mask
      records := l.records.filter fun x => ¬ (r.addr ≤ x ∧ x < r.addr + r.size) } held q := by
  obtain ⟨hrec, hmem | hheld⟩ := h
  · have hb := providerRegion_bounds q
    exact ⟨hl.mem_records hmem hr hown.symm hrec hb.1 hb.2, .inl (hl.mem_filter hmem hr hown.symm)⟩
  · obtain rfl | hheap := hheap
    · cases hheld
    obtain rfl | hne := hne
    · cases hheld
    have hb := hheap.bounds hheld
    exact ⟨hl.mem_records hheap.heapRegion_mem hr hne.symm hrec hb.1 hb.2, .inr hheld⟩

theorem Process.Record.allocated (h : l.Record [] q) : l.Allocated q providerSz :=
  ⟨_, h.2.resolve_right (by simp), Nat.le_refl _, Nat.le_refl _⟩

end SqlCipher
