import SqlCipher.Memory.PrivateHeapCalls

/-!
# The private heap and its clients

Clients hold the bytes of the blocks in use, or memory of the ordinary allocator
(`HeapSession.Sound`). Every call keeps this (`HeapSession.Sound.step`), and so does every run in
which only live allocations are freed and written to (`privateHeap_sound`).
-/

namespace SqlCipher

open ByteMemory List

variable {m : Mem} {a e last : Nat} {b c : Block} {bs pre post : List Block}

/-! ## Blocks side by side -/

theorem Tiling.separated (h : Tiling m last a (pre ++ b :: post) e) (hc : c ∈ pre ∨ c ∈ post) :
    c.stop ≤ b.addr ∨ b.stop ≤ c.addr := by
  obtain ⟨d, hpre, rfl, -, hpost⟩ := (tiling_append (cons_ne_nil _ _)).mp h
  obtain hc | hc := hc
  · exact .inl (hpre.bounds hc).2
  · exact .inr (hpost.bounds hc).1

theorem Tiling.payload_ne (h : Tiling m last a (pre ++ b :: post) e) (hc : c ∈ pre ∨ c ∈ post) :
    c.payload ≠ b.payload := by
  have := h.separated hc
  unfold Block.stop Block.payload privateBlockSz at *
  omega

theorem PrivateHeap.Rep.usedPayloads_release {h : PrivateHeap} (hr : h.Rep (pre ++ b :: post))
    (hb : b.used = true) : usedPayloads (release pre b post) =
      (usedPayloads (pre ++ b :: post)).filter (· ≠ b.payload) := by
  have hkeep {l : List Block} (hl : ∀ c ∈ l, c ∈ pre ∨ c ∈ post) :
      (usedPayloads l).filter (· ≠ b.payload) = usedPayloads l := by
    refine filter_eq_self.mpr fun a ha => ?_
    obtain ⟨c, hc, rfl⟩ := mem_map.mp ha
    simpa using hr.tiling.payload_ne (hl c (mem_of_mem_filter hc))
  rw [usedPayloads_append, usedPayloads_cons, hb, if_pos rfl, filter_append, filter_append,
    hkeep fun c => .inl, hkeep fun c => .inr, usedPayloads, (release_spec hr.apart).2, map_append]
  simp [usedPayloads]

/-! ## Clients -/

def Allocation.Disjoint (x y : Allocation) : Prop := x.ptr + x.size ≤ y.ptr ∨ y.ptr + y.size ≤ x.ptr

instance : Std.Symm Allocation.Disjoint := ⟨fun _ _ => Or.symm⟩

def PrivateHeap.Outside (h : PrivateHeap) (a n : Nat) : Prop := a + n ≤ h.base ∨ h.base + h.sz ≤ a

theorem PrivateHeap.Outside.mono {h : PrivateHeap} (hout : h.Outside a n)
    (hk : k ≤ n) : h.Outside a k := by
  unfold Outside at *
  omega

theorem PrivateHeap.Outside.ne_payload {h : PrivateHeap} (hout : h.Outside a n)
    (hn : 0 < n) (hr : h.Rep bs) : ∀ b ∈ bs, a ≠ b.payload := by
  intro b hb
  have hbounds := hr.tiling.bounds hb
  have hsize := hr.nonempty b hb
  unfold PrivateHeap.Outside Block.stop Block.payload at *
  omega

theorem PrivateHeap.Outside.congr {h h' : PrivateHeap} (hout : h.Outside a n)
    (hbase : h'.base = h.base) (hsz : h'.sz = h.sz) : h'.Outside a n := by
  unfold Outside
  rwa [hbase, hsz]

/-- What is asked of others: what is freed or written to is live, and what the ordinary allocator
hands out is its own. -/
def HeapSession.Legal (s : HeapSession) : HeapOp → Prop
  | .malloc size fallback => ∀ ptr, fallback = some ptr → s.heap.Outside ptr (heapRoundup size) ∧
    ∀ x ∈ s.live, Allocation.Disjoint ⟨ptr, heapRoundup size, false⟩ x
  | .free ptr sz _ => ∃ x ∈ s.live, x.ptr = ptr ∧ sz ≤ x.size
  | .store addr _ => ∃ x ∈ s.live, x.ptr ≤ addr ∧ addr < x.ptr + x.size

/-- The heap consists of the blocks `bs`, and the clients own the blocks in use. -/
structure HeapSession.Sound (s : HeapSession) (bs : List Block) : Prop where
  large : privateBlockSz < s.heap.sz
  rep : s.heap.Rep bs
  owned : ((s.live.filter Allocation.onHeap).map Allocation.ptr).Perm (usedPayloads bs)
  held : ∀ x ∈ s.live, x.onHeap = true →
    ∃ b ∈ bs, b.used = true ∧ b.payload = x.ptr ∧ x.size ≤ b.size
  outside : ∀ x ∈ s.live, x.onHeap = false → s.heap.Outside x.ptr x.size
  nonempty : ∀ x ∈ s.live, 0 < x.size
  disjoint : s.live.Pairwise Allocation.Disjoint

/-- The session is sound later on, with the heap where it was. -/
def HeapSession.Follows (s t : HeapSession) : Prop :=
  (∃ bs, t.Sound bs) ∧ t.heap.base = s.heap.base ∧ t.heap.sz = s.heap.sz

theorem HeapSession.Follows.trans {s t u : HeapSession} (h : s.Follows t) (h' : t.Follows u) :
    s.Follows u :=
  ⟨h'.1, h'.2.1.trans h.2.1, h'.2.2.trans h.2.2⟩

namespace HeapSession.Sound

variable {s : HeapSession} (hs : s.Sound bs)
include hs

/-! ### Allocation -/

omit hs in
theorem malloc_heap (hs : s.Sound (pre ++ b :: post)) (hb : b.used = false) {size n : Nat}
    (hpos : 0 < size) (hsize : size ≤ n) (hn : n ≤ b.size)
    (hbase : h.base = s.heap.base) (hsz : h.sz = s.heap.sz)
    (hrep : h.Rep (pre ++ (b.carve n ++ post))) :
    (s.note size (some b.payload, h)).Sound (pre ++ (b.carve n ++ post)) := by
  obtain ⟨c, rest, heq, hc, haddr, hcs, hrest⟩ := carve_head hn
  have hpayload : c.payload = b.payload := by unfold Block.payload; rw [haddr]
  have hbounds := hs.rep.tiling.bounds (b := b) (by simp)
  have hstop : b.stop = b.payload + b.size := rfl
  have hbegin : b.addr ≤ b.payload := Nat.le_add_right _ _
  have hold {d : Block} (hd : d ∈ pre ++ b :: post) (hused : d.used = true) :
      d ∈ pre ∨ d ∈ post := by
    have hne : d ≠ b := by
      rintro rfl
      simp [hb] at hused
    simpa [hne] using hd
  have hnote : s.note size (some b.payload, h) = ⟨h, ⟨b.payload, size, true⟩ :: s.live⟩ := by
    have hon : s.heap.base ≤ b.payload ∧ b.payload < s.heap.base + s.heap.sz := by omega
    simp [note, hon]
  rw [hnote]
  refine ⟨hsz ▸ hs.large, hrep, ?_, ?_, ?_, ?_, ?_⟩
  · have howned := hs.owned
    have hrest' : usedPayloads rest = [] := by rw [usedPayloads, hrest]; rfl
    rw [usedPayloads_append, usedPayloads_cons, hb] at howned
    rw [heq]
    simp only [cons_append, usedPayloads_append, usedPayloads_cons, hc, hrest', hpayload,
      filter_cons, map_cons, if_true, nil_append]
    exact (howned.cons _).trans perm_middle.symm
  · refine forall_mem_cons.mpr ⟨fun _ => ?_, fun x hx hon => ?_⟩
    · exact ⟨c, by simp [heq], hc, hpayload, hsize.trans hcs⟩
    · obtain ⟨d, hd, hused, hptr, hroom⟩ := hs.held x hx hon
      exact ⟨d, by have := hold hd hused; grind, hused, hptr, hroom⟩
  · exact forall_mem_cons.mpr ⟨(by simp), fun x hx hon => (hs.outside x hx hon).congr hbase hsz⟩
  · exact forall_mem_cons.mpr ⟨hpos, hs.nonempty⟩
  · refine pairwise_cons.mpr ⟨fun x hx => ?_, hs.disjoint⟩
    unfold Allocation.Disjoint
    dsimp only
    cases hon : x.onHeap with
    | false =>
      have := hs.outside x hx hon
      unfold PrivateHeap.Outside at this
      omega
    | true =>
      obtain ⟨d, hd, hused, hptr, hroom⟩ := hs.held x hx hon
      have hsep := hs.rep.tiling.separated (hold hd hused)
      unfold Block.payload at *
      unfold Block.stop at *
      omega

theorem malloc_outside (hpos : 0 < size) (hout : s.heap.Outside ptr (heapRoundup size))
    (hdis : ∀ x ∈ s.live, Allocation.Disjoint ⟨ptr, heapRoundup size, false⟩ x) :
    (s.note size (some ptr, internalMalloc s.heap (heapRoundup size) (some ptr))).Sound bs := by
  have hle := le_heapRoundup size
  have hnote : s.note size (some ptr, internalMalloc s.heap (heapRoundup size) (some ptr)) =
      ⟨{ s.heap with mem := fill s.heap.mem ptr (heapRoundup size) fun _ => 0 },
        ⟨ptr, size, false⟩ :: s.live⟩ := by
    have hon : ¬ (s.heap.base ≤ ptr ∧ ptr < s.heap.base + s.heap.sz) := by
      unfold PrivateHeap.Outside at hout
      omega
    simp [note, internalMalloc, hon]
  rw [hnote]
  refine ⟨hs.large, hs.rep.fill_outside hout _, hs.owned, forall_mem_cons.mpr ⟨nofun, hs.held⟩,
    forall_mem_cons.mpr ⟨fun _ => hout.mono hle, hs.outside⟩,
    forall_mem_cons.mpr ⟨hpos, hs.nonempty⟩, pairwise_cons.mpr ⟨fun x hx => ?_, hs.disjoint⟩⟩
  have := hdis x hx
  unfold Allocation.Disjoint at *
  dsimp only at *
  omega

theorem malloc (hlegal : s.Legal (.malloc size fallback)) :
    ∃ s', s.step (.malloc size fallback) = some s' ∧ s.Follows s' := by
  by_cases hsize : size < 1 ∨ sqliteMaxLength < size
  · refine ⟨s, ?_, ⟨bs, hs⟩, rfl, rfl⟩
    rw [step, sqlcipherMalloc, if_pos hsize]
    rfl
  · have hpos : 0 < size := by omega
    obtain ⟨pre, b, post, h, rfl, hb, hn, hcall, hbase, hsz, hrep, -⟩ | ⟨-, hcall⟩ :=
      hs.rep.malloc (Nat.le_of_lt hs.large) hsize fallback
    · have hsound := hs.malloc_heap hb hpos (le_heapRoundup size) hn hbase hsz hrep
      refine ⟨_, ?_, ⟨_, hsound⟩, hbase, hsz⟩
      rw [step, hcall, Option.map_some]
    · cases fallback with
      | none =>
        refine ⟨s, ?_, ⟨bs, hs⟩, rfl, rfl⟩
        rw [step, hcall, Option.map_some]
        rfl
      | some ptr =>
        obtain ⟨hout, hdis⟩ := hlegal ptr rfl
        refine ⟨_, ?_, ⟨bs, hs.malloc_outside hpos hout hdis⟩, rfl, rfl⟩
        rw [step, hcall, Option.map_some]

/-! ### Deallocation -/

theorem forget {h : PrivateHeap} (ptr : Nat) (hbase : h.base = s.heap.base)
    (hsz : h.sz = s.heap.sz) (hrep : h.Rep bs')
    (hused : (usedPayloads bs').Perm ((usedPayloads bs).filter (· ≠ ptr)))
    (hkept : ∀ c ∈ bs, c.used = true → c.payload ≠ ptr → c ∈ bs') :
    HeapSession.Sound ⟨h, s.live.filter fun x => x.ptr ≠ ptr⟩ bs' := by
  refine ⟨hsz ▸ hs.large, hrep, ?_, ?_, ?_, ?_, hs.disjoint.filter _⟩
  · have howned := hs.owned.filter (· ≠ ptr)
    rw [filter_map, filter_comm] at howned
    exact howned.trans hused.symm
  · intro x hx hon
    obtain ⟨hx, hne⟩ := mem_filter.mp hx
    obtain ⟨c, hc, hcu, hptr, hroom⟩ := hs.held x hx hon
    exact ⟨c, hkept c hc hcu (by simpa [hptr] using hne), hcu, hptr, hroom⟩
  · exact fun x hx hon => (hs.outside x (mem_of_mem_filter hx) hon).congr hbase hsz
  · exact fun x hx => hs.nonempty x (mem_of_mem_filter hx)

theorem free {ptr sz : Nat} (hlegal : s.Legal (.free ptr sz random)) :
    ∃ s', s.step (.free ptr sz random) = some s' ∧ s.Follows s' := by
  obtain ⟨x, hx, rfl, hle⟩ := hlegal
  cases hon : x.onHeap with
  | false =>
    have hout := hs.outside x hx hon
    have hne := hout.ne_payload (hs.nonempty x hx) hs.rep
    have hrep := hs.rep.fill_outside (hout.mono hle) random
    refine ⟨_, ?_, ⟨bs, hs.forget (h := { s.heap with mem := fill s.heap.mem x.ptr sz random })
      x.ptr rfl rfl hrep ?_ fun c hc _ _ => hc⟩, rfl, rfl⟩
    · rw [step, sqlcipherFree, hs.rep.findAlloc_outside (Nat.le_of_lt hs.large) hne,
        Option.map_some, Option.map_some]
    · rw [filter_eq_self.mpr]
      intro a ha
      obtain ⟨b, hb, rfl⟩ := mem_map.mp ha
      simpa using (hne b (mem_of_mem_filter hb)).symm
  | true =>
    obtain ⟨b, hb, hused, hptr, -⟩ := hs.held x hx hon
    obtain ⟨pre, post, rfl⟩ := append_of_mem hb
    obtain ⟨h, hcall, hbase, hsz, hrep⟩ := hs.rep.free (Nat.le_of_lt hs.large) hused sz random
    have hreleased := hs.rep.usedPayloads_release hused
    rw [hptr] at hcall hreleased
    refine ⟨_, ?_, ⟨_, hs.forget x.ptr hbase hsz hrep ?_ ?_⟩, hbase, hsz⟩
    · rw [step, hcall, Option.map_some]
    · rw [hreleased]
    · intro c hc hcu hne
      have hkept : c ∈ (release pre b post).filter Block.used := by
        rw [(release_spec hs.rep.apart).2]
        grind
      exact mem_of_mem_filter hkept

/-! ### Stores -/

theorem store (hlegal : s.Legal (.store addr byte)) :
    ∃ s', s.step (.store addr byte) = some s' ∧ s.Follows s' := by
  obtain ⟨x, hx, hlo, hhi⟩ := hlegal
  have hspare : ∀ c ∈ bs, addr < c.addr ∨ c.addr + privateBlockSz ≤ addr := by
    intro c hc
    cases hon : x.onHeap with
    | false =>
      have hout := hs.outside x hx hon
      have hbounds := hs.rep.tiling.bounds hc
      unfold PrivateHeap.Outside Block.stop at *
      omega
    | true =>
      obtain ⟨b, hb, -, hptr, hroom⟩ := hs.held x hx hon
      obtain ⟨pre, post, rfl⟩ := append_of_mem hb
      unfold Block.payload at hptr
      by_cases hcb : c = b
      · subst hcb
        omega
      · have := hs.rep.tiling.separated (c := c) (by simpa [hcb] using hc)
        unfold Block.stop at this
        omega
  refine ⟨_, rfl, ⟨bs, hs.large, hs.rep.withMem fun c hc => blockAt_congr fun y hlo hhi => ?_,
    hs.owned, hs.held, hs.outside, hs.nonempty, hs.disjoint⟩, rfl, rfl⟩
  have := hspare c hc
  exact Function.update_of_ne (by omega) _ _

/-! ### All calls -/

theorem step (hlegal : s.Legal op) : ∃ s', s.step op = some s' ∧ s.Follows s' := by
  cases op with
  | malloc size fallback => exact hs.malloc hlegal
  | free ptr sz random => exact hs.free hlegal
  | store addr byte => exact hs.store hlegal

theorem zeroed (hcall : sqlcipherMalloc s.heap size fallback = some (some ptr, h)) (hlo : ptr ≤ x)
    (hhi : x < ptr + size) : h.mem x = 0 := by
  by_cases hsize : size < 1 ∨ sqliteMaxLength < size
  · rw [sqlcipherMalloc, if_pos hsize] at hcall
    cases hcall
  · have hle := le_heapRoundup size
    obtain ⟨pre, b, post, h', -, -, -, hheap, -, -, -, hmem⟩ | ⟨-, hout⟩ :=
      hs.rep.malloc (Nat.le_of_lt hs.large) hsize fallback
    · cases hheap.symm.trans hcall
      rw [hmem]
      unfold Block.payload at hlo hhi
      exact takeBlock_zero hlo (by omega)
    · cases hout.symm.trans hcall
      have hlt : x < ptr + heapRoundup size := by omega
      exact fill_of_mem (m := s.heap.mem) (f := fun _ => 0) hlo hlt

theorem drained (hlive : s.live = []) :
    bs = [⟨s.heap.base, s.heap.sz - privateBlockSz, false⟩] := by
  have hlarge := hs.large
  have htiling := hs.rep.tiling
  have hfree : ∀ b ∈ bs, b.used = false := by
    have howned := hs.owned
    rw [hlive] at howned
    have hnone := map_eq_nil_iff.mp howned.nil_eq.symm
    simpa using filter_eq_nil_iff.mp hnone
  match bs, hs.rep.apart with
  | [], _ =>
    have : s.heap.base = s.heap.base + s.heap.sz := htiling
    omega
  | [b], _ =>
    have hb := hfree b mem_cons_self
    obtain ⟨haddr, -, hstop⟩ := htiling
    have hend : b.addr + privateBlockSz + b.size = s.heap.base + s.heap.sz := hstop
    obtain ⟨addr, size, used⟩ := b
    dsimp only at *
    rw [hb, haddr, show size = s.heap.sz - privateBlockSz by omega]
  | b :: c :: bs, hapart =>
    have := (isChain_cons_cons.mp hapart).1
    simp [Block.Apart, hfree] at this

/-- All that is live can be freed, in any order. -/
theorem freeAll {l : List Allocation} (hl : l.Perm s.live) (random : Allocation → Nat → UInt8) :
    ∃ t, Run.exec HeapSession.step s (l.map fun x => .free x.ptr x.size (random x)) = some t ∧
      t.live = [] ∧ s.Follows t := by
  induction l generalizing s bs with
  | nil => exact ⟨s, rfl, hl.nil_eq.symm, ⟨bs, hs⟩, rfl, rfl⟩
  | cons x l ih =>
    have hlegal : s.Legal (.free x.ptr x.size (random x)) :=
      ⟨x, hl.mem_iff.mp mem_cons_self, rfl, le_rfl⟩
    obtain ⟨s', hstep, hs'⟩ := hs.free hlegal
    have hlive : s'.live = s.live.filter fun y => y.ptr ≠ x.ptr := by
      obtain ⟨h, -, rfl⟩ := Option.map_eq_some_iff.mp hstep
      rfl
    have hrest : l.Perm s'.live := by
      have hdis := (hl.pairwise_iff (R := Allocation.Disjoint) Or.symm).mpr hs.disjoint
      have hne : ∀ y ∈ l, y.ptr ≠ x.ptr := by
        intro y hy
        have hxy : Allocation.Disjoint x y := (pairwise_cons.mp hdis).1 y hy
        have hx := hs.nonempty x (hl.mem_iff.mp mem_cons_self)
        have hy := hs.nonempty y (hl.mem_iff.mp (mem_cons_of_mem x hy))
        unfold Allocation.Disjoint at hxy
        omega
      have hfilter := hl.filter fun y => y.ptr ≠ x.ptr
      rwa [filter_cons_of_neg (by simp), filter_eq_self.mpr (by simpa using hne),
        ← hlive] at hfilter
    obtain ⟨t, hrun, hlive, ht⟩ := ih hs'.1.choose_spec hrest
    exact ⟨t, Run.exec_cons_eq_some.mpr ⟨s', hstep, hrun⟩, hlive, hs'.trans ht⟩

end HeapSession.Sound

/-! ## Runs -/

theorem PrivateHeap.initial_rep {base sz : Nat} (hbase : 0 < base) (hend : base + sz < 2 ^ 64)
    (hlarge : privateBlockSz < sz) (hsmall : sz < 2 ^ 32) (m : Mem) (random : Nat → UInt8) :
    (PrivateHeap.initial m base sz random).Rep [⟨base, sz - privateBlockSz, false⟩] := by
  refine ⟨hbase, hend, hsmall, ⟨rfl, ?_, ?_⟩, ?_, isChain_singleton _, rfl⟩
  · unfold PrivateHeap.initial
    dsimp only
    have hsize : (sz - privateBlockSz) % 2 ^ 32 = sz - privateBlockSz := Nat.mod_eq_of_lt (by omega)
    rw [blockAt_setNext, blockAt_setSize, blockAt_setIsUsed, hsize]
    rfl
  · unfold Block.stop PrivateHeap.initial
    show base + privateBlockSz + (sz - privateBlockSz) = base + sz
    omega
  · simp only [mem_singleton, forall_eq]
    omega

/-- In any run in which clients free and write only what is live, and the ordinary allocator hands
out memory of its own: the calls end, the blocks fill the heap, what is live is disjoint, what is
handed out is zero, and the heap can be emptied. -/
theorem privateHeap_sound (base sz : Nat) (hbase : 0 < base) (hend : base + sz < 2 ^ 64)
    (hlarge : privateBlockSz < sz) (hsmall : sz < 2 ^ 32) (m : Mem) (random : Nat → UInt8)
    (ops : List HeapOp)
    (hlegal : Run.Along HeapSession.step HeapSession.Legal (.initial m base sz random) ops) :
    ∃ s, Run.exec HeapSession.step (.initial m base sz random) ops = some s ∧
      s.heap.base = base ∧ s.heap.sz = sz ∧ (∃ bs, s.Sound bs) ∧
      (∀ size fallback ptr h, sqlcipherMalloc s.heap size fallback = some (some ptr, h) →
        ∀ x, ptr ≤ x → x < ptr + size → h.mem x = 0) ∧
      ∀ (l : List Allocation) (random : Allocation → Nat → UInt8), l.Perm s.live →
        ∃ t, Run.exec HeapSession.step s (l.map fun x => .free x.ptr x.size (random x)) = some t ∧
          t.live = [] ∧ t.heap.Rep [⟨base, sz - privateBlockSz, false⟩] := by
  have hinit : (HeapSession.initial m base sz random).Follows (.initial m base sz random) :=
    ⟨⟨_, hlarge, PrivateHeap.initial_rep hbase hend hlarge hsmall m random, .nil, nofun, nofun,
    nofun,
      .nil⟩, rfl, rfl⟩
  obtain ⟨s, hrun, ⟨bs, hs⟩, hb, hz⟩ := Run.exec_progress (fun s op hinv hop => by
    obtain ⟨s', hstep, hs'⟩ := hinv.1.choose_spec.step hop
    exact ⟨s', hstep, hinv.trans hs'⟩) hinit hlegal
  refine ⟨s, hrun, hb, hz, ⟨bs, hs⟩, fun _ _ _ _ hcall _ hlo hhi => hs.zeroed hcall hlo hhi, ?_⟩
  intro l random hl
  obtain ⟨t, hfree, hlive, ⟨bs', ht⟩, hb', hz'⟩ := hs.freeAll hl random
  have hone := ht.drained hlive
  rw [hb', hb, hz', hz] at hone
  exact ⟨t, hfree, hlive, hone ▸ ht.rep⟩

/-- A run with a block that is split, and merged again. -/
theorem privateHeap_sound_small : ∃ s, Run.exec HeapSession.step
      (.initial (fun _ => 0) 16 256 fun _ => 7) [.malloc 10 none, .free 32 10 fun _ => 9] = some s ∧
      ∃ bs, s.Sound bs := by
  have hlegal : Run.Along HeapSession.step HeapSession.Legal
      (.initial (fun _ => 0) 16 256 fun _ => 7) [.malloc 10 none, .free 32 10 fun _ => 9] := by
    refine ⟨nofun, fun s hs => ⟨?_, fun _ _ => trivial⟩⟩
    have hlive : (HeapSession.step (.initial (fun _ => 0) 16 256 fun _ => 7) (.malloc 10 none)).map
        HeapSession.live = some [⟨32, 10, true⟩] := by decide +kernel
    rw [hs] at hlive
    exact ⟨⟨32, 10, true⟩, Option.some.inj hlive ▸ mem_singleton_self _, rfl, by decide⟩
  obtain ⟨s, hrun, -, -, hs, -⟩ := privateHeap_sound 16 256 (by decide) (by decide) (by decide)
    (by decide) (fun _ => 0) (fun _ => 7) _ hlegal
  exact ⟨s, hrun, hs⟩

end SqlCipher
