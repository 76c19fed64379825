import SqlCipher.Process.Memory

/-!
# Starting up

`sqlcipher_extra_init` takes an idle process to a ready one. When a step fails, what the steps
before it have set up can be torn down, and the process is idle again (`extraInit_wp`). This holds
for the failures that `InitAnswers.Mild` admits.
-/

namespace SqlCipher

open ByteMemory Proc List

variable {σ ω : Type} {l : Process σ} {cb : Callbacks σ ω} {ans : InitAnswers ω}
  {E : ResultCode → Process σ → Prop} {noise : Nat → UInt8} {f : InitFrame σ}

/-! ## Between the calls -/

def maskRegion (ptr : Nat) : Region := ⟨ptr, shieldMaskSz⟩

/-- There is a heap with the records `held`, and what is registered is allocated. -/
structure Process.Holds (l : Process σ) (held : List Nat) : Prop where
  sane : l.Sane
  heap : l.HasHeap held
  records : ∀ q ∈ l.providers, l.Record held q
  mask : ∀ ptr, l.shieldMask = some ptr → maskRegion ptr ∈ l.live

/-- Nothing is set up. Providers may be registered whose records are in memory of their own. -/
structure Process.Idle (l : Process σ) : Prop where
  sane : l.Sane
  init : l.init = false
  base : l.heap.base = 0
  used : l.heap.used = 0
  mask : l.shieldMask = none
  mutexes : ∀ i, l.mutexes i = none
  records : ∀ q ∈ l.providers, l.Record [] q

structure Process.Ready (l : Process σ) : Prop where
  init : l.init = true
  shutdown : l.shutdown = false
  holds : ∃ held, l.Holds held ∧ ∀ q ∈ held, q ∈ l.providers

structure InitFrame.Torn (f : InitFrame σ) : Prop where
  sane : f.process.Sane
  init : f.process.init = false
  heap : f.process.heap.base = 0 ∧ f.process.heap.used = 0 ∧ f.provider = none ∨
    f.process.HasHeap f.provider.toList
  mask : ∀ ptr, f.process.shieldMask = some ptr → maskRegion ptr ∈ f.process.live
  records : ∀ q ∈ f.process.providers, f.process.Record [] q
  ctx : f.providerCtx ≠ none → f.process.providers ≠ []

/-! ## What the outside world does -/

def InitAnswers.HeapFound (ans : InitAnswers ω) (sz : Nat) : Prop :=
  ∃ k, k * heapSizeStep + heapSizeStep ≤ sz ∧ (ans.heapAlloc (sz - k * heapSizeStep)).isSome

def InitAnswers.Seeds (cb : Callbacks σ ω) (ans : InitAnswers ω) (l : Process σ) : Prop :=
  (cb.ctxInit l.serial ans.ctxInit l.state).1.1 = .ok ∧
    (cb.random ans.seed (cb.ctxInit l.serial ans.ctxInit l.state).2).1 = .ok ∧
    ans.maskAlloc.isSome ∧
    (cb.random ans.mask (cb.random ans.seed (cb.ctxInit l.serial ans.ctxInit l.state).2).2).1 = .ok

structure InitAnswers.AllOk (cb : Callbacks σ ω) (ans : InitAnswers ω) (l : Process σ) : Prop where
  mutexes : ∀ i < mutexCount, (ans.mutexAlloc i).isSome
  heap : (ans.heapAlloc l.heap.sz).isSome
  setup : ans.setup = .ok
  providerInit : ans.providerInit = .ok
  seeds : ans.Seeds cb l

/-- A mutex fails; or some heap can be allocated, and failures come before the call registers a
provider, or the application has one. -/
def InitAnswers.Mild (cb : Callbacks σ ω) (ans : InitAnswers ω) (l : Process σ) : Prop :=
  (∃ i < mutexCount, ans.mutexAlloc i = none) ∨ ans.HeapFound l.heap.sz ∧
    (l.providers ≠ [] ∨ ans.setup ≠ .ok ∨ ans.providerInit ≠ .ok ∨ ans.Seeds cb l)

structure InitAnswers.Fresh (ans : InitAnswers ω) (l : Process σ) : Prop where
  heap : ∀ size base, heapSizeStep ≤ size → size ≤ l.heap.sz → ans.heapAlloc size = some base →
    Region.Fresh l.live ⟨base, size⟩
  mask : ∀ ptr, ans.maskAlloc = some ptr → Region.Fresh l.live (maskRegion ptr) ∧
    ∀ size base, ans.heapAlloc size = some base → (maskRegion ptr).Disjoint ⟨base, size⟩

theorem InitAnswers.AllOk.mild (h : ans.AllOk cb l) (hl : l.Sane) : ans.Mild cb l := by
  refine .inr ⟨⟨0, ?_, ?_⟩, .inr (.inr (.inr h.seeds))⟩
  · have := hl.step
    omega
  · simpa using h.heap

/-! ## Teardown -/

theorem Process.Sane.setHeap (hl : l.Sane) (hsz : h.sz = l.heap.sz) {records : List Nat} :
    { l with heap := h, records := records }.Sane :=
  { hl with step := hsz ▸ hl.step, small := hsz ▸ hl.small }

theorem Process.Sane.filter (hl : l.Sane) (a : Nat) {records : List Nat} :
    { l with
      heap := ⟨m, base, l.heap.sz, used⟩
      live := l.live.filter fun r => r.addr ≠ a
      shieldMask := mask
      records := records }.Sane :=
  ⟨hl.step, hl.small, fun r hr => hl.nonempty r (mem_of_mem_filter hr), hl.apart.filter _,
    hl.nodup⟩

theorem maskRegion_ne (ptr q : Nat) : providerRegion q ≠ maskRegion ptr := by
  intro heq
  have hsz : providerSz = shieldMaskSz := congrArg Region.size heq
  exact absurd hsz (by decide)

theorem callProvider_wp {β : Type} {f : σ → β × σ} {Q : β → Process σ → Prop}
    (hne : l.providers ≠ []) (hrec : ∀ q ∈ l.providers, q ∈ l.records) :
    wp (callProvider f) Q E l ↔ Q (f l.state).1 { l with state := (f l.state).2 } := by
  unfold callProvider
  cases hq : l.providers with
  | nil => exact absurd hq hne
  | cons q qs =>
    have hal : q ∈ l.records := hrec q (by rw [hq]; exact mem_cons_self)
    simp only [wp_bind, wp_get, hq, if_pos hal, wp_modify, wp_pure]

theorem Process.Sane.heapRegion_ne_maskRegion (hl : l.Sane) (ptr : Nat) :
    l.heapRegion ≠ maskRegion ptr := by
  intro heq
  have hsz : l.heap.sz = shieldMaskSz := congrArg Region.size heq
  have := hl.step
  unfold shieldMaskSz heapSizeStep at *
  omega

theorem freeMask_wp (hl : l.Sane) (hheap : held = [] ∨ l.HasHeap held)
    (hmask : ∀ ptr, l.shieldMask = some ptr → maskRegion ptr ∈ l.live) :
    wp (freeMask noise) (fun _ l' => ∃ m live records, l' = { l with
      heap := { l.heap with mem := m }, live := live, shieldMask := none, records := records } ∧
      l'.Sane ∧ (l.HasHeap held → l'.HasHeap held) ∧ ∀ q, l.Record held q →
        l'.Record held q) E l := by
  unfold freeMask
  cases hm : l.shieldMask with
  | none =>
    simp only [wp_bind, wp_get, hm, wp_pure]
    refine ⟨l.heap.mem, l.live, l.records, ?_, hl, id, fun q => id⟩
    rw [← hm]
  | some ptr =>
    have hmem := hmask ptr hm
    have hex : ∃ r ∈ l.live, r.addr = ptr := ⟨_, hmem, rfl⟩
    have hne := hl.heapRegion_ne_maskRegion ptr
    simp only [wp_bind, wp_get, hm]
    rw [internalFree_wp hex, wp_modify]
    refine ⟨_, _, _, rfl, ?_, ?_, ?_⟩
    · exact hl.filter ptr
    · intro hheap
      have hout := hl.outside hmem hne.symm hheap.heapRegion_mem
      exact hheap.fill_outside hout noise (hl.mem_filter hheap.heapRegion_mem hmem hne)
    · exact fun q hq => hq.internalFree hl hheap hmem (maskRegion_ne ptr q).symm (.inr hne.symm)

theorem Process.HasHeap.used_eq_zero (h : l.HasHeap []) : l.heap.used = 0 := by
  obtain ⟨bs, hrep, hnone, -⟩ := h
  rw [hrep.used, usedSize, map_eq_nil_iff.mp hnone]
  rfl

theorem freeHeap_wp (hl : l.Sane) (hheap : l.heap.base = 0 ∧ l.heap.used = 0 ∨ l.HasHeap []) :
    wp (freeHeap noise) (fun _ l' => ∃ m live records, l' = { l with
      heap := ⟨m, 0, l.heap.sz, 0⟩, live := live, records := records } ∧ l'.Sane ∧
      (∀ r ∈ l.live, r ≠ l.heapRegion → r ∈ live) ∧ ∀ q, l.Record [] q → l'.Record [] q) E l := by
  unfold freeHeap
  simp only [wp_bind, wp_get, wp_when]
  refine ⟨fun hbase => ?_, fun hbase => ?_⟩
  · obtain hnone | hheap := hheap
    · exact absurd hnone.1 hbase
    · have hmem := hheap.heapRegion_mem
      have hex : ∃ r ∈ l.live, r.addr = l.heap.base := ⟨_, hmem, rfl⟩
      rw [internalFree_wp hex, wp_modify]
      refine ⟨fill l.heap.mem l.heap.base l.heap.sz noise,
        l.live.filter fun r => r.addr ≠ l.heap.base,
        l.records.filter fun q => ¬ (l.heap.base ≤ q ∧ q < l.heap.base + l.heap.sz),
        by rw [hheap.used_eq_zero], ?_, fun r hr hne => hl.mem_filter hr hmem hne, fun q hq => ?_⟩
      · exact hl.filter l.heap.base
      · exact hq.internalFree hl (.inl rfl) hmem (hl.providerRegion_ne_heapRegion q).symm (.inl rfl)
  · rw [ne_eq, not_not] at hbase
    have hused : l.heap.used = 0 := by
      obtain hnone | hheap := hheap
      · exact hnone.2
      · exact hheap.used_eq_zero
    refine ⟨l.heap.mem, l.live, l.records, ?_, hl, fun r hr _ => hr, fun q => id⟩
    obtain ⟨⟨m, base, sz, used⟩, _⟩ := l
    cases hbase
    cases hused
    rfl

theorem freePending_wp (hl : l.Sane)
    (hheap : l.heap.base = 0 ∧ l.heap.used = 0 ∧ provider = none ∨ l.HasHeap provider.toList) :
    wp (freePending noise provider) (fun _ l' => ∃ h records, l' = { l with
      heap := h, records := records } ∧ l'.Sane ∧ (h.base = 0 ∧ h.used = 0 ∨ l'.HasHeap []) ∧
      ∀ q, l.Record [] q → l'.Record [] q) E l := by
  cases provider with
  | none =>
    refine ⟨l.heap, l.records, rfl, hl, ?_, fun q => id⟩
    obtain ⟨hbase, hused, -⟩ | hheap := hheap
    · exact .inl ⟨hbase, hused⟩
    · exact .inr hheap
  | some ptr =>
    obtain ⟨-, -, hnone⟩ | hheap := hheap
    · cases hnone
    · refine .post (hheap.freeProvider_wp hl mem_cons_self) ?_
      rintro _ _ ⟨h, rfl, hbase, hsz, hheap'⟩
      refine ⟨h, _, rfl, hl.setHeap hsz, .inr (by simpa using hheap'), fun q hq => ⟨?_, hq.2⟩⟩
      have hne := hheap.ne_of_own hl mem_cons_self (hq.2.resolve_right (by simp))
      exact mem_filter.mpr ⟨hq.1, by simpa using hne⟩

/-- Whatever a step leaves, the teardown clears. -/
theorem initTeardown_wp (cb : Callbacks σ ω) (ans : InitAnswers ω) (hf : f.Torn) :
    wp (initTeardown cb ans) (fun _ f' => f'.process.Idle) (fun _ _ => False) f := by
  unfold initTeardown
  simp only [wp_bind, wp_get, onProcess, wp_onPart]
  refine .post (freePending_wp hf.sane hf.heap) ?_
  rintro _ _ ⟨h, records, rfl, hsane, hheap, hrec⟩
  refine .post (freeHeap_wp hsane hheap) ?_
  rintro _ _ ⟨m, live, records', rfl, hsane', hkeep, hrec'⟩
  have hmask (ptr) (hm : f.process.shieldMask = some ptr) : maskRegion ptr ∈ live :=
    hkeep _ (hf.mask ptr hm) (hsane.heapRegion_ne_maskRegion ptr).symm
  refine .post (freeMask_wp hsane' (.inl rfl) hmask) ?_
  rintro _ _ ⟨m', live', records'', rfl, hsane'', -, hrec''⟩
  have hrecords (q) (hq : q ∈ f.process.providers) := hrec'' q (hrec' q (hrec q (hf.records q hq)))
  simp only [wp_modify, wp_when, wp_onPart]
  have hidle (s : σ) : Process.Idle { f.process with
      heap := ⟨m', 0, h.sz, 0⟩, live := live', shieldMask := none, mutexes := fun _ => none
      records := records'', state := s } :=
    ⟨{ hsane'' with }, hf.init, rfl, rfl,
      rfl, fun _ => rfl, hrecords⟩
  refine ⟨fun hctx => ?_, fun _ => hidle _⟩
  refine (callProvider_wp ?_ ?_).mpr (hidle _)
  · exact hf.ctx hctx
  · exact fun q hq => (hrecords q hq).1

/-! ## The steps -/

theorem allocMutexes_wp (hnone : ∀ i, l.mutexes i = none) :
    wp (forEach (allocMutex ans) (range mutexCount))
      (fun _ l' => (∃ mutexes, l' = { l with mutexes := mutexes }) ∧
        ∀ i < mutexCount, (ans.mutexAlloc i).isSome)
      (fun _ l' => (∃ mutexes, l' = { l with mutexes := mutexes }) ∧
        ∃ i < mutexCount, ans.mutexAlloc i = none) l := by
  let Inv (rest : List Nat) (l' : Process σ) : Prop :=
    ∃ mutexes, l' = { l with mutexes := mutexes } ∧ (∀ i ∈ rest, mutexes i = none) ∧
      ∀ i < mutexCount, i ∉ rest → (ans.mutexAlloc i).isSome
  have hstart : Inv (range mutexCount) l :=
    ⟨l.mutexes, rfl, fun i _ => hnone i, fun i hi hout => absurd (mem_range.mpr hi) hout⟩
  refine .mono (.forEach (I := Inv) ?_ hstart) ?_ fun _ _ h => h
  · rintro i rest _ hsuf ⟨mutexes, rfl, hfree, hdone⟩
    have hi : i < mutexCount := mem_range.mp (hsuf.subset mem_cons_self)
    have hnd : (i :: rest).Nodup := nodup_range.sublist hsuf.sublist
    simp only [allocMutex, wp_bind, wp_get, hfree i mem_cons_self, if_true]
    cases ha : ans.mutexAlloc i with
    | none => exact ⟨⟨mutexes, rfl⟩, i, hi, ha⟩
    | some mutex =>
      refine ⟨_, rfl, fun j hj => ?_, fun j hj hjr => ?_⟩
      · have hne : j ≠ i := fun h => (nodup_cons.mp hnd).1 (h ▸ hj)
        rw [Function.update_of_ne hne]
        exact hfree j (mem_cons_of_mem i hj)
      · by_cases hji : j = i
        · rw [hji, ha]
          rfl
        · exact hdone j hj (by simp [hji, hjr])
  · rintro _ _ ⟨mutexes, rfl, -, hdone⟩
    exact ⟨⟨mutexes, rfl⟩, fun i hi => hdone i hi (by simp)⟩

/-- The heap is as large as can be had. -/
theorem tryHeapSizes_spec (ans : InitAnswers ω) (hfuel : sz < fuel) :
    ∃ size found, tryHeapSizes ans fuel sz = some (size, found) ∧
      (found = none ∧ ¬ ans.HeapFound sz ∨
        ∃ base, found = some base ∧ ans.heapAlloc size = some base ∧ heapSizeStep ≤ size ∧
          size ≤ sz) := by
  induction fuel generalizing sz with
  | zero => cases hfuel
  | succ fuel ih =>
    unfold tryHeapSizes
    split
    · rename_i hle
      cases ha : ans.heapAlloc sz with
      | some base => exact ⟨_, _, rfl, .inr ⟨base, rfl, ha, hle, Nat.le_refl _⟩⟩
      | none =>
        have hpos : 0 < heapSizeStep := by decide
        obtain ⟨size, found, htry, hcase⟩ := ih (show sz - heapSizeStep < fuel by omega)
        refine ⟨size, found, htry, ?_⟩
        obtain ⟨rfl, hnot⟩ | ⟨base, rfl, hans, hstep, hsize⟩ := hcase
        · refine .inl ⟨rfl, fun ⟨k, hk, hsome⟩ => hnot ?_⟩
          cases k with
          | zero => simp [ha] at hsome
          | succ k =>
            rw [Nat.succ_mul] at hk hsome
            exact ⟨k, by omega, by rwa [Nat.add_comm, ← Nat.sub_sub] at hsome⟩
        · exact .inr ⟨base, rfl, hans, hstep, by omega⟩
    · exact ⟨_, _, rfl, .inl ⟨rfl, fun ⟨k, hk, _⟩ => by omega⟩⟩

theorem allocHeap_wp :
    wp (allocHeap ans) (fun _ l' => ¬ ans.HeapFound l.heap.sz ∨
      ∃ base size m, ans.heapAlloc size = some base ∧ heapSizeStep ≤ size ∧ size ≤ l.heap.sz ∧
        l' = { l with
          heap := { PrivateHeap.initial m base size ans.noise with used := l.heap.used }
          live := ⟨base, size⟩ :: l.live }) E l := by
  obtain ⟨size, found, htry, ⟨rfl, hnot⟩ | ⟨base, rfl, hans, hstep, hsize⟩⟩ :=
    tryHeapSizes_spec ans (Nat.lt_succ_self l.heap.sz)
  · simp only [allocHeap, wp_bind, wp_get, htry, wp_modify]
    exact .inl hnot
  · simp only [allocHeap, wp_bind, wp_get, htry, wp_modify, allocate, wp_pure]
    exact .inr ⟨base, size, _, hans, hstep, hsize, rfl⟩

theorem Process.Sane.cons (hl : l.Sane) (hfresh : Region.Fresh l.live r)
    (hstep : heapSizeStep ≤ h.sz) (hsmall : h.sz < 2 ^ 32) :
    { l with heap := h, live := r :: l.live }.Sane := by
  refine ⟨hstep, hsmall, fun r' hr' => ?_, pairwise_cons.mpr ⟨hfresh.apart, hl.apart⟩, hl.nodup⟩
  obtain rfl | hr' := mem_cons.mp hr'
  · exact hfresh.nonempty
  · exact hl.nonempty r' hr'

theorem PrivateHeap.initial_rep_used {base size : Nat} (hfresh : Region.Fresh l.live ⟨base, size⟩)
    (hstep : heapSizeStep ≤ size) (hsmall : size < 2 ^ 32) (hused : l.heap.used = 0) (m : Mem)
    (noise : Nat → UInt8) : { PrivateHeap.initial m base size noise with used := l.heap.used }.Rep
      [⟨base, size - privateBlockSz, false⟩] := by
  have hlarge : privateBlockSz < size := by
    unfold privateBlockSz heapSizeStep at *
    omega
  rw [hused]
  exact PrivateHeap.initial_rep hfresh.pos hfresh.lt hlarge hsmall m noise

theorem mallocProvider_wp (hl : l.Sane)
    (hrep : l.heap.Rep [⟨l.heap.base, l.heap.sz - privateBlockSz, false⟩])
    (hmem : l.heapRegion ∈ l.live) (fallback : Option Nat) :
    wp (mallocProvider fallback) (fun r l' => ∃ ptr h, r = some ptr ∧ ptr ≠ 0 ∧
      l' = { l with heap := h } ∧ h.base = l.heap.base ∧ h.sz = l.heap.sz ∧
        l'.HasHeap [ptr]) E l := by
  have hstep := hl.step
  have hround : heapRoundup providerSz = providerSz := by decide
  have hlarge : privateBlockSz + providerSz < l.heap.sz := by
    unfold privateBlockSz heapSizeStep providerSz at *
    omega
  obtain ⟨pre, b, post, h, heq, hb, hfit, hcall, hbase, hsz, hrep', -⟩ | ⟨hfull, -⟩ :=
    hrep.malloc (by omega)
      (show ¬ (providerSz < 1 ∨ sqliteMaxLength < providerSz) by decide) fallback
  · obtain ⟨rfl, rfl, rfl⟩ : pre = [] ∧
        b = ⟨l.heap.base, l.heap.sz - privateBlockSz, false⟩ ∧ post = [] := by
      simpa [singleton_eq_append_iff] using heq
    obtain ⟨c, rest, hcarve, hc, haddr, hcs, hrest⟩ := carve_head hfit
    have hpos := hrep.pos
    have hon : l.heap.base ≤ l.heap.base + privateBlockSz ∧
        l.heap.base + privateBlockSz < l.heap.base + l.heap.sz := by omega
    have hrun : mallocProvider fallback l =
        some (.ok (some (l.heap.base + privateBlockSz)), { l with heap := h }) := by
      rw [mallocProvider, hcall]
      simp [Block.payload, hon]
    refine wp_of_eq_ok hrun ⟨_, h, rfl, by omega, rfl, hbase, hsz, _, hrep', ?_, ?_, ?_⟩
    · rw [hcarve, nil_append, append_nil, usedPayloads_cons, hc, if_pos rfl, usedPayloads,
        hrest, Block.payload, haddr]
      rfl
    · intro d hd hused
      rw [hcarve, nil_append, append_nil] at hd
      obtain rfl | hd := mem_cons.mp hd
      · exact hround ▸ hcs
      · have : d ∈ rest.filter Block.used := mem_filter.mpr ⟨hd, hused⟩
        rw [hrest] at this
        cases this
    · rw [Process.heapRegion, hbase, hsz]
      exact hmem
  · have := hfull _ mem_cons_self rfl
    rw [hround] at this
    dsimp only at this
    omega

theorem registerProvider_first_wp (hnone : l.providers = []) (hptr : ptr ≠ 0) :
    wp (registerProvider ptr rc) Q E l ↔
      (rc ≠ .ok → E rc l) ∧ (rc = .ok → Q () { l with providers := [ptr] }) := by
  simp [registerProvider, hnone, hptr]

theorem initProvider_wp (hf : f.Torn) (hnone : f.process.providers = [])
    (hrep : f.process.heap.Rep [⟨f.process.heap.base, f.process.heap.sz - privateBlockSz, false⟩])
    (hmem : f.process.heapRegion ∈ f.process.live) :
    wp (initProvider ans) (fun _ f' => ∃ ptr h, f' = ⟨{ f.process with
        heap := h, providers := [ptr], records := ptr :: f.process.records }, none,
        f.providerCtx⟩ ∧ f'.process.Sane ∧
        f'.process.HasHeap [ptr] ∧ ans.setup = .ok ∧ ans.providerInit = .ok)
      (fun _ f' => f'.Torn ∧ (ans.setup ≠ .ok ∨ ans.providerInit ≠ .ok)) f := by
  have hsane := hf.sane
  simp only [initProvider, wp_bind, onProcess, wp_onPart]
  refine .post (mallocProvider_wp hsane hrep hmem ans.providerAlloc) ?_
  rintro _ _ ⟨ptr, h, rfl, hptr, rfl, hbase, hsz, hheap⟩
  have htorn (records : List Nat) (hrec : ∀ q ∈ f.process.records, q ∈ records) :
      InitFrame.Torn ⟨{ f.process with heap := h, records := records }, some ptr, f.providerCtx⟩ :=
    ⟨hsane.setHeap hsz, hf.init, .inr hheap, hf.mask,
      fun q hq => (hf.records q hq).imp_left (hrec q), hf.ctx⟩
  simp only [wp_bind, wp_modify, requireOk, wp_when, wp_fail, wp_onPart]
  refine ⟨fun hsetup => ⟨htorn _ fun q => id, .inl hsetup⟩, fun hsetup => ?_⟩
  refine (registerProvider_first_wp ?_ hptr).mpr ⟨fun hinit => ?_, fun hinit => ?_⟩
  · exact hnone
  · exact ⟨htorn _ fun q => mem_cons_of_mem ptr, .inr hinit⟩
  exact ⟨ptr, h, rfl, { @hsane.setHeap _ _ _ hsz [] with nodup := by simp }, hheap,
    not_not.mp hsetup, hinit⟩

namespace Process.Holds

variable {held : List Nat} (hl : l.Holds held)
include hl

theorem withState (s : σ) (n : Nat) : { l with state := s, serial := n }.Holds held :=
  { hl with sane := { hl.sane with } }

theorem withMask (hfresh : Region.Fresh l.live (maskRegion ptr)) :
    { l with
      heap := internalMalloc l.heap shieldMaskSz (some ptr)
      live := maskRegion ptr :: l.live
      shieldMask := some ptr }.Holds held := by
  have hsane := hl.sane.cons hfresh hl.sane.step hl.sane.small
  have hout : l.heap.Outside ptr shieldMaskSz := hfresh.apart _ hl.heap.heapRegion_mem
  refine ⟨{ hsane with },
    hl.heap.fill_outside hout (fun _ => 0) (mem_cons_of_mem _ hl.heap.heapRegion_mem),
    fun q hq => (hl.records q hq).imp_right (Or.imp_left (mem_cons_of_mem _)),
    fun ptr' hptr => ?_⟩
  cases hptr
  exact mem_cons_self

end Process.Holds

theorem Process.Holds.callProvider_wp {β : Type} (hl : l.Holds held)
    (hne : l.providers ≠ []) {f : σ → β × σ} {Q : β → Process σ → Prop}
    (hQ : Q (f l.state).1 { l with state := (f l.state).2 }) : wp (callProvider f) Q E l :=
  (SqlCipher.callProvider_wp hne fun q hq => (hl.records q hq).1).mpr hQ

/-- The heap, the providers and their records are as before, and no record is pending. -/
def InitFrame.Kept (held : List Nat) (f f' : InitFrame σ) : Prop :=
  f'.process.Holds held ∧ f'.process.providers = f.process.providers ∧
    f'.process.init = f.process.init ∧ f'.provider = none

section Seeding

variable {held : List Nat} (hf : f.process.Holds held) (hne : f.process.providers ≠ [])
  (hfresh : ∀ ptr, ans.maskAlloc = some ptr → Region.Fresh f.process.live (maskRegion ptr))
  (hprov : f.provider = none)
include hf hne hfresh hprov

theorem initMask_wp : wp (initMask cb ans) (fun _ => f.Kept held) (fun _ f' => f.Kept held f' ∧
    ¬ (ans.maskAlloc.isSome ∧ (cb.random ans.mask f.process.state).1 = .ok)) f := by
  simp only [initMask, onProcess, wp_bind, wp_onPart, allocate, wp_modify, wp_pure]
  cases ha : ans.maskAlloc with
  | none => exact ⟨⟨hf, rfl, rfl, hprov⟩, by simp⟩
  | some ptr =>
    have hmask := hf.withMask (hfresh ptr ha)
    simp only [wp_bind, wp_modify, wp_onPart, requireOk, wp_when, wp_fail]
    refine hmask.callProvider_wp hne ⟨fun hrc => ?_, fun _ => ?_⟩
    · exact ⟨⟨hmask.withState _ _, rfl, rfl, hprov⟩, fun h => hrc h.2⟩
    · exact ⟨hmask.withState _ _, rfl, rfl, hprov⟩

/-- The provider is asked for random data. What fails leaves the heap and the records as they are.
-/
theorem initSeed_wp : wp (initSeed cb ans)
    (fun _ f' => f'.process.Holds held ∧ f'.process.providers = f.process.providers)
    (fun _ f' => f.Kept held f' ∧ ¬ ans.Seeds cb f.process) f := by
  have hstate (s n) := hf.withState s n
  simp only [initSeed, onProcess, wp_bind, wp_get, wp_modify, wp_onPart, requireOk, wp_when,
    wp_fail]
  refine Process.Holds.callProvider_wp (hstate _ _) (by exact hne) ?_
  refine ⟨fun hrc => ?_, fun hctx => ?_⟩
  · exact ⟨⟨hstate _ _, rfl, rfl, hprov⟩, fun h => hrc h.1⟩
  refine Process.Holds.callProvider_wp (hstate _ _) (by exact hne) ?_
  refine ⟨fun hrc => ?_, fun hseed => ?_⟩
  · exact ⟨⟨hstate _ _, rfl, rfl, hprov⟩, fun h => hrc h.2.1⟩
  have hfree {l : Process σ} {E : ResultCode → Process σ → Prop} (hl : l.Holds held)
      (heq : l.providers = f.process.providers) :
      wp (callProvider fun s => ((), cb.ctxFree f.process.serial s))
        (fun _ l' => l'.Holds held ∧ l'.providers = f.process.providers) E l :=
    hl.callProvider_wp (heq ▸ hne) ⟨hl.withState _ _, heq⟩
  refine ⟨fun _ => ?_, fun _ => ?_⟩
  · refine .mono (initMask_wp (hstate _ _) ?_ ?_ ?_) ?_ ?_
    · exact hne
    · exact hfresh
    · exact hprov
    · rintro _ f' ⟨hf', heq, -⟩
      exact hfree hf' heq
    · exact fun _ f' hf' => ⟨hf'.1, fun h => hf'.2 h.2.2⟩
  · refine hfree ?_ rfl
    exact hstate _ _

end Seeding

theorem Process.Idle.holds_withHeap (hl : l.Idle) {heap : PrivateHeap} (mutexes : Nat → Option Nat)
    (hregion : Region.Fresh l.live ⟨heap.base, heap.sz⟩)
    (hrep : heap.Rep [⟨heap.base, heap.sz - privateBlockSz, false⟩])
    (hstep : heapSizeStep ≤ heap.sz) (hsmall : heap.sz < 2 ^ 32) :
    Process.Holds { l with
      heap := heap, live := ⟨heap.base, heap.sz⟩ :: l.live, mutexes := mutexes } [] := by
  have hsane := hl.sane.cons hregion hstep hsmall
  refine ⟨{ hsane with },
    ⟨_, hrep, rfl, by simp, mem_cons_self⟩,
    fun q hq => (hl.records q hq).imp_right (Or.imp_left (mem_cons_of_mem _)),
    fun ptr hptr => ?_⟩
  exact absurd (hl.mask.symm.trans hptr) (by simp)

/-- Without a record on the heap everything can be torn down. -/
theorem Process.Holds.torn (hl : l.Holds []) (hinit : l.init = false)
    (hctx : ctx ≠ none → l.providers ≠ []) : InitFrame.Torn ⟨l, none, ctx⟩ :=
  ⟨hl.sane, hinit, .inr hl.heap, hl.mask, hl.records, hctx⟩

/-- All steps: what they leave when one of them fails can be torn down. -/
theorem initSteps_wp (hl : l.Idle) (hfresh : ans.Fresh l) (hmild : ans.Mild cb l) :
    wp (initSteps cb ans)
      (fun _ f' => ∃ held, f'.process.Holds held ∧ ∀ q ∈ held, q ∈ f'.process.providers)
      (fun _ f' => f'.Torn ∧ ¬ ans.AllOk cb l) ⟨l, none, none⟩ := by
  have hsane := hl.sane
  simp only [initSteps, wp_bind, onProcess, wp_onPart, wp_get, wp_when, wp_fail]
  refine .mono (allocMutexes_wp hl.mutexes) ?_ ?_
  · rintro _ _ ⟨⟨mutexes, rfl⟩, hmutexes⟩
    obtain ⟨i, hi, hnone⟩ | ⟨hfound, hlate⟩ := hmild
    · exact absurd (hmutexes i hi) (by simp [hnone])
    refine ⟨fun _ => ?_, fun hbase => absurd hl.base hbase⟩
    refine .post allocHeap_wp ?_
    rintro _ _ (hnot | ⟨base, size, m, hans, hstep, hsize, rfl⟩)
    · exact absurd hfound hnot
    have hregion := hfresh.heap size base hstep hsize hans
    have hsmall : size < 2 ^ 32 := Nat.lt_of_le_of_lt hsize hsane.small
    have hrep := PrivateHeap.initial_rep_used hregion hstep hsmall hl.used m ans.noise
    generalize hheap : { PrivateHeap.initial m base size ans.noise with used := l.heap.used } = heap
      at hrep ⊢
    obtain ⟨rfl, rfl⟩ : heap.base = base ∧ heap.sz = size := by
      rw [← hheap]
      exact ⟨rfl, rfl⟩
    clear hheap
    have hholds := hl.holds_withHeap mutexes hregion hrep hstep hsmall
    have hmask (ptr) (hptr : ans.maskAlloc = some ptr) :
        Region.Fresh (⟨heap.base, heap.sz⟩ :: l.live) (maskRegion ptr) := by
      obtain ⟨hfresh', hapart⟩ := hfresh.mask ptr hptr
      exact ⟨hfresh'.pos, hfresh'.nonempty, hfresh'.lt,
        forall_mem_cons.mpr ⟨hapart _ _ hans, hfresh'.apart⟩⟩
    refine ⟨fun hzero => ?_, fun _ => ⟨fun hnone => ?_, fun hsome => ?_⟩⟩
    · exact absurd hzero (Nat.ne_of_gt hregion.pos)
    · refine .mono (initProvider_wp (hholds.torn hl.init (by simp)) hnone hrep mem_cons_self) ?_ ?_
      · rintro _ _ ⟨ptr, h, rfl, hsane', hheap, hsetup, hinit⟩
        have hholds' : Process.Holds { l with
            heap := h, live := ⟨heap.base, heap.sz⟩ :: l.live, mutexes := mutexes
            providers := [ptr], records := ptr :: l.records } [ptr] :=
          ⟨hsane', hheap, fun q hq => ⟨mem_cons.mpr (.inl (mem_singleton.mp hq)), .inr hq⟩,
            hholds.mask⟩
        have hseeds : ans.Seeds cb l := by
          obtain h | h | h | h := hlate
          · exact absurd hnone h
          · exact absurd hsetup h
          · exact absurd hinit h
          · exact h
        refine .mono (initSeed_wp hholds' (cons_ne_nil _ _) hmask rfl) ?_ ?_
        · rintro _ f' ⟨hf', heq⟩
          exact ⟨[ptr], hf', fun q hq => heq ▸ hq⟩
        · exact fun _ f' hf' => absurd hseeds hf'.2
      · rintro _ f' ⟨htorn, hfail⟩
        refine ⟨htorn, fun hok => ?_⟩
        obtain hfail | hfail := hfail
        · exact hfail hok.setup
        · exact hfail hok.providerInit
    · refine .mono (initSeed_wp hholds hsome hmask rfl) ?_ ?_
      · rintro _ f' ⟨hf', -⟩
        exact ⟨[], hf', (by simp)⟩
      · rintro _ f' ⟨⟨hf', heq, hinit, hprov⟩, hnot⟩
        refine ⟨?_, fun hok => hnot hok.seeds⟩
        obtain ⟨l', provider, ctx⟩ := f'
        cases hprov
        exact hf'.torn (hinit.trans hl.init) fun _ => heq ▸ hsome
  · rintro _ _ ⟨⟨mutexes, rfl⟩, i, hi, hnone⟩
    refine ⟨⟨{ hsane with }, hl.init,
      .inl ⟨hl.base, hl.used, rfl⟩, ?_, hl.records, (by simp)⟩, fun hok => ?_⟩
    · intro ptr hptr
      exact absurd (hl.mask.symm.trans hptr) (by simp)
    · exact absurd (hok.mutexes i hi) (by simp [hnone])

/-- The whole call: it succeeds, or the process is idle as before. -/
theorem extraInit_wp (hl : l.Idle) (hfresh : ans.Fresh l) (hmild : ans.Mild cb l) :
    wp (extraInit cb ans) (fun _ l' => l'.Ready) (fun _ l' => l'.Idle ∧ ¬ ans.AllOk cb l) l := by
  have hinit : ¬ l.init = true := by simp [hl.init]
  unfold wp wpOr extraInit
  rw [if_neg hinit]
  obtain ⟨_, f, hrun, held, hholds, hheld⟩ | ⟨rc, f, hrun, htorn, hnot⟩ :=
    exists_of_wp (initSteps_wp hl hfresh hmild)
  · rw [hrun]
    exact ⟨rfl, rfl, held, { hholds with sane := { hholds.sane with } }, hheld⟩
  · rw [hrun]
    obtain ⟨_, f', hdown, hidle⟩ | ⟨_, _, -, hbad⟩ := exists_of_wp (initTeardown_wp cb ans htorn)
    · simp only [Option.bind_some, hdown, Option.map_some]
      exact ⟨{ hidle with sane := { hidle.sane with } }, hnot⟩
    · exact hbad.elim

end SqlCipher
