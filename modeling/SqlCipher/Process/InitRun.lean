import SqlCipher.Process.InitSpec

/-!
# A failed start

When `sqlcipher_extra_init` fails before it has registered the default provider, what it leaves
behind is in order and it can be called again, after any sequence of earlier calls
(`extraInit_recovers`). When it fails later, it frees the heap with the record of the default
provider on it, which stays registered; and when no heap can be allocated it has given up every size
(`not_extraInit_recovers`).
-/

namespace SqlCipher

open ByteMemory Proc List Process

variable {σ ω : Type} {l : Process σ} {cb : Callbacks σ ω}

theorem freeProviders_wp (hl : l.Holds held) (hheld : ∀ q ∈ held, q ∈ l.providers) :
    wp (forEach (fun q => do
        let l ← get
        if q ∈ l.records then freeProvider q noise else undefined) l.providers)
      (fun _ l' => ∃ heap live records, l' = { l with
        heap := heap, live := live, records := records } ∧ l'.Sane ∧ l'.HasHeap [])
      (fun _ _ => False) l := by
  let Inv (rest : List Nat) (l' : Process σ) : Prop :=
    ∃ heap live records held, l' = { l with heap := heap, live := live, records := records } ∧
      l'.Sane ∧ l'.HasHeap held ∧ (∀ q ∈ held, q ∈ rest) ∧ ∀ q ∈ rest, l'.Record held q
  have hstart : Inv l.providers l := ⟨_, _, _, held, rfl, hl.sane, hl.heap, hheld, hl.records⟩
  refine .post (.forEach (I := Inv) ?_ hstart) ?_
  · rintro q rest _ hsuf ⟨heap, live, records, held, rfl, hsane, hheap, hsub, hrec⟩
    have hnd : (q :: rest).Nodup := hl.sane.nodup.sublist hsuf.sublist
    have hne {r : Nat} (hr : r ∈ rest) : r ≠ q := fun h => (nodup_cons.mp hnd).1 (h ▸ hr)
    obtain ⟨hq, hplace⟩ := hrec q mem_cons_self
    simp only [wp_bind, wp_get]
    rw [if_pos hq]
    by_cases hq : q ∈ held
    · refine .post (hheap.freeProvider_wp hsane hq) ?_
      rintro _ _ ⟨h, rfl, hbase, hsz, hheap'⟩
      refine ⟨h, live, _, _, rfl, hsane.setHeap hsz, hheap', fun r hr => ?_, fun r hr => ?_⟩
      · obtain ⟨hr, hrq⟩ := mem_filter.mp hr
        exact (mem_cons.mp (hsub r hr)).resolve_left (by simpa using hrq)
      · have hkeep {as : List Nat} (h : r ∈ as) : r ∈ as.filter (· ≠ q) :=
          mem_filter.mpr ⟨h, by simpa using hne hr⟩
        exact (hrec r (mem_cons_of_mem q hr)).imp hkeep (Or.imp_right hkeep)
    · have hown := hplace.resolve_right hq
      refine .post (hheap.freeProvider_own_wp hsane hown) ?_
      rintro _ _ ⟨hheap', rfl⟩
      refine ⟨_, _, _, held, rfl, hsane.filter q, hheap', fun r hr => ?_, fun r hr => ?_⟩
      · exact (mem_cons.mp (hsub r hr)).resolve_left fun h => hq (h ▸ hr)
      · have hregion : providerRegion q ≠ providerRegion r := fun h =>
          hne hr (congrArg Region.addr h).symm
        exact (hrec r (mem_cons_of_mem q hr)).internalFree hsane (.inr hheap) hown hregion
          (.inr (hsane.providerRegion_ne_heapRegion q))
  · rintro _ _ ⟨heap, live, records, held, rfl, hsane, hheap, hsub, -⟩
    have hnil : held = [] := eq_nil_iff_forall_not_mem.mpr fun q hq => by cases hsub q hq
    exact ⟨heap, live, records, rfl, hsane, hnil ▸ hheap⟩

theorem extraShutdown_wp (hl : l.Idle ∨ l.Ready) (noise : Nat → UInt8) :
    wp (extraShutdown noise) (fun _ l' => l'.Idle) (fun _ _ => False) l := by
  simp only [extraShutdown, wp_bind, wp_get, wp_when, wp_modify]
  obtain hl | hl := hl
  · refine ⟨fun h => absurd h.1 (by simp [hl.init]), fun _ => ?_⟩
    exact { hl with sane := { hl.sane with }, init := rfl }
  · obtain ⟨held, hholds, hheld⟩ := hl.holds
    refine ⟨fun _ => ?_, fun h => absurd ⟨hl.init, by simp [hl.shutdown]⟩ h⟩
    refine .post (freeMask_wp hholds.sane (.inr hholds.heap) hholds.mask) ?_
    rintro _ _ ⟨m, live, records, rfl, hsane, hheap, hrec⟩
    have hholds' : Holds { l with
        heap := { l.heap with mem := m }, live := live, shieldMask := none,
        records := records } held :=
      ⟨hsane, hheap hholds.heap, fun q hq => hrec q (hholds.records q hq), (by simp)⟩
    refine .post (freeProviders_wp hholds' hheld) ?_
    rintro _ _ ⟨heap, live', records', rfl, hsane', hheap'⟩
    have hsane'' : Sane { l with
        heap := heap, live := live', shieldMask := none, providers := [], records := records' } :=
      { hsane' with nodup := nodup_nil }
    refine .post (freeHeap_wp hsane'' (.inr hheap')) ?_
    rintro _ _ ⟨m', live'', records'', rfl, hsane₃, -⟩
    exact ⟨{ hsane₃ with }, rfl, rfl, rfl, rfl, fun _ => rfl, (by simp)⟩

section

variable {ptr : Nat} {rc : ResultCode} {held : List Nat}

def Process.withRecord (l : Process σ) (ptr : Nat) : Process σ :=
  { l with live := providerRegion ptr :: l.live, records := ptr :: l.records }

theorem registerProvider_wp (hpos : ptr ≠ 0) (hnew : ptr ∉ l.providers)
    (hrec : ∀ q ∈ l.providers, q ∈ l.records) :
    wp (registerProvider ptr rc)
      (fun _ l' => l' = { l.withRecord ptr with providers := ptr :: l.providers })
      (fun _ l' => l' = l.withRecord ptr) (l.withRecord ptr) := by
  have hhead : ¬ (ptr = 0 ∨ (l.withRecord ptr).providers.head? = some ptr) := by
    rintro (hzero | hhead)
    · exact hpos hzero
    · exact hnew (mem_of_mem_head? hhead)
  have hall : ∀ q ∈ (l.withRecord ptr).providers, q ∈ (l.withRecord ptr).records :=
    fun q hq => mem_cons_of_mem ptr (hrec q hq)
  have hnew' : ptr ∉ (l.withRecord ptr).providers := hnew
  simp only [registerProvider, wp_bind, wp_get, if_neg hhead, if_neg (not_not.mpr hall),
    if_neg hnew',
    wp_when, wp_fail, wp_modify, implies_true, true_and]
  exact fun _ => rfl

/-- A provider that is registered again comes to the front. -/
theorem registerProvider_again_wp (hmem : ptr ∈ l.providers)
    (hrec : ∀ q ∈ l.providers, q ∈ l.records) :
    wp (registerProvider ptr rc)
      (fun _ l' => ∃ qs, qs.Perm l.providers ∧ l' = { l with providers := qs })
      (fun _ _ => False) l := by
  simp only [registerProvider, wp_bind, wp_get, if_neg (not_not.mpr hrec), if_pos hmem]
  exact .ite ⟨fun _ => ⟨_, .rfl, rfl⟩, fun _ => ⟨_, (perm_cons_erase hmem).symm, rfl⟩⟩

theorem register_again_wp (hmem : ptr ∈ l.providers) (hl : l.Idle ∨ l.Ready) :
    wp (registerProvider ptr rc) (fun _ l' => l'.Idle ∨ l'.Ready) (fun _ l' => l'.Idle ∨ l'.Ready)
      l := by
  obtain hl | hl := hl
  · refine .mono (registerProvider_again_wp hmem fun q hq => (hl.records q hq).1) ?_ nofun
    rintro _ _ ⟨qs, hperm, rfl⟩
    exact .inl { hl with
      sane := { hl.sane with nodup := hperm.nodup_iff.mpr hl.sane.nodup }
      records := fun q hq => hl.records q (hperm.mem_iff.mp hq) }
  · obtain ⟨held, h, hheld⟩ := hl.holds
    refine .mono (registerProvider_again_wp hmem fun q hq => (h.records q hq).1) ?_ nofun
    rintro _ _ ⟨qs, hperm, rfl⟩
    refine .inr { hl with holds := ⟨held, { h with
      sane := { h.sane with nodup := hperm.nodup_iff.mpr h.sane.nodup }
      records := fun q hq => h.records q (hperm.mem_iff.mp hq) }, fun q hq => ?_⟩ }
    exact hperm.mem_iff.mpr (hheld q hq)

theorem Process.Record.withRecord (h : l.Record held q) : (l.withRecord ptr).Record held q :=
  h.imp (mem_cons_of_mem _) (Or.imp_left (mem_cons_of_mem _))

theorem Process.Record.ne_of_fresh (h : l.Record held q)
    (hheap : held = [] ∨ l.HasHeap held) (hfresh : Region.Fresh l.live (providerRegion ptr)) :
    q ≠ ptr := by
  have hpos : 0 < providerSz := by decide
  rintro rfl
  obtain hmem | hheld := h.2
  · have hd : (providerRegion q).Disjoint (providerRegion q) := hfresh.apart _ hmem
    unfold Region.Disjoint providerRegion at hd
    dsimp only at hd
    omega
  · obtain rfl | hheap := hheap
    · cases hheld
    · have hd := hfresh.apart _ hheap.heapRegion_mem
      have hb := hheap.bounds hheld
      unfold Region.Disjoint providerRegion at hd
      dsimp only at hd
      omega

variable (hfresh : Region.Fresh l.live (providerRegion ptr))
include hfresh

theorem Process.Sane.withRecord (hl : l.Sane) : (l.withRecord ptr).Sane :=
  have hsane := hl.cons hfresh hl.step hl.small
  { hsane with }

theorem Process.Idle.withRecord (hl : l.Idle) : (l.withRecord ptr).Idle :=
  { hl with
    sane := hl.sane.withRecord hfresh
    records := fun q hq => (hl.records q hq).withRecord }

theorem Process.Holds.withRecord (hl : l.Holds held) : (l.withRecord ptr).Holds held := by
  obtain ⟨bs, hrep, hused, hroom, hmem⟩ := hl.heap
  exact ⟨hl.sane.withRecord hfresh, ⟨bs, hrep, hused, hroom, mem_cons_of_mem _ hmem⟩,
    fun q hq => (hl.records q hq).withRecord, fun q hq => mem_cons_of_mem _ (hl.mask q hq)⟩

omit hfresh in
theorem Process.record_cons (hrec : ∀ q ∈ l.providers, l.Record held q) :
    ∀ q ∈ ptr :: l.providers, (l.withRecord ptr).Record held q := by
  intro q hq
  obtain rfl | hq := mem_cons.mp hq
  · exact ⟨mem_cons_self, .inl mem_cons_self⟩
  · exact (hrec q hq).withRecord

theorem register_wp (hl : l.Idle ∨ l.Ready) :
    wp (registerProvider ptr rc) (fun _ l' => l'.Idle ∨ l'.Ready) (fun _ l' => l'.Idle ∨ l'.Ready)
      (l.withRecord ptr) := by
  have hpos : ptr ≠ 0 := Nat.ne_of_gt hfresh.pos
  obtain hl | hl := hl
  · have hnew : ptr ∉ l.providers := fun h => (hl.records ptr h).ne_of_fresh (.inl rfl) hfresh rfl
    refine .mono (registerProvider_wp hpos hnew fun q hq => (hl.records q hq).1) ?_ ?_
    · rintro _ _ rfl
      have h := hl.withRecord hfresh
      exact .inl { h with
        sane := { h.sane with nodup := nodup_cons.mpr ⟨hnew, hl.sane.nodup⟩ }
        records := record_cons hl.records }
    · rintro _ _ rfl
      exact .inl (hl.withRecord hfresh)
  · obtain ⟨held, hholds, hheld⟩ := hl.holds
    have hnew : ptr ∉ l.providers := fun h =>
      (hholds.records ptr h).ne_of_fresh (.inr hholds.heap) hfresh rfl
    have h := hholds.withRecord hfresh
    refine .mono (registerProvider_wp hpos hnew fun q hq => (hholds.records q hq).1) ?_ ?_
    · rintro _ _ rfl
      have hnodup := nodup_cons.mpr ⟨hnew, hholds.sane.nodup⟩
      exact .inr ⟨hl.init, hl.shutdown, held, ⟨{ h.sane with nodup := hnodup }, h.heap,
        record_cons hholds.records,
        h.mask⟩, fun q hq => mem_cons_of_mem ptr (hheld q hq)⟩
    · rintro _ _ rfl
      exact .inr ⟨hl.init, hl.shutdown, held, h, hheld⟩

end

inductive ProcessOp (ω : Type) where
  | init (ans : InitAnswers ω)
  | shutdown (noise : Nat → UInt8)
  | register (ptr : Nat) (rc : ResultCode)

def Process.step (cb : Callbacks σ ω) (l : Process σ) : ProcessOp ω → Option (Process σ)
  | .init ans => (extraInit cb ans l).map Prod.snd
  | .shutdown noise => (extraShutdown noise l).map Prod.snd
  | .register ptr rc =>
    (registerProvider ptr rc (if ptr ∈ l.providers then l else l.withRecord ptr)).map Prod.snd

/-- The ordinary allocator hands out memory that is not in use, and failures are mild. -/
def Process.Legal (cb : Callbacks σ ω) (l : Process σ) : ProcessOp ω → Prop
  | .init ans => l.init = true ∨ ans.Fresh l ∧ ans.Mild cb l
  | .shutdown _ => True
  | .register ptr _ => ptr ∈ l.providers ∨ Region.Fresh l.live (providerRegion ptr)

theorem Process.start_idle (m : Mem) (s : σ) : (start m s).Idle :=
  have hstep : heapSizeStep ≤ heapSizeDefault := by decide
  have hsmall : heapSizeDefault < 2 ^ 32 := by decide
  ⟨⟨hstep, hsmall, nofun, .nil, .nil⟩, rfl, rfl, rfl, rfl, fun _ => rfl, nofun⟩

theorem exists_map_snd {α : Type} {x : ProcessM σ α} {P : Process σ → Prop}
    (h : wp x (fun _ => P) (fun _ => P) l) : ∃ l', (x l).map Prod.snd = some l' ∧ P l' := by
  obtain ⟨a, l', hrun, hP⟩ | ⟨e, l', hrun, hP⟩ := exists_of_wp h
  · exact ⟨l', by rw [hrun]; rfl, hP⟩
  · exact ⟨l', by rw [hrun]; rfl, hP⟩

/-- Every call is defined, and the process is idle or ready after it. -/
theorem Process.step_sound {op : ProcessOp ω} (hl : l.Idle ∨ l.Ready) (hop : l.Legal cb op) :
    ∃ l', l.step cb op = some l' ∧ (l'.Idle ∨ l'.Ready) := by
  cases op with
  | init ans =>
    obtain hl | hl := hl
    · obtain hinit | ⟨hfresh, hmild⟩ := hop
      · exact absurd hinit (by simp [hl.init])
      · refine exists_map_snd (.mono (extraInit_wp hl hfresh hmild) ?_ ?_)
        · exact fun _ _ h => .inr h
        · exact fun _ _ h => .inl h.1
    · exact ⟨l, by rw [step, extraInit, if_pos hl.init]; rfl, .inr hl⟩
  | shutdown noise =>
    refine exists_map_snd (.mono (extraShutdown_wp hl noise) ?_ ?_)
    · exact fun _ _ h => .inl h
    · exact fun _ _ h => h.elim
  | register ptr rc =>
    refine exists_map_snd ?_
    split
    · exact register_again_wp ‹_› hl
    · exact register_wp (hop.resolve_left ‹_›) hl

/-- After any calls, a start with mild failures succeeds or leaves nothing behind: what is
registered is allocated, the heap, the mask and the mutexes are gone, and the next start, if nothing
fails in it, succeeds. -/
theorem extraInit_recovers (cb : Callbacks σ ω) (m : Mem) (s : σ) (ops : List (ProcessOp ω))
    (hlegal : Run.Along (step cb) (Legal cb) (.start m s) ops) :
    ∃ l, Run.exec (step cb) (.start m s) ops = some l ∧
      ∀ ans : InitAnswers ω, l.init = true ∨ ans.Fresh l ∧ ans.Mild cb l →
        ∃ r l', extraInit cb ans l = some (r, l') ∧ ∀ rc, r = .error rc →
          (∀ q, l'.providers.head? = some q → l'.Allocated q providerSz) ∧
          l'.heap.base = 0 ∧ l'.shieldMask = none ∧ (∀ i, l'.mutexes i = none) ∧
          heapSizeStep ≤ l'.heap.sz ∧
          ∀ ans' : InitAnswers ω, ans'.Fresh l' → ans'.AllOk cb l' →
            ∃ l'', extraInit cb ans' l' = some (.ok (), l'') := by
  let Inv (l : Process σ) : Prop := l.Idle ∨ l.Ready
  have hstart : Inv (.start m s) := .inl (start_idle m s)
  obtain ⟨l, hrun, hl⟩ := Run.exec_progress
    (fun l op (hl : Inv l) (hop : l.Legal cb op) => step_sound hl hop) hstart hlegal
  refine ⟨l, hrun, fun ans hans => ?_⟩
  obtain hidle | hready := hl
  · obtain hinit | ⟨hfresh, hmild⟩ := hans
    · exact absurd hinit (by simp [hidle.init])
    obtain ⟨_, l', hcall, -⟩ | ⟨rc, l', hcall, hidle', -⟩ :=
      exists_of_wp (extraInit_wp hidle hfresh hmild)
    · exact ⟨_, l', hcall, nofun⟩
    refine ⟨_, l', hcall, fun _ _ => ⟨fun q hq => ?_, hidle'.base, hidle'.mask, hidle'.mutexes,
      hidle'.sane.step, fun ans' hfresh' hok => ?_⟩⟩
    · exact (hidle'.records q (mem_of_mem_head? hq)).allocated
    · obtain ⟨⟨⟩, l'', hcall', -⟩ | ⟨_, _, -, -, hnot⟩ :=
        exists_of_wp (extraInit_wp hidle' hfresh' (hok.mild hidle'.sane))
      · exact ⟨l'', hcall'⟩
      · exact absurd hok hnot
  · exact ⟨.ok (), l, by rw [extraInit, if_pos hready.init], nofun⟩

def Callbacks.toy : Callbacks Unit Bool where
  ctxInit _ ok _ := ((if ok then .ok else .error, none), ())
  ctxFree _ _ := ()
  random ok _ := (if ok then .ok else .error, ())

/-- A world with a heap or without, in which setting up a provider and initialising a context may
fail. -/
def InitAnswers.toy (heap : Bool) (setup : ResultCode) (ctxInit : Bool) : InitAnswers Bool where
  mutexAlloc i := some (i + 1)
  heapAlloc _ := if heap then some 65536 else none
  providerAlloc := none
  setup := setup
  providerInit := .ok
  ctxInit := ctxInit
  seed := true
  maskAlloc := some 1024
  mask := true
  noise _ := 0

def Process.toy : Process Unit := .start (fun _ => 0) ()

theorem InitAnswers.toy_fresh (hlive : l.live = [])
    (hsz : l.heap.sz ≤ heapSizeDefault) (heap : Bool) (setup : ResultCode) (ctxInit : Bool) :
    (InitAnswers.toy heap setup ctxInit).Fresh l := by
  have hdefault : heapSizeDefault = 49152 := rfl
  have hmask : maskRegion 1024 = ⟨1024, 32⟩ := rfl
  constructor
  · intro size base hstep hsize hans
    unfold heapSizeStep at hstep
    cases heap with
    | false => cases hans
    | true =>
      cases hans
      have hpos : 0 < 65536 := by decide
      refine ⟨hpos, by dsimp only; omega, by dsimp only; omega, ?_⟩
      rw [hlive]
      nofun
  · intro ptr hptr
    cases hptr
    refine ⟨⟨by decide, by decide, by decide, by rw [hlive]; nofun⟩, fun size base hans => ?_⟩
    cases heap with
    | false => cases hans
    | true =>
      cases hans
      rw [hmask]
      have hle : 1024 + 32 ≤ 65536 := by decide
      exact .inl hle

theorem InitAnswers.toy_allOk (l : Process Unit) : (InitAnswers.toy true .ok true).AllOk .toy l :=
  ⟨fun _ _ => rfl, rfl, rfl, rfl, rfl, rfl, rfl, rfl⟩

def failure : Except ResultCode Unit → Option ResultCode
  | .error rc => some rc
  | .ok () => none

theorem failure_eq_some : failure r = some rc ↔ r = .error rc := by
  cases r <;> simp [failure]

/-- A provider that cannot be set up. -/
theorem extraInit_recovers_small :
    ∃ l, Run.exec (step .toy) toy [.init (.toy true .error true)] = some l ∧
      ∃ r l', extraInit .toy (.toy true .error true) l = some (r, l') := by
  have hmild (l : Process Unit) (hsz : heapSizeStep ≤ l.heap.sz) :
      (InitAnswers.toy true .error true).Mild .toy l :=
    .inr ⟨⟨0, by omega, rfl⟩, .inr (.inl (by decide))⟩
  have hlegal : Run.Along (step .toy) (Legal .toy) toy [.init (.toy true .error true)] :=
    ⟨.inr ⟨InitAnswers.toy_fresh rfl (Nat.le_refl _) _ _ _, hmild _ (by decide)⟩,
    fun _ _ => trivial⟩
  obtain ⟨l, hrun, hall⟩ := extraInit_recovers .toy (fun _ => 0) () _ hlegal
  have hview : (Run.exec (step .toy) toy [.init (.toy true .error true)]).map
      (fun l => (l.live, l.heap.sz)) = some ([], heapSizeDefault) := by decide +kernel
  have hview' := (congrArg (Option.map fun l => (l.live, l.heap.sz)) hrun).symm.trans hview
  obtain ⟨hlive, hsz⟩ := Prod.mk.inj (Option.some.inj hview')
  obtain ⟨r, l', hcall, -⟩ := hall (.toy true .error true)
    (.inr ⟨InitAnswers.toy_fresh hlive (Nat.le_of_eq hsz) _ _ _, hmild l (hsz ▸ by decide)⟩)
  exact ⟨l, hrun, r, l', hcall⟩

/-- A provider that is registered but cannot initialise a context has its record freed and stays
registered; the next start is undefined. If no heap can be allocated, none is asked for the next
time. -/
theorem not_extraInit_recovers :
    (∃ l', extraInit .toy (.toy true .ok false) toy = some (.error .error, l') ∧
      (∃ q, l'.providers.head? = some q ∧ ¬ l'.Allocated q providerSz) ∧
      (InitAnswers.toy true .ok true).Fresh l' ∧ (InitAnswers.toy true .ok true).AllOk .toy l' ∧
      extraInit .toy (.toy true .ok true) l' = none) ∧
    ∃ l', extraInit .toy (.toy false .ok true) toy = some (.error .nomem, l') ∧
      l'.heap.sz < heapSizeStep ∧
      (InitAnswers.toy true .ok true).Fresh l' ∧ (InitAnswers.toy true .ok true).AllOk .toy l' ∧
      ∃ l'', extraInit .toy (.toy true .ok true) l' = some (.error .nomem, l'') := by
  constructor
  · have hview : (extraInit .toy (.toy true .ok false) toy).map (fun r =>
        (failure r.1, r.2.providers, r.2.live, r.2.heap.sz,
          (extraInit .toy (.toy true .ok true) r.2).isNone)) =
        some (some .error, [65552], [], heapSizeDefault, true) := by decide +kernel
    obtain ⟨⟨r, l'⟩, hrun, heq⟩ := Option.map_eq_some_iff.mp hview
    simp only [Prod.mk.injEq] at heq
    obtain ⟨hr, hprov, hlive, hsz, hnext⟩ := heq
    rw [failure_eq_some.mp hr] at hrun
    refine ⟨l', hrun, ⟨65552, by rw [hprov]; rfl, ?_⟩, ?_, InitAnswers.toy_allOk l',
      Option.isNone_iff_eq_none.mp hnext⟩
    · rintro ⟨region, hmem, -⟩
      rw [hlive] at hmem
      cases hmem
    · exact InitAnswers.toy_fresh hlive (Nat.le_of_eq hsz) _ _ _
  · have hview : (extraInit .toy (.toy false .ok true) toy).map (fun r =>
        (failure r.1, r.2.live, r.2.heap.sz,
          (extraInit .toy (.toy true .ok true) r.2).map fun r => failure r.1)) =
        some (some .nomem, [], 0, some (some .nomem)) := by decide +kernel
    obtain ⟨⟨r, l'⟩, hrun, heq⟩ := Option.map_eq_some_iff.mp hview
    simp only [Prod.mk.injEq] at heq
    obtain ⟨hr, hlive, hsz, hnext⟩ := heq
    rw [failure_eq_some.mp hr] at hrun
    obtain ⟨⟨r', l''⟩, hrun', hr'⟩ := Option.map_eq_some_iff.mp hnext
    cases failure_eq_some.mp hr'
    exact ⟨l', hrun, hsz ▸ by decide, InitAnswers.toy_fresh hlive (hsz ▸ by decide) _ _ _,
      InitAnswers.toy_allOk l', l'', hrun'⟩

end SqlCipher
