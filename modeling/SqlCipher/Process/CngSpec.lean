import SqlCipher.Process.Cng

/-!
# The number of CNG contexts

As long as no codec context fails to activate the provider, the provider's count is the number of
contexts that are active, and while there is one the library is loaded (`cng_initCount`). A codec
context that could not activate the provider deactivates it all the same, and the count wraps around
(`not_cng_initCount`).
-/

namespace SqlCipher

open Proc List Option

variable {dynamic : Bool} {c : Cng} {n k : Nat}

/-! ## The provider -/

structure Cng.Inv (dynamic : Bool) (c : Cng) (n : Nat) : Prop where
  count : c.initCount = c.active.length
  small : c.active.length < 2 ^ 32
  nodup : c.active.Nodup
  lt : ∀ a ∈ c.active, a < n
  loaded : dynamic = true → 0 < c.initCount →
    c.bcryptDll ≠ none ∧ ∀ i < pfnCount, c.pfn i ≠ none

def Cng.Room (c : Cng) : Prop := c.active.length + 1 < 2 ^ 32

theorem Cng.Inv.mono (h : c.Inv dynamic n) (hnm : n ≤ m) : c.Inv dynamic m :=
  { h with lt := fun a ha => Nat.lt_of_lt_of_le (h.lt a ha) hnm }

/-- Activation either fails and changes nothing that matters, or counts one more. -/
theorem Cng.activate_cases (dynamic : Bool) (w : CngAnswer) (c : Cng) :
    (c.initCount = 0 ∧
      ∃ pfn, c.activate dynamic w = (.error, { c with bcryptDll := none, pfn := pfn })) ∨
    ∃ dll pfn, c.activate dynamic w =
      (.ok, { c with bcryptDll := dll, pfn := pfn, initCount := (c.initCount + 1) % 2 ^ 32 }) ∧
      (dynamic = true → c.initCount = 0 → dll ≠ none ∧ ∀ i < pfnCount, pfn i ≠ none) ∧
      (c.initCount ≠ 0 → dll = c.bcryptDll ∧ pfn = c.pfn) := by
  unfold activate
  split
  · rename_i hload
    split
    · exact .inl ⟨hload.2, c.pfn, rfl⟩
    · split
      · exact .inl ⟨hload.2, _, rfl⟩
      · rename_i hnone
        refine .inr ⟨_, _, rfl, fun _ _ => ⟨by simp, fun i hi hi' => hnone ⟨i, hi, hi'⟩⟩, ?_⟩
        exact fun h => absurd hload.2 h
  · rename_i hload
    exact .inr ⟨_, _, rfl, fun hd h0 => absurd ⟨hd, h0⟩ hload, fun _ => ⟨rfl, rfl⟩⟩

theorem Cng.Inv.ctxInit (h : c.Inv dynamic n) (hroom : c.Room) (hk : k < n) (hnew : k ∉ c.active)
    (hr : (Cng.callbacks dynamic).ctxInit k w c = r) : r.2.Inv dynamic n ∧
      (r.1.1 = .ok → r.2.active = k :: c.active) ∧ (r.1.1 ≠ .ok → r.2.active = c.active) := by
  unfold Room at hroom
  subst hr
  obtain ⟨hzero, pfn, heq⟩ | ⟨dll, pfn, heq, hload, hkeep⟩ := c.activate_cases dynamic w
  · simp only [callbacks, heq]
    refine ⟨{ h with loaded := fun _ hpos => ?_ }, nofun, fun _ => rfl⟩
    exact absurd hzero (Nat.ne_of_gt hpos)
  · simp only [callbacks, heq, if_true]
    have hcount := h.count
    refine ⟨⟨?_, hroom, nodup_cons.mpr ⟨hnew, h.nodup⟩, ?_, fun hd _ => ?_⟩, fun _ => trivial,
      fun hne => absurd rfl hne⟩
    · rw [length_cons, hcount]
      exact Nat.mod_eq_of_lt hroom
    · exact forall_mem_cons.mpr ⟨hk, h.lt⟩
    · by_cases hzero : c.initCount = 0
      · exact hload hd hzero
      · obtain ⟨rfl, rfl⟩ := hkeep hzero
        exact h.loaded hd (Nat.pos_of_ne_zero hzero)

theorem Cng.Inv.ctxFree (h : c.Inv dynamic n) (hk : k ∈ c.active) :
    ((Cng.callbacks dynamic).ctxFree k c).Inv dynamic n := by
  have hlen := length_erase_of_mem hk
  have hpos := length_pos_of_mem hk
  have hsmall := h.small
  have hcount : (c.initCount + (2 ^ 32 - 1)) % 2 ^ 32 = (c.active.erase k).length := by
    rw [h.count, hlen]
    omega
  have hlt (a) (ha : a ∈ c.active.erase k) : a < n := h.lt a (mem_of_mem_erase ha)
  simp only [callbacks, deactivate]
  split
  · rename_i hzero
    exact ⟨hcount, by dsimp only; omega, h.nodup.erase k, hlt, fun _ hp =>
      absurd hzero.2.1 (Nat.ne_of_gt hp)⟩
  · refine ⟨hcount, by dsimp only; omega, h.nodup.erase k, hlt, fun hd _ => ?_⟩
    exact h.loaded hd (by rw [h.count]; exact hpos)

/-! ## Starting up -/

variable {l : Process Cng}

def Untouched {α : Type} (x : ProcessM Cng α) : Prop :=
  ∀ (l : Process Cng) (P : Cng → Nat → Prop), P l.state l.serial →
    wlp x (fun _ l' => P l'.state l'.serial) (fun _ l' => P l'.state l'.serial) l

theorem untouched_internalFree (ptr size : Nat) (noise : Nat → UInt8) :
    Untouched (internalFree ptr size noise) := by
  intro l P h
  simp only [internalFree, wp_bind, wp_get, wp_ite, wp_modify, wp_undefined]
  exact ⟨fun _ => h, fun _ => trivial⟩

theorem untouched_freeProvider (ptr : Nat) (noise : Nat → UInt8) :
    Untouched (freeProvider ptr noise) := by
  intro l P h
  simp only [freeProvider, wp_bind, wp_get]
  split
  · trivial
  · exact untouched_internalFree ptr providerSz noise l P h
  · split
    · trivial
    · exact h

theorem untouched_freePending (noise : Nat → UInt8) (provider : Option Nat) :
    Untouched (freePending noise provider) := by
  cases provider with
  | none => exact fun l P h => h
  | some ptr => exact untouched_freeProvider ptr noise

theorem untouched_freeHeap (noise : Nat → UInt8) : Untouched (freeHeap noise) := by
  intro l P h
  simp only [freeHeap, wp_bind, wp_get, wp_when, wp_modify]
  exact ⟨fun _ => untouched_internalFree _ _ _ l P h, fun _ => h⟩

theorem untouched_freeMask (noise : Nat → UInt8) : Untouched (freeMask noise) := by
  intro l P h
  simp only [freeMask, wp_bind, wp_get]
  split
  · exact h
  · simp only [wp_bind, wp_modify]
    exact untouched_internalFree _ _ _ l P h

theorem untouched_allocMutex (ans : InitAnswers CngAnswer) (i : Nat) :
    Untouched (allocMutex ans i) := by
  intro l P h
  simp only [allocMutex, wp_bind, wp_get, wp_ite]
  refine ⟨fun _ => ?_, fun _ => h⟩
  cases ans.mutexAlloc i with
  | none => exact h
  | some mutex => exact h

theorem untouched_allocHeap (ans : InitAnswers CngAnswer) : Untouched (allocHeap ans) := by
  intro l P h
  simp only [allocHeap, wp_bind, wp_get]
  split
  · trivial
  · exact h
  · simp only [wp_bind, wp_modify, allocate, wp_pure]
    exact h

theorem untouched_registerProvider (ptr : Nat) (rc : ResultCode) :
    Untouched (registerProvider ptr rc) := by
  intro l P h
  simp only [registerProvider, wp_bind, wp_get, wp_ite, wp_pure, wp_undefined, wp_modify,
    wp_when, wp_fail]
  exact ⟨fun _ => h, fun _ => ⟨fun _ => trivial, fun _ => ⟨fun _ => h, fun _ => ⟨fun _ => h,
    fun _ => h⟩⟩⟩⟩

theorem untouched_mallocProvider (fallback : Option Nat) : Untouched (mallocProvider fallback) := by
  intro l P h
  unfold wlp wpOr mallocProvider
  cases sqlcipherMalloc l.heap providerSz fallback with
  | none => trivial
  | some r => exact h

theorem wlp_callProvider {β : Type} {f : Cng → β × Cng} {Q : β → Process Cng → Prop}
    {E : ResultCode → Process Cng → Prop}
    (h : l.providers ≠ [] → Q (f l.state).1 { l with state := (f l.state).2 }) :
    wlp (callProvider f) Q E l := by
  simp only [callProvider, wp_bind, wp_get]
  split
  · trivial
  · rename_i q qs hq
    simp only [wp_ite, wp_bind, wp_modify, wp_pure, wp_undefined, implies_true, and_true]
    exact fun _ => h (by simp [hq])

/-- What starting up does to the provider: contexts that were made before stay as they are. -/
structure Cng.Grown (dynamic : Bool) (c : Cng) (n : Nat) (c' : Cng) (n' : Nat) : Prop where
  inv : c'.Inv dynamic n'
  le : n ≤ n'
  active : ∀ a < n, a ∈ c'.active ↔ a ∈ c.active

theorem Cng.Inv.grown (h : c.Inv dynamic n) :
    c.Grown dynamic n c n := ⟨h, Nat.le_refl n, fun _ _ => Iff.rfl⟩

theorem Cng.Inv.grown_succ (h : c'.Inv dynamic (n + 1))
    (hactive : c'.active = n :: c.active ∨ c'.active = c.active) :
    c.Grown dynamic n c' (n + 1) := by
  refine ⟨h, Nat.le_succ n, fun a ha => ?_⟩
  obtain hactive | hactive := hactive
  · rw [hactive, mem_cons, or_iff_right (Nat.ne_of_lt ha)]
  · rw [hactive]

section

variable {ans : InitAnswers CngAnswer} {f : InitFrame Cng} {P : Cng → Nat → Prop}

/-- What is known of the provider during the call, which never stores a context. -/
def InitFrame.Sees (P : Cng → Nat → Prop) (f : InitFrame Cng) : Prop :=
  P f.process.state f.process.serial ∧ f.providerCtx = none

def Shows {α : Type} (P : Cng → Nat → Prop) (x : InitM Cng α) (f : InitFrame Cng) : Prop :=
  wlp x (fun _ => InitFrame.Sees P) (fun _ => InitFrame.Sees P) f

/-- A part that leaves the provider alone, within the call. -/
theorem Untouched.onProcess {α : Type} {x : ProcessM Cng α} (hx : Untouched x) (h : f.Sees P) :
    Shows P (onProcess x) f :=
  wp_onPart.mpr (.mono (hx f.process P h.1) (fun _ _ h' => ⟨h', h.2⟩) fun _ _ h' => ⟨h', h.2⟩)

theorem initProvider_cng (ans : InitAnswers CngAnswer) (h : f.Sees P) :
    Shows P (initProvider ans) f := by
  simp only [Shows, initProvider, wp_bind]
  refine .post ((untouched_mallocProvider _).onProcess h) ?_
  rintro (_ | ptr) f' h'
  · exact h'
  · simp only [wp_bind, wp_modify, requireOk, wp_when, wp_fail]
    refine ⟨fun _ => h', fun _ => ?_⟩
    exact .mono ((untouched_registerProvider _ _).onProcess h') (fun _ _ => id) fun _ _ => id

/-- The mask is filled by the provider, whose state does not change. -/
theorem initMask_cng (h : f.Sees P) : Shows P (initMask (Cng.callbacks dynamic) ans) f := by
  simp only [Shows, initMask, onProcess, wp_bind, wp_onPart, allocate, wp_modify, wp_pure]
  cases ans.maskAlloc with
  | none => exact h
  | some ptr =>
    simp only [wp_bind, wp_modify, wp_onPart, requireOk, wp_when, wp_fail]
    exact wlp_callProvider fun _ => ⟨fun _ => h, fun _ => h⟩

/-- The context that is made for the random data is freed again, or it stays when something fails.
-/
theorem initSeed_cng (ans : InitAnswers CngAnswer) (hinv : c.Inv dynamic n) (hroom : c.Room)
    (hf : f.Sees fun c' n' => c' = c ∧ n' = n) :
    Shows (c.Grown dynamic n) (initSeed (Cng.callbacks dynamic) ans) f := by
  obtain ⟨⟨rfl, rfl⟩, -⟩ := hf
  have hnew : f.process.serial ∉ f.process.state.active := fun hmem =>
    Nat.lt_irrefl _ (hinv.lt _ hmem)
  generalize hr : (Cng.callbacks dynamic).ctxInit f.process.serial ans.ctxInit f.process.state = r
  obtain ⟨hinv', hok, hfail⟩ :=
    (hinv.mono (Nat.le_succ _)).ctxInit hroom (Nat.lt_succ_self _) hnew hr
  have hnone : r.1.2 = none := by rw [← hr]; rfl
  have hgrown := hinv'.grown_succ ((em _).imp hok hfail)
  simp only [Shows, initSeed, onProcess, wp_bind, wp_get, wp_modify, wp_onPart, requireOk,
    wp_when,
    wp_fail]
  refine wlp_callProvider fun _ => ?_
  rw [hr]
  refine ⟨fun _ => ⟨hgrown, hnone⟩, fun hrc => ?_⟩
  refine wlp_callProvider fun _ => ⟨fun _ => ⟨hgrown, hnone⟩, fun _ => ?_⟩
  have hactive := hok (not_not.mp hrc)
  have hfree : f.process.state.Grown dynamic f.process.serial
      ((Cng.callbacks dynamic).ctxFree f.process.serial r.2) (f.process.serial + 1) :=
    (hinv'.ctxFree (by rw [hactive]; exact mem_cons_self)).grown_succ
      (.inr (by simp only [Cng.callbacks, hactive, erase_cons_head]))
  refine ⟨fun _ => ?_, fun _ => wlp_callProvider fun _ => ⟨hfree, rfl⟩⟩
  refine .mono (initMask_cng (P := fun c n => c = r.2 ∧ n = f.process.serial + 1)
    ⟨⟨rfl, rfl⟩, hnone⟩) ?_ ?_
  · rintro _ f' ⟨⟨hc, hn⟩, -⟩
    refine wlp_callProvider fun _ => ⟨?_, rfl⟩
    rw [hc, hn]
    exact hfree
  · rintro _ f' ⟨⟨hc, hn⟩, hctx⟩
    refine ⟨?_, hctx⟩
    rw [hc, hn]
    exact hgrown

theorem initSteps_cng (h : l.state.Inv dynamic l.serial) (hroom : l.state.Room) :
    Shows (l.state.Grown dynamic l.serial) (initSteps (Cng.callbacks dynamic) ans)
      ⟨l, none, none⟩ := by
  let Same (c : Cng) (n : Nat) : Prop := c = l.state ∧ n = l.serial
  have hend {f : InitFrame Cng} (hf : f.Sees Same) : f.Sees (l.state.Grown dynamic l.serial) := by
    obtain ⟨⟨hc, hn⟩, hctx⟩ := hf
    refine ⟨?_, hctx⟩
    rw [hc, hn]
    exact h.grown
  have hseed {f : InitFrame Cng} (hf : f.Sees Same) := initSeed_cng ans h hroom hf
  have hmutexes : Untouched (forEach (allocMutex ans) (range mutexCount)) := fun l P hP =>
    .forEach (fun i l => untouched_allocMutex ans i l P) hP
  simp only [Shows, initSteps, wp_bind, wp_get, wp_when, wp_fail]
  refine .mono (hmutexes.onProcess (P := Same) ⟨⟨rfl, rfl⟩, rfl⟩) ?_ fun _ _ => hend
  intro _ f₁ h₁
  have hprovider {f : InitFrame Cng} (hf : f.Sees Same) :=
    wpOr.mono (initProvider_cng ans hf) (fun _ _ => hseed) fun _ _ => hend
  refine ⟨fun _ => .mono ((untouched_allocHeap ans).onProcess h₁) ?_ fun _ _ => hend, fun _ => ?_⟩
  · exact fun _ f₂ h₂ => ⟨fun _ => hend h₂, fun _ => ⟨fun _ => hprovider h₂, fun _ => hseed h₂⟩⟩
  · exact ⟨fun _ => hend h₁, fun _ => ⟨fun _ => hprovider h₁, fun _ => hseed h₁⟩⟩

theorem initTeardown_cng (h : f.Sees P) : Shows P (initTeardown (Cng.callbacks dynamic) ans) f := by
  simp only [Shows, initTeardown, wp_bind, wp_get, wp_modify, wp_when]
  refine .post ((untouched_freePending _ _).onProcess h) ?_
  intro _ f₁ h₁
  refine .post ((untouched_freeHeap _).onProcess h₁) ?_
  intro _ f₂ h₂
  refine .post ((untouched_freeMask _).onProcess h₂) ?_
  exact fun _ f₃ h₃ => ⟨fun hctx => absurd h.2 hctx, fun _ => h₃⟩

theorem extraInit_cng (h : l.state.Inv dynamic l.serial) (hroom : l.state.Room)
    (hrun : extraInit (Cng.callbacks dynamic) ans l = some (r, l')) :
    l.state.Grown dynamic l.serial l'.state l'.serial := by
  unfold extraInit at hrun
  split at hrun
  · cases hrun
    exact h.grown
  · obtain ⟨⟨r₁, f₁⟩, hsteps, hrun⟩ := bind_eq_some_iff.mp hrun
    have h₁ := of_wp (initSteps_cng h hroom) hsteps
    cases r₁ with
    | ok _ =>
      cases hrun
      exact h₁.1
    | error rc =>
      obtain ⟨⟨r₂, f₂⟩, hdown, heq⟩ := map_eq_some_iff.mp hrun
      cases heq
      exact (of_wp (initTeardown_cng h₁) hdown).1

end

/-! ## Interleavings -/

/-- A context is active from the moment it activates the provider. -/
structure CngSession.Inv (dynamic : Bool) (s : CngSession) : Prop where
  cng : s.process.state.Inv dynamic s.process.serial
  nodup : (s.tasks.map CodecTask.id).Nodup
  lt : ∀ t ∈ s.tasks, t.id < s.process.serial
  steps : ∀ t ∈ s.tasks, t.rest <:+ codecSteps
  pending : ∀ t ∈ s.tasks, .ctxInit ∈ t.rest ↔ t.provider = none
  active : ∀ t ∈ s.tasks, t.id ∈ s.process.state.active ↔ t.provider ≠ none

/-- No codec context fails to activate the provider, and an unsigned integer can count them. -/
def CngSession.Legal (dynamic : Bool) (s : CngSession) : CngOp → Prop
  | .init _ => s.process.state.Room
  | .run t _ w => t.failed = false → t.rest.head? = some .ctxInit →
    s.process.state.Room ∧
      ((Cng.callbacks dynamic).ctxInit t.id w s.process.state).1.1 = .ok
  | _ => True

namespace CngSession.Inv

variable {s : CngSession} {t : CodecTask} (hs : s.Inv dynamic)
include hs

theorem id_ne (ht : t ∈ s.tasks) (hu : u ∈ s.tasks.erase t) : u.id ≠ t.id := by
  have hperm := ((perm_cons_erase ht).map CodecTask.id).nodup_iff.mp hs.nodup
  intro heq
  exact (nodup_cons.mp hperm).1 (heq ▸ mem_map_of_mem hu)

theorem remove (ht : t ∈ s.tasks) (hcng : l.state.Inv dynamic l.serial)
    (hserial : l.serial = s.process.serial)
    (hactive : ∀ k, k ≠ t.id → (k ∈ l.state.active ↔ k ∈ s.process.state.active)) :
    CngSession.Inv dynamic ⟨l, s.tasks.erase t⟩ := by
  have hmem {u : CodecTask} (hu : u ∈ s.tasks.erase t) := mem_of_mem_erase hu
  refine ⟨hcng, hs.nodup.sublist (erase_sublist.map _), ?_, ?_, ?_, ?_⟩
  · exact fun u hu => hserial ▸ hs.lt u (hmem hu)
  · exact fun u hu => hs.steps u (hmem hu)
  · exact fun u hu => hs.pending u (hmem hu)
  · exact fun u hu => (hactive u.id (hs.id_ne ht hu)).trans (hs.active u (hmem hu))

theorem replace (ht : t ∈ s.tasks) (hid : t'.id = t.id)
    (hcng : l.state.Inv dynamic l.serial) (hserial : l.serial = s.process.serial)
    (hactive : ∀ k, k ≠ t.id → (k ∈ l.state.active ↔ k ∈ s.process.state.active))
    (hsteps : t'.rest <:+ codecSteps) (hpending : .ctxInit ∈ t'.rest ↔ t'.provider = none)
    (howned : t'.id ∈ l.state.active ↔ t'.provider ≠ none) :
    CngSession.Inv dynamic ⟨l, t' :: s.tasks.erase t⟩ := by
  have h := hs.remove ht hcng hserial hactive
  refine ⟨hcng, ?_, ?_, ?_, ?_, ?_⟩
  · refine nodup_cons.mpr ⟨fun hmem => ?_, h.nodup⟩
    obtain ⟨u, hu, heq⟩ := mem_map.mp hmem
    exact hs.id_ne ht hu (heq.trans hid)
  · exact forall_mem_cons.mpr ⟨by rw [hid, hserial]; exact hs.lt t ht, h.lt⟩
  · exact forall_mem_cons.mpr ⟨hsteps, h.steps⟩
  · exact forall_mem_cons.mpr ⟨hpending, h.pending⟩
  · exact forall_mem_cons.mpr ⟨howned, h.active⟩

/-- Freeing a context deactivates the provider once for an activation. -/
theorem free_wlp (ht : t ∈ s.tasks) : wlp (t.free (Cng.callbacks dynamic))
    (fun _ l => CngSession.Inv dynamic ⟨l, s.tasks.erase t⟩)
    (fun _ l => CngSession.Inv dynamic ⟨l, s.tasks.erase t⟩) s.process := by
  simp only [CodecTask.free, wp_bind, wp_get]
  cases hp : t.provider with
  | none => exact hs.remove ht hs.cng rfl fun _ _ => Iff.rfl
  | some q =>
    simp only [wp_ite, wp_modify, wp_undefined, implies_true, and_true]
    intro _
    have hmem : t.id ∈ s.process.state.active := (hs.active t ht).mpr (by simp [hp])
    exact hs.remove ht (hs.cng.ctxFree hmem) rfl fun k hk => mem_erase_of_ne hk

theorem run_wlp (ht : t ∈ s.tasks) {rc : ResultCode} (hlegal : s.Legal dynamic (.run t rc w)) :
    gives (t.run (Cng.callbacks dynamic) rc w)
      (fun t' l => CngSession.Inv dynamic ⟨l, t'.toList ++ s.tasks.erase t⟩)
      s.process := by
  have hsteps := hs.steps t ht
  have hpending := hs.pending t ht
  have hactive := hs.active t ht
  unfold CodecTask.run
  cases hfailed : t.failed with
  | true =>
    simp only [if_true, wp_bind, wp_pure]
    exact .imp (hs.free_wlp ht) fun _ _ h => h
  | false =>
    simp only [Bool.false_eq_true, if_false]
    cases hrest : t.rest with
    | nil =>
      exact hs.replace ht rfl hs.cng rfl (fun _ _ => Iff.rfl) hsteps hpending hactive
    | cons step rest =>
      rw [hrest] at hsteps hpending
      have hsuf : rest <:+ codecSteps := (suffix_cons step rest).trans hsteps
      by_cases hstep : step = .ctxInit
      · subst hstep
        obtain ⟨hroom, hok⟩ := hlegal hfailed (by rw [hrest]; rfl)
        have hnone : t.provider = none := hpending.mp mem_cons_self
        have hnew : t.id ∉ s.process.state.active := fun hmem => hactive.mp hmem hnone
        obtain ⟨hcng, hcons, -⟩ := hs.cng.ctxInit hroom (hs.lt t ht) hnew rfl
        have hdone : .ctxInit ∉ rest := by
          have hnd : codecSteps.Nodup := by decide
          exact (nodup_cons.mp (hnd.sublist hsteps.sublist)).1
        simp only [if_true, wp_bind, wp_get]
        refine wlp_callProvider fun hprov => ?_
        rw [if_pos hok]
        have hhead : s.process.providers.head? ≠ none := by simpa using hprov
        refine hs.replace ht rfl hcng rfl (fun k hk => ?_) hsuf (iff_of_false hdone hhead)
          (iff_of_true ?_ hhead)
        · rw [hcons hok, mem_cons, or_iff_right hk]
        · rw [hcons hok]
          exact mem_cons_self
      · have hother : .ctxInit ∈ rest ↔ t.provider = none := by
          rw [← hpending, mem_cons, or_iff_right (Ne.symm hstep)]
        simp only [if_neg hstep, wp_ite, wp_pure]
        refine ⟨fun _ => ?_, fun _ => ?_⟩
        · exact hs.replace ht rfl hs.cng rfl (fun _ _ => Iff.rfl) hsuf hother hactive
        · exact hs.replace ht rfl hs.cng rfl (fun _ _ => Iff.rfl) (hrest ▸ hsteps)
            (hrest ▸ hpending)
            hactive

theorem step (hlegal : s.Legal dynamic op) (h : s.step dynamic op = some s') : s'.Inv dynamic := by
  cases op with
  | init ans =>
    obtain ⟨⟨r, l⟩, hrun, rfl⟩ := map_eq_some_iff.mp h
    have hgrown := extraInit_cng hs.cng hlegal hrun
    refine ⟨hgrown.inv, hs.nodup, fun t ht => ?_, hs.steps, hs.pending, fun t ht => ?_⟩
    · exact Nat.lt_of_lt_of_le (hs.lt t ht) hgrown.le
    · exact (hgrown.active t.id (hs.lt t ht)).trans (hs.active t ht)
  | create =>
    unfold CngSession.step at h
    dsimp only at h
    split at h
    · cases h
      have hnew : s.process.serial ∉ s.process.state.active := fun hmem =>
        Nat.lt_irrefl _ (hs.cng.lt _ hmem)
      have hlt (t) (ht : t ∈ s.tasks) : t.id < s.process.serial + 1 :=
        Nat.lt_succ_of_lt (hs.lt t ht)
      refine ⟨hs.cng.mono (Nat.le_succ _), nodup_cons.mpr ⟨fun hmem => ?_, hs.nodup⟩,
        forall_mem_cons.mpr ⟨Nat.lt_succ_self _, hlt⟩,
        forall_mem_cons.mpr ⟨suffix_rfl, hs.steps⟩,
        forall_mem_cons.mpr ⟨iff_of_true (by simp [codecSteps]) rfl, hs.pending⟩,
        forall_mem_cons.mpr ⟨iff_of_false hnew (by simp), hs.active⟩⟩
      obtain ⟨t, ht, heq⟩ := mem_map.mp hmem
      exact Nat.ne_of_lt (hs.lt t ht) heq
    · cases h
      exact hs
  | run t rc w =>
    unfold CngSession.step at h
    dsimp only at h
    split at h
    · rename_i ht
      obtain ⟨⟨r, l⟩, hrun, h⟩ := bind_eq_some_iff.mp h
      cases r with
      | ok t' =>
        cases h
        have hinv := of_wp_ok (hs.run_wlp ht hlegal) hrun
        exact hinv
      | error rc => cases h
    · cases h
  | free t =>
    unfold CngSession.step at h
    dsimp only at h
    split at h
    · rename_i ht
      obtain ⟨⟨r, l⟩, hrun, rfl⟩ := map_eq_some_iff.mp h
      have hinv := of_wp (hs.free_wlp ht.1) hrun
      exact hinv
    · cases h

end CngSession.Inv

theorem CngSession.start_inv (m : ByteMemory.Mem) : (CngSession.start m).Inv dynamic :=
  have hsmall : 0 < 2 ^ 32 := by decide
  ⟨⟨rfl, hsmall, .nil, nofun, fun _ h => absurd h (Nat.lt_irrefl 0)⟩, .nil, nofun, nofun, nofun,
  nofun⟩

/-- In all runs in which no codec context fails to activate the provider: its count is the number of
active contexts, every attached context is among them, and while there are any the library is
loaded. -/
theorem cng_initCount (dynamic : Bool) (m : ByteMemory.Mem) (ops : List CngOp) {s : CngSession}
    (hlegal : Run.Along (CngSession.step dynamic) (CngSession.Legal dynamic) (.start m) ops)
    (hrun : Run.exec (CngSession.step dynamic) (.start m) ops = some s) :
    s.process.state.initCount = s.process.state.active.length ∧
      s.process.state.active.Nodup ∧
      (∀ t ∈ s.tasks, t.rest = [] → t.id ∈ s.process.state.active) ∧
      (dynamic = true → 0 < s.process.state.initCount → s.process.state.bcryptDll ≠ none ∧
        ∀ i < pfnCount, s.process.state.pfn i ≠ none) := by
  have hs : s.Inv dynamic := Run.exec_invariant
    (fun s op s' hs hop h => CngSession.Inv.step hs hop h) (CngSession.start_inv m) hlegal hrun
  refine ⟨hs.cng.count, hs.cng.nodup, fun t ht hrest => ?_, hs.cng.loaded⟩
  refine (hs.active t ht).mpr fun hnone => ?_
  have hmem := (hs.pending t ht).mpr hnone
  rw [hrest] at hmem
  cases hmem

def CngAnswer.toy (found : Bool) : CngAnswer :=
  ⟨if found then some 1 else none, fun i => some (i + 1), true⟩

/-- The library starts, and a codec context gets to the point where it activates the provider. -/
def CngOp.toyRun (m : ByteMemory.Mem) : List CngOp :=
  [.init {
    mutexAlloc := fun i => some (i + 1), heapAlloc := fun _ => some 65536, providerAlloc := none
    setup := .ok, providerInit := .ok, ctxInit := .toy true, seed := .toy true,
    maskAlloc := some 1024
    mask := .toy true, noise := m },
  .create,
  .run ⟨1, none, codecSteps, false⟩ .ok (.toy true),
  .run ⟨1, none, codecSteps.drop 1, false⟩ .ok (.toy true)]

/-- A context that activates the provider. -/
theorem cng_initCount_small : ∃ s, Run.exec (CngSession.step true) (.start fun _ => 0)
      (CngOp.toyRun (fun _ => 0) ++ [.run ⟨1, none, codecSteps.drop 2, false⟩ .ok (.toy true)]) =
        some s ∧
    s.process.state.initCount = 1 ∧ s.process.state.active.length = 1 := by
  have hbefore : (Run.exec (CngSession.step true) (.start fun _ => 0)
      (CngOp.toyRun fun _ => 0)).map (fun s => s.process.state.active) =
        some [] := by decide +kernel
  have hafter : (Run.exec (CngSession.step true) (.start fun _ => 0) (CngOp.toyRun (fun _ => 0) ++
      [.run ⟨1, none, codecSteps.drop 2, false⟩ .ok (.toy true)])).map
        (fun s => s.process.state.active) = some [1] := by decide +kernel
  obtain ⟨s, hrun, hactive⟩ := map_eq_some_iff.mp hafter
  have hlegal : Run.Along (CngSession.step true) (CngSession.Legal true) (.start fun _ => 0)
      (CngOp.toyRun (fun _ => 0) ++
        [.run ⟨1, none, codecSteps.drop 2, false⟩ .ok (.toy true)]) := by
    refine Run.along_append.mpr ⟨?_, fun s' hs' => ⟨fun _ _ => ⟨?_, ?_⟩, fun _ _ => trivial⟩⟩
    · have hroom : 0 + 1 < 2 ^ 32 := by decide
      exact ⟨hroom, fun _ _ =>
        ⟨trivial, fun _ _ => ⟨nofun, fun _ _ => ⟨nofun, fun _ _ => trivial⟩⟩⟩⟩
    · rw [hs'] at hbefore
      have hnil : s'.process.state.active = [] := some.inj hbefore
      rw [Cng.Room, hnil]
      decide
    · simp only [Cng.callbacks, Cng.activate]
      split <;> rfl
  have hcount := (cng_initCount true (fun _ => 0) _ hlegal hrun).1
  rw [hactive] at hcount
  exact ⟨s, hrun, hcount, by rw [hactive]; rfl⟩

/-- The library cannot be loaded when a codec context is made. The context is freed, the count goes
from zero to the largest unsigned integer, and for the next context the library is not loaded. -/
theorem not_cng_initCount : ∃ s, Run.exec (CngSession.step true) (.start fun _ => 0)
      (CngOp.toyRun (fun _ => 0) ++ [
        .run ⟨1, none, codecSteps.drop 2, false⟩ .ok (.toy false),
        .run ⟨1, some 65552, codecSteps.drop 2, true⟩ .ok (.toy true)]) = some s ∧
    s.process.state.initCount = 2 ^ 32 - 1 ∧ s.process.state.active = [] ∧
    s.process.state.bcryptDll = none ∧
    ((Cng.callbacks true).ctxInit 2 (.toy true) s.process.state).1.1 = .ok ∧
    ((Cng.callbacks true).ctxInit 2 (.toy true) s.process.state).2.bcryptDll = none := by
  have hview : (Run.exec (CngSession.step true) (.start fun _ => 0) (CngOp.toyRun (fun _ => 0) ++ [
      .run ⟨1, none, codecSteps.drop 2, false⟩ .ok (.toy false),
      .run ⟨1, some 65552, codecSteps.drop 2, true⟩ .ok (.toy true)])).map (fun s =>
        (s.process.state.initCount, s.process.state.active, s.process.state.bcryptDll,
          ((Cng.callbacks true).ctxInit 2 (.toy true) s.process.state).1.1,
          ((Cng.callbacks true).ctxInit 2 (.toy true) s.process.state).2.bcryptDll)) =
      some (2 ^ 32 - 1, [], none, .ok, none) := by decide +kernel
  obtain ⟨s, hrun, heq⟩ := map_eq_some_iff.mp hview
  simp only [Prod.mk.injEq] at heq
  exact ⟨s, hrun, heq⟩

end SqlCipher
