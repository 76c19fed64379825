import Mathlib.Data.List.Basic
import Mathlib.Tactic.Common

/-!
# Runs of a partial step function

A system is a step function `σ → α → Option σ`: `none` is an operation with no defined
effect, and a run that meets one has no final state. `Along` collects what is assumed of the
operations of a run, each in the state it meets. `exec_invariant` is the induction that turns
what one step preserves into what every run preserves.
-/

namespace Run

variable {σ α : Type*} (step : σ → α → Option σ)

def exec (s : σ) (as : List α) : Option σ := as.foldlM step s

/-- Every operation of the run meets a state for which `ok` admits it. -/
def Along (ok : σ → α → Prop) : σ → List α → Prop
  | _, [] => True
  | s, a :: as => ok s a ∧ ∀ s', step s a = some s' → Along ok s' as

variable {step}

@[simp] theorem exec_nil (s : σ) : exec step s [] = some s := rfl

theorem exec_cons (s : σ) (a : α) (as : List α) :
    exec step s (a :: as) = (step s a).bind fun s' => exec step s' as := rfl

theorem exec_append (s : σ) (as bs : List α) :
    exec step s (as ++ bs) = (exec step s as).bind fun s' => exec step s' bs :=
  List.foldlM_append

theorem exec_cons_eq_some {s t : σ} {a : α} {as : List α} :
    exec step s (a :: as) = some t ↔ ∃ s', step s a = some s' ∧ exec step s' as = some t := by
  rw [exec_cons, Option.bind_eq_some_iff]

/-- What every admitted step preserves, every run of admitted steps preserves. -/
theorem exec_invariant {Inv : σ → Prop} {ok : σ → α → Prop}
    (hstep : ∀ s a s', Inv s → ok s a → step s a = some s' → Inv s') {s t : σ} {as : List α}
    (h0 : Inv s) (hok : Along step ok s as) (hrun : exec step s as = some t) : Inv t := by
  induction as generalizing s with
  | nil => exact Option.some.inj hrun ▸ h0
  | cons a as ih =>
    obtain ⟨s', ha, hrest⟩ := exec_cons_eq_some.mp hrun
    exact ih (hstep s a s' h0 hok.1 ha) (hok.2 s' ha) hrest

theorem exec_progress {Inv : σ → Prop} {ok : σ → α → Prop}
    (hstep : ∀ s a, Inv s → ok s a → ∃ s', step s a = some s' ∧ Inv s') {s : σ} {as : List α}
    (h0 : Inv s) (hok : Along step ok s as) : ∃ t, exec step s as = some t ∧ Inv t := by
  induction as generalizing s with
  | nil => exact ⟨s, rfl, h0⟩
  | cons a as ih =>
    obtain ⟨s', ha, hs'⟩ := hstep s a h0 hok.1
    obtain ⟨t, hrest, ht⟩ := ih hs' (hok.2 s' ha)
    exact ⟨t, exec_cons_eq_some.mpr ⟨s', ha, hrest⟩, ht⟩

theorem along_append {ok : σ → α → Prop} {s : σ} {as bs : List α} :
    Along step ok s (as ++ bs) ↔
      Along step ok s as ∧ ∀ s', exec step s as = some s' → Along step ok s' bs := by
  induction as generalizing s with
  | nil => simp [Along]
  | cons a as ih =>
    simp only [List.cons_append, Along, ih, exec_cons_eq_some]
    grind

theorem Along.mono {ok ok' : σ → α → Prop} (h : ∀ s a, ok s a → ok' s a) {s : σ} {as : List α}
    (hall : Along step ok s as) : Along step ok' s as := by
  induction as generalizing s with
  | nil => trivial
  | cons a as ih => exact ⟨h s a hall.1, fun s' hs' => ih (hall.2 s' hs')⟩

instance decidableAlong {ok : σ → α → Prop} [∀ s a, Decidable (ok s a)] :
    ∀ s as, Decidable (Along step ok s as)
  | _, [] => isTrue trivial
  | s, a :: as =>
    match hstep : step s a with
    | none => decidable_of_iff (ok s a) (by simp [Along, hstep])
    | some s' =>
      haveI : Decidable (Along step ok s' as) := decidableAlong s' as
      decidable_of_iff (ok s a ∧ Along step ok s' as) (by simp [Along, hstep])

/-- A condition on the operations alone holds along every run of them. -/
theorem along_of_forall {ok : α → Prop} {as : List α} (h : ∀ a ∈ as, ok a) (s : σ) :
    Along step (fun _ a => ok a) s as := by
  induction as generalizing s with
  | nil => trivial
  | cons a as ih =>
    exact ⟨h a List.mem_cons_self, fun s' _ => ih (fun b hb => h b (List.mem_cons_of_mem a hb)) s'⟩

theorem exec_invariant_of_forall {Inv : σ → Prop}
    (hstep : ∀ s a s', Inv s → step s a = some s' → Inv s') {s t : σ} {as : List α} (h0 : Inv s)
    (hrun : exec step s as = some t) : Inv t :=
  exec_invariant (fun s a s' hi _ h => hstep s a s' hi h) h0
    (along_of_forall (fun _ _ => trivial) s) hrun

end Run
