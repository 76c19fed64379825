import Mathlib.Logic.Function.Basic
import SqlCipher.Library.Run

/-!
# Undo journals

A store of pages is changed in place. Before a page is overwritten, a copy goes into a journal,
which is synced. After a crash, playing the journal back undoes the changes. Records that were not
synced may have survived or not, and a page with a synced record can hold anything.

`Guarded` is the discipline of a writer, and `recovers_of_prefix` what it buys: cut a guarded run
anywhere, play back what survived, and every page is the one the run started from or one that the
journal vouches for. What a record has to satisfy is a parameter `R`, since a copy need not be equal
to the page to be as good as it.
-/

namespace UndoJournal

open Function List

variable {ι β : Type}

/-- A store, its journal while there is one, and the number of records that are synced. -/
structure Disk (ι β : Type) where
  file : ι → β
  journal : Option (List (ι × β))
  synced : Nat

inductive Event (ι β : Type) where
  | openJournal
  | record (i : ι) (b : β)
  | sync
  | write (i : ι) (b : β)
  | closeJournal

variable [DecidableEq ι]

def Disk.step (d : Disk ι β) : Event ι β → Option (Disk ι β)
  | .openJournal => some { d with journal := some [], synced := 0 }
  | .record i b => d.journal.map fun js => { d with journal := some (js ++ [(i, b)]) }
  | .sync => d.journal.map fun js => { d with synced := js.length }
  | .write i b => some { d with file := update d.file i b }
  | .closeJournal => some { d with journal := none, synced := 0 }

/-- The store after the records have been written back, first to last. -/
def playback (file : ι → β) (records : List (ι × β)) : ι → β :=
  records.foldl (fun f r => update f r.1 r.2) file

/-- Recovery after a crash that the synced records survived, and all pages without one. -/
def Disk.Recovers (d : Disk ι β) (file : ι → β) : Prop :=
  ∃ js m crashed, d.journal = some js ∧ d.synced ≤ m ∧
    (∀ i, crashed i = d.file i ∨ ∃ b, (i, b) ∈ js.take d.synced) ∧
    file = playback crashed (js.take m)

/-- The discipline: the journal is opened on the untouched store `f₀`, records satisfy `R`, and only
a page with a synced record is overwritten. -/
def Guarded (f₀ : ι → β) (R : ι → β → Prop) (d : Disk ι β) : Event ι β → Prop
  | .openJournal => d.file = f₀
  | .record i b => R i b
  | .write i _ => ∃ js b, d.journal = some js ∧ (i, b) ∈ js.take d.synced
  | .sync | .closeJournal => True

/-- The records of a journal satisfy `R`, and every page that differs from `f₀` has a synced one. -/
def Protected (f₀ : ι → β) (R : ι → β → Prop) (d : Disk ι β) : Prop :=
  ∀ js, d.journal = some js → (∀ r ∈ js, R r.1 r.2) ∧ d.synced ≤ js.length ∧
    ∀ i, d.file i = f₀ i ∨ ∃ b, (i, b) ∈ js.take d.synced

variable {f₀ : ι → β} {R : ι → β → Prop} {d d' : Disk ι β}

/-- Playback leaves a page alone, or gives it one of the records. -/
theorem playback_cases (file : ι → β) (records : List (ι × β)) (i : ι) :
    (playback file records i = file i ∧ ∀ b, (i, b) ∉ records) ∨
      (i, playback file records i) ∈ records := by
  induction records generalizing file with
  | nil => exact .inl ⟨rfl, nofun⟩
  | cons r records ih =>
    obtain ⟨j, b⟩ := r
    obtain ⟨heq, hnot⟩ | hmem := ih (update file j b)
    · have hval : playback file ((j, b) :: records) i = update file j b i := heq
      rw [hval]
      by_cases hij : i = j
      · subst hij
        exact .inr (by simp)
      · refine .inl ⟨update_of_ne hij b file, fun b' hb => ?_⟩
        obtain heq | hmem := mem_cons.mp hb
        · exact hij (congrArg Prod.fst heq)
        · exact hnot b' hmem
    · exact .inr (mem_cons_of_mem _ hmem)

theorem step_protected (h : Protected f₀ R d) (hg : Guarded f₀ R d ev)
    (hstep : d.step ev = some d') : Protected f₀ R d' := by
  cases ev with
  | openJournal =>
    cases hstep
    rintro js ⟨⟩
    exact ⟨nofun, Nat.le_refl 0, fun i => .inl (congrFun hg i)⟩
  | record i b =>
    obtain ⟨js, hjs, rfl⟩ := Option.map_eq_some_iff.mp hstep
    obtain ⟨hR, hle, hfile⟩ := h js hjs
    rintro js' ⟨⟩
    refine ⟨fun r hr => ?_, ?_, fun j => ?_⟩
    · obtain hr | hr := mem_append.mp hr
      · exact hR r hr
      · rw [mem_singleton.mp hr]
        exact hg
    · rw [length_append]
      exact Nat.le_add_right_of_le hle
    · rw [take_append_of_le_length hle]
      exact hfile j
  | sync =>
    obtain ⟨js, hjs, rfl⟩ := Option.map_eq_some_iff.mp hstep
    obtain ⟨hR, hle, hfile⟩ := h js hjs
    rintro js' hjs'
    cases hjs.symm.trans hjs'
    refine ⟨hR, Nat.le_refl _, fun i => (hfile i).imp_right fun ⟨b, hb⟩ => ⟨b, ?_⟩⟩
    rw [take_length]
    exact mem_of_mem_take hb
  | write i b =>
    cases hstep
    intro js hjs
    obtain ⟨hR, hle, hfile⟩ := h js hjs
    refine ⟨hR, hle, fun j => ?_⟩
    by_cases hij : j = i
    · obtain ⟨js', b', hjs', hmem⟩ := hg
      cases hjs.symm.trans hjs'
      exact .inr ⟨b', hij ▸ hmem⟩
    · exact (hfile j).imp_left fun heq => (update_of_ne hij b d.file).trans heq
  | closeJournal =>
    cases hstep
    rintro js ⟨⟩

theorem Protected.recovers (h : Protected f₀ R d) (hrec : d.Recovers file) (i : ι) :
    file i = f₀ i ∨ R i (file i) := by
  obtain ⟨js, m, crashed, hjs, hm, hcrash, rfl⟩ := hrec
  obtain ⟨hR, -, hfile⟩ := h js hjs
  obtain ⟨heq, hnot⟩ | hmem := playback_cases crashed (js.take m) i
  · have hfree : ¬ ∃ b, (i, b) ∈ js.take d.synced := by
      rintro ⟨b, hb⟩
      refine hnot b (mem_of_mem_take (i := d.synced) ?_)
      rwa [take_take, Nat.min_eq_left hm]
    exact .inl (heq.trans (((hcrash i).resolve_right hfree).trans ((hfile i).resolve_right hfree)))
  · exact .inr (hR _ (mem_of_mem_take hmem))

/-- Cut a guarded run anywhere and recover: every page is the original or vouched for by the
journal. -/
theorem recovers_of_prefix (h₀ : d₀.journal = none)
    (h : Run.Along Disk.step (Guarded f₀ R) d₀ events) (k : Nat)
    (hrun : Run.exec Disk.step d₀ (events.take k) = some d) (hrec : d.Recovers file) (i : ι) :
    file i = f₀ i ∨ R i (file i) := by
  rw [← take_append_drop k events, Run.along_append] at h
  have hstart : Protected f₀ R d₀ := fun js hjs => by cases h₀.symm.trans hjs
  exact (Run.exec_invariant
    (fun _ _ _ hp hg hs => step_protected hp hg hs) hstart h.1 hrun).recovers
    hrec i

end UndoJournal
