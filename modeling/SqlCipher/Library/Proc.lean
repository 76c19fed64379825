import Mathlib.Tactic.Common

/-!
# Procedures that can fail

A `Proc σ ε α` on states `σ` has no defined effect (`none`), or ends in a state with a result or an
error code. A failure keeps what was done before it, as in a C function that returns early.

`wp x Q E s` is the weakest precondition: run from `s`, the procedure `x` has a defined effect, a
result comes with `Q` and a failure with `E`. `wlp` does not promise that the effect is defined.
The rules are those of `wpOr`, which is both: the simp set computes it along the text of a
procedure, `wpOr.mono` uses what is known of a call, and `wpOr.forEach` is the rule for loops.
`Keeps I x` says that `I` is preserved, with one rule for each way to build a procedure.
-/

/-- A procedure on states `σ` with error codes `ε`. -/
def Proc (σ ε α : Type) : Type := σ → Option (Except ε α × σ)

namespace Proc

variable {σ τ ε α β : Type}

protected def bind (x : Proc σ ε α) (f : α → Proc σ ε β) : Proc σ ε β := fun s =>
  (x s).bind fun
    | (.ok a, s') => f a s'
    | (.error e, s') => some (.error e, s')

instance : Monad (Proc σ ε) where
  pure a := fun s => some (.ok a, s)
  bind := Proc.bind

/-- The monad laws. They are no instance, since the simp set should not regroup a procedure. -/
theorem lawfulMonad : LawfulMonad (Proc σ ε) := by
  refine LawfulMonad.mk' _ (fun x => funext fun s => ?_) (fun _ _ => rfl)
    fun x f g => funext fun s => ?_
  · change (x s).bind _ = x s
    rcases x s with _ | ⟨_ | _, _⟩ <;> rfl
  · change ((x s).bind _).bind _ = (x s).bind _
    rcases x s with _ | ⟨_ | _, _⟩ <;> rfl

def fail (e : ε) : Proc σ ε α := fun s => some (.error e, s)

def undefined : Proc σ ε α := fun _ => none

def get : Proc σ ε σ := fun s => some (.ok s, s)

def modify (f : σ → σ) : Proc σ ε Unit := fun s => some (.ok (), f s)

def when (c : Prop) [Decidable c] (x : Proc σ ε Unit) : Proc σ ε Unit :=
  if c then x else pure ()

def attempt (x : Proc σ ε α) : Proc σ ε (Except ε α) := fun s =>
  (x s).map fun r => (.ok r.1, r.2)

def ofExcept : Except ε α → Proc σ ε α
  | .ok a => pure a
  | .error e => fail e

def forEach (f : β → Proc σ ε Unit) : List β → Proc σ ε Unit
  | [] => pure ()
  | b :: bs => do
    f b
    forEach f bs

/-- Run a procedure on the part of the state that `view` shows and `put` replaces. -/
def onPart (view : τ → σ) (put : σ → τ → τ) (x : Proc σ ε α) : Proc τ ε α := fun t =>
  (x (view t)).map fun r => (r.1, put r.2 t)

theorem bind_of_ok {x : Proc σ ε α} {f : α → Proc σ ε β} (h : x s = some (.ok a, s')) :
    (x >>= f) s = f a s' := by
  change (x s).bind _ = _
  rw [h]
  rfl

theorem bind_of_error {x : Proc σ ε α} {f : α → Proc σ ε β} (h : x s = some (.error e, s')) :
    (x >>= f) s = some (.error e, s') := by
  change (x s).bind _ = _
  rw [h]
  rfl

theorem attempt_of_eq {x : Proc σ ε α} (h : x s = some (r, s')) :
    attempt x s = some (.ok r, s') := by
  rw [attempt, h]
  rfl

theorem attempt_bind_of_ok {x : Proc σ ε α} {f : α → Proc σ ε β} {g : Except ε β → Proc σ ε γ}
    (h : x s = some (.ok a, s')) : (attempt (x >>= f) >>= g) s = (attempt (f a) >>= g) s' := by
  have heq : attempt (x >>= f) s = attempt (f a) s' := congrArg (Option.map _) (bind_of_ok h)
  change (attempt (x >>= f) s).bind _ = (attempt (f a) s').bind _
  rw [heq]

/-! ## Weakest preconditions -/

/-- From `s` a result comes with `Q`, a failure with `E`, and no defined effect only with `N`. -/
def wpOr (N : Prop) (x : Proc σ ε α) (Q : α → σ → Prop) (E : ε → σ → Prop) (s : σ) : Prop :=
  match x s with
  | none => N
  | some (.ok a, s') => Q a s'
  | some (.error e, s') => E e s'

/-- From `s` the procedure ends, a result comes with `Q` and a failure with `E`. -/
abbrev wp (x : Proc σ ε α) (Q : α → σ → Prop) (E : ε → σ → Prop) (s : σ) : Prop :=
  wpOr False x Q E s

/-- If from `s` the procedure ends, a result comes with `Q` and a failure with `E`. -/
abbrev wlp (x : Proc σ ε α) (Q : α → σ → Prop) (E : ε → σ → Prop) (s : σ) : Prop :=
  wpOr True x Q E s

/-- The procedure ends, and a result comes with `Q`. -/
abbrev ends (x : Proc σ ε α) (Q : α → σ → Prop) (s : σ) : Prop := wp x Q (fun _ _ => True) s

/-- If the procedure returns a result, it comes with `Q`. -/
abbrev gives (x : Proc σ ε α) (Q : α → σ → Prop) (s : σ) : Prop := wlp x Q (fun _ _ => True) s

variable {N : Prop} {Q Q' : α → σ → Prop} {R : β → σ → Prop} {E E' : ε → σ → Prop}
  {x : Proc σ ε α} {s s' : σ} {a : α} {e : ε} {r : Except ε α} {put : σ → τ → τ} {c : Prop}
  {bs : List β}

theorem wpOr.mono (h : wpOr N x Q E s) (hQ : ∀ a s', Q a s' → Q' a s')
    (hE : ∀ e s', E e s' → E' e s') : wpOr N x Q' E' s := by
  unfold wpOr at *
  split at h
  · exact h
  · exact hQ _ _ h
  · exact hE _ _ h

/-- Where a failure is the one that is known. -/
theorem wpOr.post (h : wpOr N x Q E s) (hQ : ∀ a s', Q a s' → Q' a s') : wpOr N x Q' E s :=
  h.mono hQ fun _ _ => id

/-- Where the procedure does not fail. -/
theorem wpOr.sure (h : wpOr N x Q (fun _ _ => False) s) (hQ : ∀ a s', Q a s' → Q' a s') :
    wpOr N x Q' E s := h.mono hQ fun _ _ => False.elim

theorem wpOr.imp (h : wpOr N x Q E s) (hQ : ∀ a s', Q a s' → Q' a s') :
    wpOr N x Q' (fun _ _ => True) s :=
  h.mono hQ fun _ _ _ => trivial

theorem wp_and (h : wpOr N x Q E s) (h' : wpOr N x Q' E' s) :
    wpOr N x (fun a s' => Q a s' ∧ Q' a s') (fun e s' => E e s' ∧ E' e s') s := by
  unfold wpOr at *
  cases heq : x s with
  | none => rw [heq] at h; exact h
  | some r => rcases r with ⟨_ | a, s'⟩ <;> rw [heq] at h h' <;> exact ⟨h, h'⟩

theorem wp_of_eq_ok (h : x s = some (.ok a, s')) (hQ : Q a s') : wpOr N x Q E s := by
  unfold wpOr
  rw [h]
  exact hQ

theorem of_wp_ok (h : wpOr N x Q E s) (hrun : x s = some (.ok a, s')) : Q a s' := by
  unfold wpOr at h
  rwa [hrun] at h

/-- What a procedure that ends comes to. -/
theorem of_wp {P : σ → Prop} (h : wpOr N x (fun _ => P) (fun _ => P) s)
    (hrun : x s = some (r, s')) : P s' := by
  unfold wpOr at h
  rw [hrun] at h
  cases r <;> exact h

/-- What a procedure for which `wp` holds comes to. -/
theorem exists_of_wp (h : wp x Q E s) :
    (∃ a s', x s = some (.ok a, s') ∧ Q a s') ∨ ∃ e s', x s = some (.error e, s') ∧ E e s' := by
  unfold wp wpOr at h
  split at h
  · exact h.elim
  · exact .inl ⟨_, _, ‹_›, h⟩
  · exact .inr ⟨_, _, ‹_›, h⟩

theorem exists_of_sure (h : wp x Q (fun _ _ => False) s) :
    ∃ a s', x s = some (.ok a, s') ∧ Q a s' :=
  (exists_of_wp h).resolve_right fun ⟨_, _, _, hno⟩ => hno

@[simp] theorem wp_pure : wpOr N (pure a) Q E s ↔ Q a s := Iff.rfl

@[simp] theorem wp_fail : wpOr N (fail e) Q E s ↔ E e s := Iff.rfl

@[simp] theorem wp_undefined : wpOr N undefined Q E s ↔ N := Iff.rfl

@[simp] theorem wp_get {Q : σ → σ → Prop} : wpOr N get Q E s ↔ Q s s := Iff.rfl

@[simp] theorem wp_modify {Q : Unit → σ → Prop} : wpOr N (modify f) Q E s ↔ Q () (f s) := Iff.rfl

@[simp] theorem wp_bind :
    wpOr N (x >>= f) R E s ↔ wpOr N x (fun a s' => wpOr N (f a) R E s') E s := by
  unfold wpOr
  have heq : (x >>= f) s = Proc.bind x f s := rfl
  rw [heq, Proc.bind]
  cases x s with
  | none => rfl
  | some r => obtain ⟨_ | a, s'⟩ := r <;> rfl

@[simp] theorem wp_attempt {Q : Except ε α → σ → Prop} :
    wpOr N (attempt x) Q E s ↔ wpOr N x (fun a => Q (.ok a)) (fun e => Q (.error e)) s := by
  unfold wpOr attempt
  cases x s with
  | none => rfl
  | some r => obtain ⟨_ | a, s'⟩ := r <;> rfl

@[simp] theorem wp_ofExcept :
    wpOr N (ofExcept r) Q E s ↔ (∀ a, r = .ok a → Q a s) ∧ ∀ e, r = .error e → E e s := by
  cases r <;> simp [ofExcept]

@[simp] theorem wp_onPart {Q : α → τ → Prop} {E : ε → τ → Prop} :
    wpOr N (onPart view put x) Q E t ↔
      wpOr N x (fun a s' => Q a (put s' t)) (fun e s' => E e (put s' t)) (view t) := by
  unfold wpOr onPart
  cases x (view t) with
  | none => rfl
  | some r => obtain ⟨_ | a, s'⟩ := r <;> rfl

@[simp] theorem wp_ite [Decidable c] :
    wpOr N (if c then x else y) Q E s ↔ (c → wpOr N x Q E s) ∧ (¬ c → wpOr N y Q E s) := by
  split <;> simp [*]

@[simp] theorem wp_when [Decidable c] {x : Proc σ ε Unit} {Q : Unit → σ → Prop} :
    wpOr N (when c x) Q E s ↔ (c → wpOr N x Q E s) ∧ (¬ c → Q () s) := wp_ite

/-! The rules to go on from the first step of a procedure. -/

namespace wpOr

theorem pure (h : Q a s) : wpOr N (Pure.pure a) Q E s := h

theorem modify {f : σ → σ} {Q : Unit → σ → Prop} (h : Q () (f s)) :
    wpOr N (Proc.modify f) Q E s := h

theorem bind {f : α → Proc σ ε β} (h : wpOr N x (fun a => wpOr N (f a) R E) E s) :
    wpOr N (x >>= f) R E s :=
  wp_bind.mpr h

/-- Go on after a procedure by what is known about it. -/
theorem seq (hx : wpOr N x Q E s) (hf : ∀ a s', Q a s' → wpOr N (f a) R E s') :
    wpOr N (x >>= f) R E s :=
  bind (hx.post hf)

theorem read {f : σ → Proc σ ε β} (h : wpOr N (f s) R E s) : wpOr N (Proc.get >>= f) R E s := bind h

theorem write {g : σ → σ} {f : Unit → Proc σ ε β} (h : wpOr N (f ()) R E (g s)) :
    wpOr N (Proc.modify g >>= f) R E s := bind h

theorem attempt {Q : Except ε α → σ → Prop}
    (h : wpOr N x (fun a => Q (.ok a)) (fun e => Q (.error e)) s) :
    wpOr N (Proc.attempt x) Q E s :=
  wp_attempt.mpr h

/-- Go on after a procedure whose failure is looked at. -/
theorem caught {I : Except ε α → σ → Prop} {f : Except ε α → Proc σ ε β}
    (hx : wpOr N x (fun a => I (.ok a)) (fun e => I (.error e)) s)
    (hf : ∀ r s', I r s' → wpOr N (f r) R E s') : wpOr N (Proc.attempt x >>= f) R E s :=
  bind (attempt (hx.mono (fun _ => hf _) fun _ => hf _))

theorem ite [Decidable c] (h : (c → wpOr N x Q E s) ∧ (¬ c → wpOr N y Q E s)) :
    wpOr N (if c then x else y) Q E s := wp_ite.mpr h

theorem when [Decidable c] {x : Proc σ ε Unit} {Q : Unit → σ → Prop}
    (h : (c → wpOr N x Q E s) ∧ (¬ c → Q () s)) : wpOr N (Proc.when c x) Q E s := ite h

end wpOr

/-- The invariant rule for loops. The invariant knows the elements that remain. -/
theorem wpOr.forEach {I : List β → σ → Prop}
    (h : ∀ b rest s, b :: rest <:+ bs → I (b :: rest) s → wpOr N (f b) (fun _ => I rest) E s)
    (hs : I bs s) : wpOr N (forEach f bs) (fun _ => I []) E s := by
  induction bs generalizing s with
  | nil => exact hs
  | cons b bs ih =>
    refine .seq (h b bs s List.suffix_rfl hs) fun _ s' hs' => ?_
    exact ih (fun b' rest s hsuf => h b' rest s (hsuf.trans (List.suffix_cons b bs))) hs'

theorem wlp.forEach {I : σ → Prop} (h : ∀ b s, I s → wlp (f b) (fun _ => I) E s) (hs : I s) :
    wlp (forEach f bs) (fun _ => I) E s :=
  wpOr.forEach (I := fun _ => I) (fun b _ s _ => h b s) hs

theorem wpOr.next (hx : wpOr N x Q E s)
    (hf : ∀ a s', Q a s' → wpOr N (f a) R (fun _ _ => True) s') :
    wpOr N (x >>= f) R (fun _ _ => True) s :=
  .bind (hx.imp hf)

/-- The result and the state are those that the procedure computes. -/
theorem wlp_self :
    wlp x (fun a s' => x s = some (.ok a, s')) (fun e s' => x s = some (.error e, s'))
    s := by
  unfold wlp wpOr
  split
  · trivial
  · assumption
  · assumption

theorem wlp_trivial : wlp x (fun _ _ => True) (fun _ _ => True) s := by
  unfold wlp wpOr
  split <;> trivial

/-! ## Invariants -/

/-- From states with `I`, where the procedure ends, a result leaves `I` and a failure comes with
`E`. -/
def Maintains (I : σ → Prop) (E : ε → σ → Prop) (x : Proc σ ε α) : Prop :=
  ∀ s, I s → wlp x (fun _ => I) E s

/-- Where the procedure ends, with a result or an error, `I` holds if it held before. -/
abbrev Keeps (I : σ → Prop) (x : Proc σ ε α) : Prop := Maintains I (fun _ => I) x

namespace Maintains

variable {I : σ → Prop} {f : α → Proc σ ε β}

theorem pure (a : α) : Maintains I E (Pure.pure a : Proc σ ε α) := fun _ hs => hs

theorem fail (h : ∀ s, I s → E e s) : Maintains I E (Proc.fail e : Proc σ ε α) := h

theorem undefined : Maintains I E (Proc.undefined : Proc σ ε α) := fun _ _ => trivial

theorem get : Maintains I E (Proc.get : Proc σ ε σ) := fun _ hs => hs

theorem modify {f : σ → σ} (h : ∀ s, I s → I (f s)) :
    Maintains I E (Proc.modify f : Proc σ ε Unit) := h

theorem bind (hx : Maintains I E x) (hf : ∀ a, Maintains I E (f a)) : Maintains I E (x >>= f) :=
  fun s hs => .seq (hx s hs) fun a s' => hf a s'

/-- After `get` the state is the one that was read. -/
theorem get_bind {f : σ → Proc σ ε β} (hf : ∀ s, I s → wlp (f s) (fun _ => I) E s) :
    Maintains I E (Proc.get >>= f) :=
  fun s hs => .read (hf s hs)

theorem ite [Decidable c] (hx : Maintains I E x) (hy : Maintains I E y) :
    Maintains I E (if c then x else y) := by
  split
  · exact hx
  · exact hy

theorem ite_bind [Decidable c] (hx : Maintains I E x) (hy : Maintains I E y)
    (hf : ∀ a, Maintains I E (f a)) : Maintains I E (if c then x >>= f else y >>= f) :=
  ite (bind hx hf) (bind hy hf)

theorem when [Decidable c] {x : Proc σ ε Unit} (hx : Maintains I E x) :
    Maintains I E (Proc.when c x) := ite hx (pure ())

theorem forEach {f : β → Proc σ ε Unit} (h : ∀ b ∈ bs, Maintains I E (f b)) :
    Maintains I E (Proc.forEach f bs) := by
  induction bs with
  | nil => exact pure ()
  | cons b bs ih =>
    exact bind (h b List.mem_cons_self) fun _ => ih fun b' hb' => h b' (List.mem_cons_of_mem b hb')

end Maintains

theorem Maintains.attempt {I : σ → Prop} (hx : Keeps I x) : Keeps I (attempt x) := fun s hs =>
  .attempt (hx s hs)

theorem Maintains.ofExcept {I : σ → Prop} (r : Except ε α) :
    Keeps I (ofExcept r : Proc σ ε α) := by
  cases r with
  | error e => exact .fail fun _ => id
  | ok a => exact .pure a

theorem Maintains.onPart {P : ε → Prop} (hx : Maintains (fun _ => True) (fun e _ => P e) x) :
    Maintains (fun _ => True) (fun e _ => P e) (onPart view put x) := fun t _ =>
  wp_onPart.mpr (hx (view t) trivial)

/-- `I` and `J` are the same, by definition. -/
class Same (I J : σ → Prop) : Prop where
  imp : ∀ s, I s → J s

instance {I : σ → Prop} : Same I I := ⟨fun _ => id⟩

/-- `Keeps` for instance search, which follows a procedure's text and need be told only of updates
that `I` speaks about. -/
class Kept (I : σ → Prop) (x : Proc σ ε α) : Prop where
  keeps : Keeps I x

section Kept

variable {I : σ → Prop} {x y : Proc σ ε α} {f : α → Proc σ ε β}

theorem Kept.wlp [hx : Kept I x] (h : I s) : wlp x (fun _ => I) (fun _ => I) s := hx.keeps s h

instance : Kept I (pure a : Proc σ ε α) := ⟨.pure a⟩

instance : Kept I (fail e : Proc σ ε α) := ⟨.fail fun _ => id⟩

instance : Kept I (undefined : Proc σ ε α) := ⟨.undefined⟩

instance : Kept I (get : Proc σ ε σ) := ⟨.get⟩

instance {f : σ → σ} [h : Same I fun s => I (f s)] : Kept I (modify f : Proc σ ε Unit) := ⟨h.imp⟩

instance [hx : Kept I x] [hf : ∀ a, Kept I (f a)] : Kept I (x >>= f) :=
  ⟨.bind hx.keeps fun a => (hf a).keeps⟩

instance [Decidable c] [hx : Kept I x] [hy : Kept I y] : Kept I (if c then x else y) :=
  ⟨.ite hx.keeps hy.keeps⟩

instance [Decidable c] {x : Proc σ ε Unit} [hx : Kept I x] : Kept I (when c x) :=
  ⟨.when hx.keeps⟩

instance [hx : Kept I x] : Kept I (attempt x) := ⟨.attempt hx.keeps⟩

instance : Kept I (ofExcept r : Proc σ ε α) := ⟨.ofExcept r⟩

instance {f : β → Proc σ ε Unit} [h : ∀ b, Kept I (f b)] : Kept I (forEach f bs) :=
  ⟨.forEach fun b _ => (h b).keeps⟩

end Kept

/-! ## Frames -/

/-- What procedures leave as it was, as a relation between states: `ok` with a result, the wider
`err` with a failure. They may assume `inv`, and keep it unless they fail. -/
structure Frame (σ : Type) where
  inv : σ → Prop
  ok : σ → σ → Prop
  err : σ → σ → Prop
  refl : ∀ s, ok s s
  trans : ∀ {s t u}, ok s t → ok t u → ok s u
  err_of_ok : ∀ {s t}, ok s t → err s t
  err_trans : ∀ {s t u}, ok s t → err t u → err s u

/-- From a state with the invariant the procedure ends, and the frame relates the states before and
after. -/
def Respects (F : Frame σ) (x : Proc σ ε α) : Prop :=
  ∀ s, F.inv s → wp x (fun _ t => F.ok s t ∧ F.inv t) (fun _ => F.err s) s

namespace Respects

variable {F : Frame σ} {f : α → Proc σ ε β}

theorem pure (a : α) : Respects F (Pure.pure a : Proc σ ε α) := fun s hs => ⟨F.refl s, hs⟩

theorem fail (e : ε) : Respects F (Proc.fail e : Proc σ ε α) := fun s _ => F.err_of_ok (F.refl s)

theorem modify {f : σ → σ} (h : ∀ s, F.inv s → F.ok s (f s) ∧ F.inv (f s)) :
    Respects F (Proc.modify f : Proc σ ε Unit) := h

/-- What a procedure leaves of an earlier state. -/
theorem after {t : σ} (hx : Respects F x) (h : F.ok t s ∧ F.inv s) :
    wp x (fun _ u => F.ok t u ∧ F.inv u) (fun _ => F.err t) s :=
  wpOr.mono (hx s h.2) (fun _ _ hu => ⟨F.trans h.1 hu.1, hu.2⟩) fun _ _ => F.err_trans h.1

theorem bind (hx : Respects F x) (hf : ∀ a, Respects F (f a)) : Respects F (x >>= f) :=
  fun s hs => wpOr.seq (hx s hs) fun a _ => (hf a).after

/-- The state that is read has the invariant. -/
theorem get_bind {f : σ → Proc σ ε β} (hf : ∀ s, F.inv s → Respects F (f s)) :
    Respects F (Proc.get >>= f) := fun s hs => wpOr.read (hf s hs s hs)

theorem ite [Decidable c] (hx : c → Respects F x) (hy : Respects F y) :
    Respects F (if c then x else y) := by
  split
  · exact hx ‹_›
  · exact hy

theorem when [Decidable c] {x : Proc σ ε Unit} (hx : c → Respects F x) :
    Respects F (Proc.when c x) := ite hx (pure ())

theorem forEach {f : β → Proc σ ε Unit} (h : ∀ b ∈ bs, Respects F (f b)) :
    Respects F (Proc.forEach f bs) := by
  induction bs with
  | nil => exact pure ()
  | cons b bs ih =>
    exact bind (h b List.mem_cons_self) fun _ => ih fun b' hb' => h b' (List.mem_cons_of_mem b hb')

end Respects

end Proc
