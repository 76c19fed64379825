import Mathlib.Tactic.Common

/-!
# Procedures that wait for their environment

A `Coroutine σ ι ο α` is a procedure on states `σ` that makes requests `ι` and goes on with the
replies `ο`. Run from a state it comes to a `Suspended`: it has ended, or it waits for a reply.
While it waits others may act, but they do not change `σ`, and see it only at the requests and at
the end.

`wp` is the weakest precondition for such a procedure. `Contract.seen` relates each state that is
seen, with the procedure's part `ε` of the environment, to the one seen before, so that it can carry
an invariant as well as what one step may do.
-/

/-- A procedure that has ended with a result, or waits for the reply to a request. -/
inductive Suspended (σ ι ο α : Type) where
  | done (a : α) (s : σ)
  | waiting (s : σ) (request : ι) (resume : ο → Suspended σ ι ο α)

namespace Suspended

variable {σ ι ο ε α β : Type}

/-- The state that others see. -/
def state : Suspended σ ι ο α → σ
  | done _ s => s
  | waiting s _ _ => s

protected def bind (f : α → σ → Suspended σ ι ο β) : Suspended σ ι ο α → Suspended σ ι ο β
  | done a s => f a s
  | waiting s request resume => waiting s request fun reply => (resume reply).bind f

/-- Every state that is seen from now on satisfies `P`. -/
def Always (P : σ → Prop) : Suspended σ ι ο α → Prop
  | done _ s => P s
  | waiting s _ resume => P s ∧ ∀ reply, (resume reply).Always P

theorem Always.state {P : σ → Prop} {x : Suspended σ ι ο α} (h : x.Always P) : P x.state := by
  cases x with
  | done => exact h
  | waiting => exact h.1

end Suspended

/-- A procedure on states `σ` that makes requests `ι`, with replies `ο`. -/
def Coroutine (σ ι ο α : Type) : Type := σ → Suspended σ ι ο α

namespace Coroutine

variable {σ ι ο ε α β : Type}

instance : Monad (Coroutine σ ι ο) where
  pure a := fun s => .done a s
  bind x f := fun s => (x s).bind f

def get : Coroutine σ ι ο σ := fun s => .done s s

def modify (f : σ → σ) : Coroutine σ ι ο Unit := fun s => .done () (f s)

def await (request : ι) : Coroutine σ ι ο ο :=
  fun s => .waiting s request fun reply => .done reply s

end Coroutine

/-- What a procedure and its environment owe each other: how a reply changes the environment `ε`,
which replies are considered, and how what is seen relates to what was. -/
structure Contract (σ ι ο ε : Type) where
  after : ι → ο → ε → ε
  admits : σ → ι → ο → Prop
  seen : σ × ε → σ × ε → Prop

/-- The contract that allows any reply and asks for `P` alone. -/
def Contract.always {σ ι ο : Type} (P : σ → Prop) : Contract σ ι ο Unit where
  after _ _ e := e
  admits _ _ _ := True
  seen _ now := P now.1

namespace Suspended

variable {σ ι ο ε α β : Type} (C : Contract σ ι ο ε)

/-- From here on the contract is kept, and the end comes with `Q` of the result, the state, what was
last seen, and the environment. -/
def wp (Q : α → σ → σ × ε → ε → Prop) : Suspended σ ι ο α → σ × ε → ε → Prop
  | done a s, last, e => Q a s last e
  | waiting s request resume, last, e => C.seen last (s, e) ∧
      ∀ reply, C.admits s request reply → (resume reply).wp Q (s, e) (C.after request reply e)

variable {C} {Q Q' : α → σ → σ × ε → ε → Prop} {R : β → σ → σ × ε → ε → Prop}

theorem wp_mono {x : Suspended σ ι ο α} {last : σ × ε} {e : ε} (h : x.wp C Q last e)
    (hQ : ∀ a s last e, Q a s last e → Q' a s last e) : x.wp C Q' last e := by
  induction x generalizing last e with
  | done a s => exact hQ a s last e h
  | waiting s request resume ih =>
    exact ⟨h.1, fun reply hreply => ih reply (h.2 reply hreply)⟩

theorem wp_bind {x : Suspended σ ι ο α} {last : σ × ε} {e : ε} :
    (x.bind f).wp C R last e ↔ x.wp C (fun a s last e => (f a s).wp C R last e) last e := by
  induction x generalizing last e with
  | done a s => exact Iff.rfl
  | waiting s request resume ih =>
    simp only [Suspended.bind, wp, ih]

theorem always_of_wp {P : σ → Prop} {x : Suspended σ ι ο α} {last : σ × Unit}
    (h : x.wp (.always P) (fun _ s _ _ => P s) last ()) : x.Always P := by
  induction x generalizing last with
  | done a s => exact h
  | waiting s request resume ih => exact ⟨h.1, fun reply => ih reply (h.2 reply trivial)⟩

end Suspended

namespace Coroutine

variable {σ ι ο ε α β : Type} (C : Contract σ ι ο ε)

/-- Weakest precondition of a procedure: its state, what was last seen, and the environment. -/
def wp (x : Coroutine σ ι ο α) (Q : α → σ → σ × ε → ε → Prop) (s : σ) (last : σ × ε)
    (e : ε) : Prop :=
  (x s).wp C Q last e

variable {C} {Q Q' : α → σ → σ × ε → ε → Prop} {R : β → σ → σ × ε → ε → Prop} {s : σ}
  {last : σ × ε} {e : ε}

theorem wp_mono {x : Coroutine σ ι ο α} (h : x.wp C Q s last e)
    (hQ : ∀ a s last e, Q a s last e → Q' a s last e) : x.wp C Q' s last e :=
  Suspended.wp_mono h hQ

@[simp] theorem wp_pure : (pure a : Coroutine σ ι ο α).wp C Q s last e ↔ Q a s last e :=
  Iff.rfl

@[simp] theorem wp_bind {x : Coroutine σ ι ο α} :
    (x >>= f).wp C R s last e ↔ x.wp C (fun a s last e => (f a).wp C R s last e) s last e :=
  Suspended.wp_bind

@[simp] theorem wp_get {Q : σ → σ → σ × ε → ε → Prop} :
    (get : Coroutine σ ι ο σ).wp C Q s last e ↔ Q s s last e := Iff.rfl

@[simp] theorem wp_modify {Q : Unit → σ → σ × ε → ε → Prop} :
    (modify f : Coroutine σ ι ο Unit).wp C Q s last e ↔ Q () (f s) last e := Iff.rfl

@[simp] theorem wp_await {Q : ο → σ → σ × ε → ε → Prop} :
    (await request : Coroutine σ ι ο ο).wp C Q s last e ↔
      C.seen last (s, e) ∧ ∀ reply, C.admits s request reply →
        Q reply s (s, e) (C.after request reply e) := Iff.rfl

@[simp] theorem wp_ite {c : Prop} [Decidable c] {x y : Coroutine σ ι ο α} :
    (if c then x else y).wp C Q s last e ↔
      (c → x.wp C Q s last e) ∧ (¬ c → y.wp C Q s last e) := by
  split <;> simp_all

end Coroutine
