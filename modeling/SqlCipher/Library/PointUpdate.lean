import Mathlib.Data.List.Nodup
import Mathlib.Logic.Function.Basic
import Mathlib.Tactic.Common

/-!
# Partial updates at points

A map is changed at one point by a function that may not be defined there.
-/

namespace PointUpdate

open Function

variable {ι K X : Type} [DecidableEq K]

/-- Change a map at one point, if `f` is defined there. -/
def onPoint (k : K) (f : X → Option X) (m : K → X) : Option (K → X) :=
  (f (m k)).map (update m k)

theorem onPoint_eq_some {m : K → X} (h : f (m k) = some x) :
    onPoint k f m = some (update m k x) := by
  rw [onPoint, h]
  rfl

theorem onPoint_bind (k : K) (f g : X → Option X) (m : K → X) :
    (onPoint k f m).bind (onPoint k g) = onPoint k (fun x => (f x).bind g) m := by
  simp only [onPoint]
  cases f (m k) with
  | none => rfl
  | some x =>
    change (g (update m k x k)).map _ = (g x).map _
    rw [update_self]
    cases g x with
    | none => rfl
    | some x' => simp

theorem foldlM_onPoint (k : K) (f : ι → X → Option X) (l : List ι) (m : K → X) :
    l.foldlM (fun m i => onPoint k (f i) m) m =
      onPoint k (fun x => l.foldlM (fun x i => f i x) x) m := by
  induction l generalizing m with
  | nil => simp [onPoint]
  | cons i l ih =>
    have hrest := funext ih
    rw [List.foldlM_cons]
    change (onPoint k (f i) m).bind _ = _
    rw [hrest]
    exact onPoint_bind k _ _ m

end PointUpdate
