import Mathlib.Logic.Basic

/-!
# Runs of a transition system

A state is reached when it is an initial state or follows a reached state by one step. A property that
holds initially and is kept by each step holds in every reached state.
-/

namespace Runs

variable {σ α : Type*}

/-- The states reached from `init` by finitely many steps of `step`. -/
inductive Reach (init : σ → Prop) (step : σ → α → σ → Prop) : σ → Prop where
  | start {s} : init s → Reach init step s
  | next {s a s'} : Reach init step s → step s a s' → Reach init step s'

variable {init : σ → Prop} {step : σ → α → σ → Prop}

/-- The invariant rule. -/
theorem Reach.invariant {P : σ → Prop} (hinit : ∀ s, init s → P s)
    (hstep : ∀ s a s', P s → step s a s' → P s') {s} (h : Reach init step s) : P s := by
  induction h with
  | start h => exact hinit _ h
  | next _ hs ih => exact hstep _ _ _ ih hs

theorem getElem?_of_grown {l l' : List α} {t : Nat} {x : α} (h : l <+: l') (hx : l[t]? = some x) : l'[t]? = some x := by
  obtain ⟨more, rfl⟩ := h
  rw [List.getElem?_append_left (List.getElem?_eq_some_iff.mp hx).1]
  exact hx

end Runs
