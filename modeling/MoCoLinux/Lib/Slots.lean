import Mathlib.Logic.Function.Basic

/-!
# Storing a run of values in an array

`fill` stores `v i` at `slot i` for each `i < n`. When the slots are distinct, each keeps its own value, and
every other index keeps what it had.
-/

namespace Slots

open Function

variable {ι V : Type*} [DecidableEq ι] {slot : Nat → ι} {v : Nat → V} {f g : ι → V} {n : Nat} {s : ι}

/-- The array `f` with `v i` stored at `slot i` for each `i < n`, in this order. -/
def fill (slot : Nat → ι) (v : Nat → V) (f : ι → V) : Nat → ι → V
  | 0 => f
  | n + 1 => update (fill slot v f n) (slot n) (v n)

theorem fill_of_ne (hs : ∀ i < n, slot i ≠ s) : fill slot v f n s = f s := by
  induction n with
  | zero => rfl
  | succ n ih =>
    rw [fill, update_of_ne (hs n (by omega)).symm]
    exact ih fun i hi => hs i (by omega)

theorem fill_slot (hinj : ∀ i < n, ∀ j < n, slot i = slot j → i = j) {i : Nat} (hi : i < n) :
    fill slot v f n (slot i) = v i := by
  induction n with
  | zero => omega
  | succ n ih =>
    by_cases hin : i = n
    · subst hin; simp [fill]
    · have hne : slot i ≠ slot n := fun he => hin (hinj i hi n (by omega) he)
      rw [fill, update_of_ne hne]
      exact ih (fun a ha b hb => hinj a (by omega) b (by omega)) (by omega)

theorem fill_succ_left (slot : Nat → ι) (v : Nat → V) (f : ι → V) (n : Nat) :
    fill slot v f (n + 1) = fill (fun i => slot (i + 1)) (fun i => v (i + 1))
      (update f (slot 0) (v 0)) n := by
  induction n with
  | zero => rfl
  | succ n ih => rw [fill, ih, fill]

theorem fill_const_slot (c : V) {i : Nat} (hi : i < n) : fill slot (fun _ => c) f n (slot i) = c := by
  induction n with
  | zero => omega
  | succ n ih =>
    rw [fill]
    by_cases he : slot i = slot n
    · rw [he, update_self]
    · rw [update_of_ne he]
      refine ih (Nat.lt_of_le_of_ne (by omega) ?_)
      rintro rfl
      exact he rfl

end Slots
