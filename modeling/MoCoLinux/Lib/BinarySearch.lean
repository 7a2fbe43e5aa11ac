import Mathlib.Order.Basic

/-!
# Binary search

A probe of an index says whether what is looked for is there (`eq`), lies to the left (`lt`) or to the right
(`gt`). When the probes are sorted around an index, the search returns it.
-/

namespace BinarySearch

variable {probe : Nat → Ordering} {t rounds lo hi : Nat}

/-- The search among the indices from `lo` up to `hi`, `hi` excluded. -/
def search (probe : Nat → Ordering) : Nat → Nat → Nat → Option Nat
  | 0, _, _ => none
  | rounds + 1, lo, hi =>
    if lo < hi then
      let mid := lo + (hi - 1 - lo) / 2
      match probe mid with
      | .lt => search probe rounds lo mid
      | .gt => search probe rounds (mid + 1) hi
      | .eq => some mid
    else none

theorem search_eq_some (heq : probe t = .eq) (hleft : ∀ i < t, probe i = .gt)
    (hright : ∀ i, t < i → probe i = .lt) (rounds : Nat) :
    ∀ {lo hi}, lo ≤ t → t < hi → hi - lo ≤ rounds → search probe rounds lo hi = some t := by
  induction rounds with
  | zero => intro lo hi hlo hhi hr; omega
  | succ rounds ih =>
    intro lo hi hlo hhi hr
    rw [search, if_pos (by omega)]
    rcases Nat.lt_trichotomy (lo + (hi - 1 - lo) / 2) t with hlt | he | hgt
    · simp only [hleft _ hlt]
      exact ih (by omega) hhi (by omega)
    · simp only [he, heq]
    · simp only [hright _ hgt]
      exact ih hlo hgt (by omega)

theorem search_spec (h : search probe rounds lo hi = some t) : lo ≤ t ∧ t < hi ∧ probe t = .eq := by
  induction rounds generalizing lo hi with
  | zero => cases h
  | succ rounds ih =>
    rw [search] at h
    split at h
    · rename_i hlt
      dsimp only at h
      split at h
      · obtain ⟨hlo, hhi, heq⟩ := ih h
        exact ⟨hlo, by omega, heq⟩
      · obtain ⟨hlo, hhi, heq⟩ := ih h
        exact ⟨by omega, hhi, heq⟩
      · rename_i heq
        cases h
        exact ⟨by omega, by omega, heq⟩
    · cases h

theorem search_isSome {n : Nat} (hleft : ∀ i j, i ≤ j → j < n → probe j = .gt → probe i = .gt)
    (hright : ∀ i j, i ≤ j → j < n → probe i = .lt → probe j = .lt) (heq : probe t = .eq) (hlo : lo ≤ t) (hhi : t < hi)
    (hn : hi ≤ n) (hrounds : hi - lo ≤ rounds) : (search probe rounds lo hi).isSome := by
  induction rounds generalizing lo hi with
  | zero => omega
  | succ rounds ih =>
    rw [search, if_pos (by omega)]
    dsimp only
    split
    · rename_i hlt
      -- were the target not to the left of the middle, it would be `lt` too
      refine ih hlo ?_ (by omega) (by omega)
      by_contra hge
      rw [hright _ t (by omega) (by omega) hlt] at heq
      cases heq
    · rename_i hgt
      refine ih ?_ hhi hn (by omega)
      by_contra hle
      rw [hleft t _ (by omega) (by omega) hgt] at heq
      cases heq
    · rfl

end BinarySearch
