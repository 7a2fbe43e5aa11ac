import Mathlib.Data.Finset.Card
import Mathlib.Logic.Function.Basic
import Mathlib.Data.Nat.Find

/-!
# Hash tables with linear probing

A table of `n` slots, each empty or with one value. A value is looked for from its hash on, slot by slot and
around the end, until the probe meets an empty slot or has seen every slot. Nothing is ever removed.
-/

namespace LinearProbing

open Function

variable {V : Type*} {t : Nat → Option V} {n : Nat} {hit : V → Bool} {hash : V → Nat} {v : V}

/-- The lookup: at most `fuel` probes from slot `s` on, for the first value that is a hit. -/
def find (t : Nat → Option V) (n : Nat) (hit : V → Bool) : Nat → Nat → Option V
  | 0, _ => none
  | fuel + 1, s =>
    match t s with
    | none => none
    | some v => if hit v then some v else find t n hit fuel ((s + 1) % n)

/-- The first empty slot within `fuel` probes from slot `s` on. -/
def freeSlot (t : Nat → Option V) (n : Nat) : Nat → Nat → Option Nat
  | 0, _ => none
  | fuel + 1, s =>
    match t s with
    | none => some s
    | some _ => freeSlot t n fuel ((s + 1) % n)

/-- Every stored value is found by probing from its hash: the slots before it are occupied. -/
def Reachable (t : Nat → Option V) (n : Nat) (hash : V → Nat) : Prop :=
  ∀ s < n, ∀ v, t s = some v → ∃ d < n, s = (hash v + d) % n ∧ ∀ j < d, t ((hash v + j) % n) ≠ none

theorem succ_mod (h n : Nat) : (h % n + 1) % n = (h + 1) % n := by
  rw [Nat.add_mod, Nat.mod_mod, ← Nat.add_mod]

theorem find_of_occupied {d : Nat} : ∀ {h fuel}, d < fuel → t ((h + d) % n) = some v → hit v = true →
    (∀ j < d, t ((h + j) % n) ≠ none) →
    (∀ j < d, ∀ v', t ((h + j) % n) = some v' → hit v' = true → v' = v) →
    find t n hit fuel (h % n) = some v := by
  induction d with
  | zero =>
    intro h fuel hfuel hv hhit _ _
    obtain ⟨fuel, rfl⟩ : ∃ f, fuel = f + 1 := ⟨fuel - 1, by omega⟩
    rw [Nat.add_zero] at hv
    simp [find, hv, hhit]
  | succ d ih =>
    intro h fuel hfuel hv hhit hocc huniq
    obtain ⟨fuel, rfl⟩ : ∃ f, fuel = f + 1 := ⟨fuel - 1, by omega⟩
    obtain ⟨v', hv'⟩ := Option.ne_none_iff_exists'.mp (hocc 0 (by omega))
    have hshift : ∀ j, h + 1 + j = h + (j + 1) := fun j => by omega
    by_cases hhit' : hit v' = true
    · have := huniq 0 (by omega) v' hv' hhit'
      rw [Nat.add_zero] at hv'
      simp [find, hv', this, hhit]
    · have hrest := ih (h := h + 1) (by omega : d < fuel) (by rw [hshift]; exact hv) hhit
        (fun j hj => by rw [hshift]; exact hocc (j + 1) (by omega))
        (fun j hj => by rw [hshift]; exact huniq (j + 1) (by omega))
      rw [Nat.add_zero] at hv'
      simp only [find, hv', hhit', Bool.false_eq_true, if_false, succ_mod]
      exact hrest

theorem find_eq_some (hr : Reachable t n hash) {s : Nat} (hs : s < n) (hv : t s = some v)
    (hhit : hit v = true) (huniq : ∀ s' < n, ∀ v', t s' = some v' → hit v' = true → v' = v) :
    find t n hit n (hash v % n) = some v := by
  obtain ⟨d, hd, rfl, hocc⟩ := hr s hs v hv
  exact find_of_occupied hd hv hhit hocc fun j _ v' hv' => huniq _ (Nat.mod_lt _ (by omega)) v' hv'

theorem find_eq_none (hn : 0 < n) (hmiss : ∀ s < n, ∀ v, t s = some v → hit v = false) (fuel : Nat) :
    ∀ {s}, s < n → find t n hit fuel s = none := by
  induction fuel with
  | zero => intro s _; rfl
  | succ fuel ih =>
    intro s hs
    cases hv : t s with
    | none => simp [find, hv]
    | some v =>
      simp only [find, hv, hmiss s hs v hv, Bool.false_eq_true, if_false]
      exact ih (Nat.mod_lt _ hn)

theorem find_congr {hit' : V → Bool} (hn : 0 < n) (heq : ∀ s < n, ∀ v, t s = some v → hit' v = hit v)
    (fuel : Nat) : ∀ {s}, s < n → find t n hit' fuel s = find t n hit fuel s := by
  induction fuel with
  | zero => intro s _; rfl
  | succ fuel ih =>
    intro s hs
    cases hv : t s with
    | none => simp [find, hv]
    | some v => simp only [find, hv, heq s hs v hv, ih (Nat.mod_lt _ hn)]

theorem freeSlot_of_occupied {d : Nat} : ∀ {h fuel}, d < fuel → t ((h + d) % n) = none →
    (∀ j < d, t ((h + j) % n) ≠ none) → freeSlot t n fuel (h % n) = some ((h + d) % n) := by
  induction d with
  | zero =>
    intro h fuel hfuel hv _
    obtain ⟨fuel, rfl⟩ : ∃ f, fuel = f + 1 := ⟨fuel - 1, by omega⟩
    rw [Nat.add_zero] at hv ⊢
    simp [freeSlot, hv]
  | succ d ih =>
    intro h fuel hfuel hv hocc
    obtain ⟨fuel, rfl⟩ : ∃ f, fuel = f + 1 := ⟨fuel - 1, by omega⟩
    obtain ⟨v', hv'⟩ := Option.ne_none_iff_exists'.mp (hocc 0 (by omega))
    have hshift : ∀ j, h + 1 + j = h + (j + 1) := fun j => by omega
    have hrest := ih (h := h + 1) (by omega : d < fuel) (by rw [hshift]; exact hv)
      (fun j hj => by rw [hshift]; exact hocc (j + 1) (by omega))
    rw [Nat.add_zero] at hv'
    simp only [freeSlot, hv', succ_mod]
    rw [hrest, hshift]

theorem exists_probe {s : Nat} (h : Nat) (hs : s < n) : ∃ d < n, (h + d) % n = s := by
  have hr : h % n < n := Nat.mod_lt _ (by omega)
  refine ⟨(s + n - h % n) % n, Nat.mod_lt _ (by omega), ?_⟩
  rw [Nat.add_mod, Nat.mod_mod]
  by_cases hle : h % n ≤ s
  · rw [show s + n - h % n = s - h % n + n by omega, Nat.add_mod_right,
      Nat.mod_eq_of_lt (by omega : s - h % n < n), Nat.add_sub_cancel' hle, Nat.mod_eq_of_lt hs]
  · rw [Nat.mod_eq_of_lt (by omega : s + n - h % n < n), show h % n + (s + n - h % n) = s + n by omega,
      Nat.add_mod_right, Nat.mod_eq_of_lt hs]

theorem freeSlot_eq_some (h : Nat) (hfree : ∃ s < n, t s = none) :
    ∃ d < n, freeSlot t n n (h % n) = some ((h + d) % n) ∧ t ((h + d) % n) = none ∧
      ∀ j < d, t ((h + j) % n) ≠ none := by
  classical
  obtain ⟨s, hs, hnone⟩ := hfree
  obtain ⟨d, hd, rfl⟩ := exists_probe h hs
  have hex : ∃ d, t ((h + d) % n) = none := ⟨d, hnone⟩
  have hle := Nat.find_min' hex hnone
  have hmin : ∀ j < Nat.find hex, t ((h + j) % n) ≠ none := fun j hj => Nat.find_min hex hj
  exact ⟨Nat.find hex, by omega, freeSlot_of_occupied (by omega) (Nat.find_spec hex) hmin,
    Nat.find_spec hex, hmin⟩

theorem Reachable.insert (hr : Reachable t n hash) {d : Nat} (hd : d < n) (hocc : ∀ j < d, t ((hash v + j) % n) ≠ none) :
    Reachable (update t ((hash v + d) % n) (some v)) n hash := by
  have hmono : ∀ s, t s ≠ none → update t ((hash v + d) % n) (some v) s ≠ none := by
    intro s hs
    by_cases he : s = (hash v + d) % n
    · rw [he, update_self]; simp
    · rwa [update_of_ne he]
  intro s hs w hw
  by_cases he : s = (hash v + d) % n
  · rw [he, update_self, Option.some.injEq] at hw
    subst hw
    exact ⟨d, hd, he, fun j hj => hmono _ (hocc j hj)⟩
  · rw [update_of_ne he] at hw
    obtain ⟨e, hen, hse, hocc'⟩ := hr s hs w hw
    exact ⟨e, hen, hse, fun j hj => hmono _ (hocc' j hj)⟩

theorem Reachable.congr {hash' : V → Nat} (hr : Reachable t n hash)
    (heq : ∀ s < n, ∀ v, t s = some v → hash' v = hash v) : Reachable t n hash' := by
  intro s hs v hv
  rw [heq s hs v hv]
  exact hr s hs v hv

def occupied (t : Nat → Option V) (n : Nat) : Nat := ((Finset.range n).filter fun s => (t s).isSome).card

theorem occupied_insert {s : Nat} (hs : s < n) (hnone : t s = none) :
    occupied (update t s (some v)) n = occupied t n + 1 := by
  have hset : ((Finset.range n).filter fun i => (update t s (some v) i).isSome) =
      insert s ((Finset.range n).filter fun i => (t i).isSome) := by
    ext i
    by_cases hi : i = s
    · subst hi; simp [hs]
    · simp [hi]
  rw [occupied, hset, Finset.card_insert_of_notMem (by simp [hnone]), occupied]

theorem exists_free (h : occupied t n < n) : ∃ s < n, t s = none := by
  by_contra hcon
  push Not at hcon
  have hall : ((Finset.range n).filter fun s => (t s).isSome) = Finset.range n :=
    Finset.filter_true_of_mem fun s hs =>
      Option.isSome_iff_ne_none.mpr (hcon s (Finset.mem_range.mp hs))
  rw [occupied, hall, Finset.card_range] at h
  exact Nat.lt_irrefl _ h

theorem occupied_empty (h : ∀ s < n, t s = none) : occupied t n = 0 := by
  rw [occupied, Finset.card_eq_zero, Finset.filter_eq_empty_iff]
  intro s hs
  simp [h s (Finset.mem_range.mp hs)]

end LinearProbing
