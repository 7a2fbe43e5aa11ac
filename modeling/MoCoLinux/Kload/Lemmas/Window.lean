import MoCoLinux.Kload.Window
import MoCoLinux.Lib.Slots

/-!
# What the window calls do

The loops store a run of slots (`windowFill_ok`, `windowClear_eq`) or undo what they stored
(`windowFill_fail`). `windowMap_cases`, `windowMapAt_cases` and `windowUnmap_cases` list every outcome of a
call; what follows about windows is derived from these three.
-/

namespace MoCoLinux.Kload

open Function

variable {k : Kload} {p2m mfns : Nat → Nat} {first n i count pseudo : Nat}

theorem windowSlot_of_lt (h : first + i < 2 ^ 32) : windowSlot first i = first + i := ulong_of_lt h

theorem windowSlot_inj {i j : Nat} (hi : i < 2 ^ 32) (hj : j < 2 ^ 32)
    (h : windowSlot first i = windowSlot first j) : i = j := by
  unfold windowSlot ulong at h; omega

theorem windowFirst_lt (pseudo : Nat) : windowFirst pseudo < 2 ^ 32 := ulong_lt _

theorem windowFirst_eq (h : pseudo / 4096 < 2 ^ 32) : windowFirst pseudo = pseudo / 4096 := by
  rw [windowFirst, Nat.shiftRight_eq_div_pow]
  exact ulong_of_lt h

theorem windowFirst_mod (pseudo : Nat) : windowFirst pseudo = pseudo / 4096 % 2 ^ 32 := by
  rw [windowFirst, Nat.shiftRight_eq_div_pow]; rfl

theorem windowFirst_shiftLeft (h : first < 2 ^ 32) : windowFirst (first <<< 12) = first := by
  rw [windowFirst_mod, Nat.shiftLeft_eq]; omega

theorem windowScan_fst (p2m : Nat → Nat) (first n i : Nat) :
    (windowScan p2m first n i).1 = true ↔ ∀ j < n, p2m (windowSlot first (i + j)) = 0 := by
  induction n generalizing i with
  | zero => simp [windowScan]
  | succ n ih =>
    by_cases h0 : p2m (windowSlot first i) = 0
    · simp only [windowScan, h0, ne_eq, not_true_eq_false, if_false, ih]
      constructor
      · intro h j hj
        cases j with
        | zero => exact h0
        | succ j => have := h j (by omega); rwa [show i + 1 + j = i + (j + 1) by omega] at this
      · intro h j hj
        have := h (j + 1) (by omega)
        rwa [show i + (j + 1) = i + 1 + j by omega] at this
    · simp only [windowScan, ne_eq, h0, not_false_eq_true, if_true, Bool.false_eq_true, false_iff]
      exact fun h => h0 (h 0 (by omega))

theorem windowScan_touched {s : Nat} (h : s ∈ (windowScan p2m first n i).2) :
    ∃ j < i + n, s = windowSlot first j := by
  induction n generalizing i with
  | zero => simp [windowScan] at h
  | succ n ih =>
    rw [windowScan] at h
    split at h
    · rw [List.mem_singleton] at h
      exact ⟨i, by omega, h⟩
    · rcases List.mem_cons.mp h with h | h
      · exact ⟨i, by omega, h⟩
      · obtain ⟨j, hj, hs⟩ := ih h
        exact ⟨j, by omega, hs⟩

theorem windowRollback_touched {s : Nat} (h : s ∈ (windowRollback first i p2m).2) :
    ∃ j < i, s = windowSlot first j := by
  induction i generalizing p2m with
  | zero => simp [windowRollback] at h
  | succ i ih =>
    rcases List.mem_cons.mp h with h | h
    · exact ⟨i, by omega, h⟩
    · obtain ⟨j, hj, hs⟩ := ih h
      exact ⟨j, by omega, hs⟩

theorem windowRollback_apply (first i : Nat) (p2m : Nat → Nat) (s : Nat) :
    (∃ j < i, s = windowSlot first j) ∧ (windowRollback first i p2m).1 s = 0 ∨
      (windowRollback first i p2m).1 s = p2m s ∧ ∀ j < i, s ≠ windowSlot first j := by
  induction i generalizing p2m with
  | zero => exact Or.inr ⟨rfl, by omega⟩
  | succ i ih =>
    rcases ih (update p2m (windowSlot first i) 0) with ⟨⟨j, hj, hs⟩, h0⟩ | ⟨heq, hne⟩
    · exact Or.inl ⟨⟨j, by omega, hs⟩, h0⟩
    · by_cases hs : s = windowSlot first i
      · refine Or.inl ⟨⟨i, by omega, hs⟩, ?_⟩
        rw [windowRollback, heq, hs, update_self]
      · refine Or.inr ⟨?_, fun j hj => ?_⟩
        · rw [windowRollback, heq, update_of_ne hs]
        · rcases Nat.lt_succ_iff_lt_or_eq.mp hj with hj | rfl
          · exact hne j hj
          · exact hs

theorem windowFill_touched {s : Nat} (h : s ∈ (windowFill mfns first n i p2m).2.2) :
    ∃ j < i + n, s = windowSlot first j := by
  induction n generalizing i p2m with
  | zero => simp [windowFill] at h
  | succ n ih =>
    rw [windowFill] at h
    split at h
    · obtain ⟨j, hj, hs⟩ := windowRollback_touched h
      exact ⟨j, by omega, hs⟩
    · rcases List.mem_cons.mp h with h | h
      · exact ⟨i, by omega, h⟩
      · obtain ⟨j, hj, hs⟩ := ih h
        exact ⟨j, by omega, hs⟩

theorem windowFill_ok (h : ∀ j < n, mfns (i + j) ≠ 0) :
    (windowFill mfns first n i p2m).1 = true ∧ (windowFill mfns first n i p2m).2.1 =
      Slots.fill (fun j => windowSlot first (i + j)) (fun j => mfns (i + j)) p2m n := by
  induction n generalizing i p2m with
  | zero => exact ⟨rfl, rfl⟩
  | succ n ih =>
    have h0 : mfns i ≠ 0 := h 0 (by omega)
    have hrest := @ih (update p2m (windowSlot first i) (mfns i)) (i + 1)
      fun j hj => by rw [show i + 1 + j = i + (j + 1) by omega]; exact h (j + 1) (by omega)
    rw [windowFill, if_neg h0, Slots.fill_succ_left]
    refine ⟨hrest.1, hrest.2.trans ?_⟩
    simp only [Nat.add_assoc, Nat.add_comm 1, Nat.add_zero]

theorem windowFill_fail (h : ∃ j < n, mfns (i + j) = 0) :
    (windowFill mfns first n i p2m).1 = false ∧ ∀ s,
      (∃ j < i + n, s = windowSlot first j) ∧ (windowFill mfns first n i p2m).2.1 s = 0 ∨
        (windowFill mfns first n i p2m).2.1 s = p2m s ∧ ∀ j < i, s ≠ windowSlot first j := by
  induction n generalizing i p2m with
  | zero => obtain ⟨j, hj, -⟩ := h; omega
  | succ n ih =>
    by_cases h0 : mfns i = 0
    · simp only [windowFill, h0, if_true, true_and]
      intro s
      rcases windowRollback_apply first i p2m s with ⟨⟨j, hj, hs⟩, hz⟩ | hkeep
      · exact Or.inl ⟨⟨j, by omega, hs⟩, hz⟩
      · exact Or.inr hkeep
    · obtain ⟨j, hj, hz⟩ := h
      have hj0 : j ≠ 0 := by rintro rfl; exact h0 hz
      have hrest := @ih (update p2m (windowSlot first i) (mfns i)) (i + 1)
        ⟨j - 1, by omega, by rwa [show i + 1 + (j - 1) = i + j by omega]⟩
      rw [windowFill, if_neg h0]
      refine ⟨hrest.1, fun s => ?_⟩
      rcases hrest.2 s with ⟨⟨a, ha, hs⟩, hz⟩ | ⟨heq, hne⟩
      · exact Or.inl ⟨⟨a, by omega, hs⟩, hz⟩
      · refine Or.inr ⟨?_, fun a ha => hne a (by omega)⟩
        exact heq.trans (update_of_ne (hne i (by omega)) _ _)

theorem windowClear_eq (p2m : Nat → Nat) (first n i : Nat) :
    (windowClear first n i p2m).1 = Slots.fill (fun j => windowSlot first (i + j)) (fun _ => 0) p2m n := by
  induction n generalizing i p2m with
  | zero => rfl
  | succ n ih =>
    rw [windowClear, Slots.fill_succ_left]
    refine (ih _ _).trans ?_
    simp only [Nat.add_assoc, Nat.add_comm 1, Nat.add_zero]

theorem windowClear_touched {s : Nat} :
    s ∈ (windowClear first n i p2m).2 ↔ ∃ j < n, s = windowSlot first (i + j) := by
  induction n generalizing i p2m with
  | zero => simp [windowClear]
  | succ n ih =>
    rw [windowClear, List.mem_cons, ih]
    constructor
    · rintro (h | ⟨j, hj, h⟩)
      · exact ⟨0, by omega, h⟩
      · exact ⟨j + 1, by omega, by rwa [show i + (j + 1) = i + 1 + j by omega]⟩
    · rintro ⟨_ | j, hj, h⟩
      · exact Or.inl h
      · exact Or.inr ⟨j, by omega, by rwa [show i + 1 + j = i + (j + 1) by omega]⟩

theorem windowFill_cases (mfns : Nat → Nat) (first count : Nat) (p2m : Nat → Nat) :
    ((∀ j < count, mfns j ≠ 0) ∧ ∃ touched, windowFill mfns first count 0 p2m =
      (true, Slots.fill (windowSlot first) mfns p2m count, touched)) ∨
    ∃ p2m' touched, windowFill mfns first count 0 p2m = (false, p2m', touched) ∧
      ∀ s, (∃ j < count, s = windowSlot first j) ∧ p2m' s = 0 ∨ p2m' s = p2m s := by
  rcases hf : windowFill mfns first count 0 p2m with ⟨done, p2m', touched⟩
  by_cases hz : ∀ j < count, mfns (0 + j) ≠ 0
  · have hok := @windowFill_ok p2m mfns first count 0 hz
    simp only [hf, Nat.zero_add] at hok hz
    exact Or.inl ⟨hz, touched, by rw [hok.1, hok.2]⟩
  · push Not at hz
    have hfail := @windowFill_fail p2m mfns first count 0 hz
    simp only [hf, Nat.zero_add] at hfail
    exact Or.inr ⟨p2m', touched, by rw [hfail.1], fun s => (hfail.2 s).imp_right And.left⟩

theorem windowMap_cases (k : Kload) (mfns : Option (Nat → Nat)) (count : Nat) :
    (∃ rc, rc ≠ .ok ∧ k.windowMap mfns count = .refuse rc k) ∨
    ∃ f p2m first touched, mfns = some f ∧ count ≠ 0 ∧ k.p2m = some p2m ∧ first + count = k.windowNext ∧
      k.windowBasePages ≤ first ∧
      (((∀ j < count, f j ≠ 0) ∧ k.windowMap mfns count =
          ⟨.ok, { k with p2m := some (Slots.fill (windowSlot first) f p2m count), windowNext := first },
            first <<< 12, touched⟩) ∨
        ∃ p2m', (∀ s, (∃ j < count, s = windowSlot first j) ∧ p2m' s = 0 ∨ p2m' s = p2m s) ∧
          k.windowMap mfns count = ⟨.invalidParameter, { k with p2m := some p2m' }, 0, touched⟩) := by
  cases mfns with
  | none => exact Or.inl ⟨_, by decide, rfl⟩
  | some f =>
    by_cases h0 : count = 0
    · exact Or.inl ⟨.invalidParameter, by decide, by simp [windowMap, h0]⟩
    cases hp : k.p2m with
    | none => exact Or.inl ⟨.error, by decide, by simp [windowMap, h0, hp]⟩
    | some p2m =>
      by_cases hmeet : k.windowNext < count ∨ k.windowNext - count < k.windowBasePages
      · exact Or.inl ⟨.outOfMemory, by decide, by simp only [windowMap, h0, hp, if_false, if_pos hmeet]⟩
      right
      rcases windowFill_cases f (k.windowNext - count) count p2m with
        ⟨hz, touched, hf⟩ | ⟨p2m', touched, hf, hsame⟩
      · refine ⟨f, p2m, k.windowNext - count, touched, rfl, h0, rfl, by omega, by omega, Or.inl ⟨hz, ?_⟩⟩
        simp only [windowMap, h0, hp, if_false, if_neg hmeet, hf]
      · refine ⟨f, p2m, k.windowNext - count, touched, rfl, h0, rfl, by omega, by omega,
          Or.inr ⟨p2m', hsame, ?_⟩⟩
        simp only [windowMap, h0, hp, if_false, if_neg hmeet, hf]

theorem windowMapAt_cases (k : Kload) (mfns : Option (Nat → Nat)) (count pseudo : Nat) :
    (∃ rc touched, rc ≠ .ok ∧ k.windowMapAt mfns count pseudo = ⟨rc, k, 0, touched⟩) ∨
    ∃ f p2m touched, mfns = some f ∧ count ≠ 0 ∧ pseudo % 4096 = 0 ∧ k.p2m = some p2m ∧
      ¬ k.windowOutOfBounds (windowFirst pseudo) count ∧
      (∀ j < count, p2m (windowSlot (windowFirst pseudo) j) = 0) ∧ (∀ j < count, f j ≠ 0) ∧
      k.windowMapAt mfns count pseudo =
        ⟨.ok, { k with p2m := some (Slots.fill (windowSlot (windowFirst pseudo)) f p2m count) }, 0,
          touched⟩ := by
  have hand : pseudo &&& (Arch.pageSize - 1) = pseudo % 4096 := Nat.and_two_pow_sub_one_eq_mod pseudo 12
  cases mfns with
  | none => exact Or.inl ⟨_, _, by decide, rfl⟩
  | some f =>
    by_cases h0 : count = 0 ∨ pseudo &&& (Arch.pageSize - 1) ≠ 0
    · exact Or.inl ⟨.invalidParameter, [], by decide, by simp only [windowMapAt, if_pos h0]; rfl⟩
    have h0' := h0
    rw [hand] at h0'
    cases hp : k.p2m with
    | none => exact Or.inl ⟨.error, [], by decide, by simp only [windowMapAt, if_neg h0, hp]; rfl⟩
    | some p2m =>
      by_cases hb : k.windowOutOfBounds (windowFirst pseudo) count
      · exact Or.inl ⟨.invalidParameter, [], by decide, by
          simp only [windowMapAt, if_neg h0, hp, if_pos hb]; rfl⟩
      rcases hs : windowScan p2m (windowFirst pseudo) count 0 with ⟨_ | _, touched⟩
      · exact Or.inl ⟨.outOfMemory, touched, by decide, by
          simp only [windowMapAt, if_neg h0, hp, if_neg hb, hs]⟩
      · have hvac := (windowScan_fst p2m (windowFirst pseudo) count 0).mp (by rw [hs])
        simp only [Nat.zero_add] at hvac
        rcases windowFill_cases f (windowFirst pseudo) count p2m with
          ⟨hz, touched', hf⟩ | ⟨p2m', touched', hf, hsame⟩
        · refine Or.inr ⟨f, p2m, touched ++ touched', rfl, by tauto, by tauto, rfl, hb, hvac, hz, ?_⟩
          simp only [windowMapAt, if_neg h0, hp, if_neg hb, hs, hf]
        · have hback : p2m' = p2m := by
            funext s
            rcases hsame s with ⟨⟨j, hj, rfl⟩, hz⟩ | h
            · rw [hz, hvac j hj]
            · exact h
          refine Or.inl ⟨.invalidParameter, touched ++ touched', by decide, ?_⟩
          simp only [windowMapAt, if_neg h0, hp, if_neg hb, hs, hf, hback]
          rw [← hp]

theorem windowMapAt_touched {mfns : Option (Nat → Nat)} {s : Nat}
    (h : s ∈ (k.windowMapAt mfns count pseudo).touched) :
    k.p2m ≠ none ∧ ¬ k.windowOutOfBounds (windowFirst pseudo) count ∧
      ∃ j < count, s = windowSlot (windowFirst pseudo) j := by
  unfold windowMapAt at h
  cases mfns with
  | none => simp [WindowCall.refuse] at h
  | some f =>
    dsimp only at h
    split at h
    · simp [WindowCall.refuse] at h
    cases hp : k.p2m with
    | none => simp [hp, WindowCall.refuse] at h
    | some p2m =>
      simp only [hp] at h
      split at h
      · simp [WindowCall.refuse] at h
      next hb =>
        have hscan := @windowScan_touched p2m (windowFirst pseudo) count 0 s
        have hfill := @windowFill_touched p2m f (windowFirst pseudo) count 0 s
        rw [Nat.zero_add] at hscan hfill
        refine ⟨by simp, hb, ?_⟩
        rcases hsc : windowScan p2m (windowFirst pseudo) count 0 with ⟨_ | _, touched⟩
        · rw [hsc] at h hscan
          exact hscan h
        · rcases hf : windowFill f (windowFirst pseudo) count 0 p2m with ⟨_ | _, p2m', touched'⟩ <;>
            simp only [hsc, hf, List.mem_append] at h hscan hfill <;>
            exact h.elim hscan hfill

theorem windowMapAt_ok (h0 : count ≠ 0) (hal : pseudo % 4096 = 0) (hp : k.p2m = some p2m)
    (hb : ¬ k.windowOutOfBounds (windowFirst pseudo) count)
    (hvac : ∀ j < count, p2m (windowSlot (windowFirst pseudo) j) = 0) (hz : ∀ j < count, mfns j ≠ 0) :
    (k.windowMapAt (some mfns) count pseudo).rc = .ok := by
  have hand : pseudo &&& (Arch.pageSize - 1) = pseudo % 4096 := Nat.and_two_pow_sub_one_eq_mod pseudo 12
  have hscan := (windowScan_fst p2m (windowFirst pseudo) count 0).mpr (by simpa using hvac)
  rcases hs : windowScan p2m (windowFirst pseudo) count 0 with ⟨vacant, touched⟩
  rw [hs] at hscan
  obtain ⟨hok, -⟩ := @windowFill_ok p2m mfns (windowFirst pseudo) count 0 (by simpa using hz)
  rcases hf : windowFill mfns (windowFirst pseudo) count 0 p2m with ⟨done, p2m', touched'⟩
  rw [hf] at hok
  simp only at hscan hok
  subst hscan hok
  simp [windowMapAt, hand, h0, hal, hp, hb, hs, hf]

theorem windowUnmap_cases (k : Kload) (pseudo count : Nat) :
    ((count = 0 ∨ k.p2m = none ∨ k.windowOutOfBounds (windowFirst pseudo) count) ∧
      k.windowUnmap pseudo count = (k, [])) ∨
    ∃ p2m touched, count ≠ 0 ∧ k.p2m = some p2m ∧ ¬ k.windowOutOfBounds (windowFirst pseudo) count ∧
      (∀ s, s ∈ touched ↔ ∃ j < count, s = windowSlot (windowFirst pseudo) j) ∧
      k.windowUnmap pseudo count =
        ({ k with
            p2m := some (Slots.fill (windowSlot (windowFirst pseudo)) (fun _ => 0) p2m count)
            windowNext := if windowFirst pseudo = k.windowNext then ulong (k.windowNext + count)
              else k.windowNext }, touched) := by
  by_cases h0 : count = 0
  · exact Or.inl ⟨Or.inl h0, by simp [windowUnmap, h0]⟩
  cases hp : k.p2m with
  | none => exact Or.inl ⟨Or.inr (Or.inl rfl), by simp [windowUnmap, h0, hp]⟩
  | some p2m =>
    by_cases hb : k.windowOutOfBounds (windowFirst pseudo) count
    · exact Or.inl ⟨Or.inr (Or.inr hb), by simp [windowUnmap, h0, hp, hb]⟩
    · refine Or.inr ⟨p2m, (windowClear (windowFirst pseudo) count 0 p2m).2, h0, rfl, hb, fun s => ?_, ?_⟩
      · simpa using @windowClear_touched p2m (windowFirst pseudo) count 0 s
      · have hc := windowClear_eq p2m (windowFirst pseudo) count 0
        simp only [Nat.zero_add] at hc
        simp only [windowUnmap, h0, hp, hb, if_false, ← hc]

end MoCoLinux.Kload
