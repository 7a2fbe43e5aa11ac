import MoCoLinux.Kload.Lemmas.Arena

/-!
# Host memory windows: results
-/

namespace MoCoLinux.Kload

/-- In every run whose calls are allowed, the live windows are pairwise disjoint, hold the frames they were
mapped with, and are not touched by a map call that fails. -/
theorem windows_intact {s : Arena} (h : Arena.Reachable Arena.Allowed s) :
    s.Intact ∧ ∀ op, s.Allowed op → s.FailureKeeps op :=
  ⟨h.inv.intact, fun _ hok => h.inv.failureKeeps hok⟩

def loaded : Kload :=
  { initial with
    p2m := some fun _ => 0
    p2mCapacity := 0x108000
    windowNext := 0x108000
    windowBasePages := 0x8000 }

theorem loaded_start : Arena.Start ⟨loaded, []⟩ := ⟨rfl, rfl, by decide⟩

def placedBelow : Arena :=
  ((⟨loaded, []⟩ : Arena).mapAt (some fun _ => 5) 1 (0x8000 <<< 12)).map (some fun _ => 7) 1

theorem windows_intact_placedBelow : placedBelow.live.length = 2 ∧ placedBelow.Intact := by
  have hat : Arena.Allowed ⟨loaded, []⟩ (.mapAt (some fun _ => 5) 1 (0x8000 <<< 12)) :=
    (by decide : 0x8000 <<< 12 / 4096 ≤ 0x108000)
  refine ⟨rfl, (windows_intact (Runs.Reach.next (.next (.start loaded_start) ⟨hat, .mapAt⟩) ⟨?_, .map⟩)).1⟩
  intro _ w hw _ i hi
  have hlive : w ∈ [(⟨0x8000 <<< 12, 1, fun _ => 5, true⟩ : Window)] := hw
  rw [List.mem_singleton] at hlive
  subst hlive
  obtain rfl : i = 0 := by simp only at hi; omega
  exact Or.inl (by decide)

def placedAtTop : Arena :=
  ((⟨loaded, []⟩ : Arena).mapAt (some fun _ => 5) 1 (0x107fff <<< 12)).map (some fun _ => 7) 1

/-- `co_kload_window_map` takes pages a placed window already has: both calls succeed, the two windows share
a slot, and the slot of the first holds the frame of the second. -/
theorem windows_overlap :
    Arena.Reachable (fun _ _ => True) placedAtTop ∧ placedAtTop.live.length = 2 ∧
      ¬ placedAtTop.live.Pairwise Window.Disjoint ∧ ¬ ∀ w ∈ placedAtTop.live, placedAtTop.Holds w := by
  refine ⟨.next (.next (.start loaded_start) ⟨trivial, .mapAt⟩) ⟨trivial, .map⟩, rfl, fun hdis => ?_, fun hold => ?_⟩
  · have hpair := (List.pairwise_cons.mp hdis).1 ⟨0x107fff <<< 12, 1, fun _ => 5, true⟩
      (List.mem_singleton.mpr rfl)
    exact hpair 0 (by decide) 0 (by decide) rfl
  · have hw := (hold ⟨0x107fff <<< 12, 1, fun _ => 5, true⟩ (List.mem_cons_of_mem _ (List.mem_singleton.mpr rfl)))
    have h75 : (7 : Nat) = 5 := hw.p2m_eq rfl (i := 0) (by decide)
    omega

/-- What a call may do with the p2m: read and write inside the arena, and accept only a range of pages that
lies inside the arena as natural numbers. -/
structure WindowCallsInside (k : Kload) (pseudo count : Nat) : Prop where
  mapAt : ∀ mfns, ∀ i ∈ (k.windowMapAt mfns count pseudo).touched,
    k.windowBasePages ≤ i ∧ i < k.p2mCapacity
  unmap : ∀ i ∈ (k.windowUnmap pseudo count).2, k.windowBasePages ≤ i ∧ i < k.p2mCapacity
  accepted : ∀ mfns, (k.windowMapAt mfns count pseudo).rc = .ok →
    k.windowBasePages ≤ pseudo / 4096 ∧ pseudo / 4096 + count ≤ k.p2mCapacity

/-- The bounds test refuses the arguments, or the truncated page number is not above the p2m and either nothing was
truncated or the map is refused for another reason. -/
def WindowArgsSound (k : Kload) (pseudo count : Nat) : Prop :=
  count = 0 ∨ k.p2m = none ∨ k.windowOutOfBounds (windowFirst pseudo) count ∨
    windowFirst pseudo ≤ k.p2mCapacity ∧
      (pseudo / 4096 < 2 ^ 32 ∨ pseudo % 4096 ≠ 0 ∨
        ∃ p2m, k.p2m = some p2m ∧ ∃ i < count, p2m (windowFirst pseudo + i) ≠ 0)

theorem WindowCallsInside.sound {k : Kload} {pseudo count : Nat} (hcap : k.p2mCapacity < 2 ^ 32)
    (h : k.WindowCallsInside pseudo count) : k.WindowArgsSound pseudo count := by
  rcases k.windowUnmap_cases pseudo count with ⟨h0 | hp | hb, -⟩ | ⟨p2m, touched, h0, hp, hb, ht, hr⟩
  · exact Or.inl h0
  · exact Or.inr (Or.inl hp)
  · exact Or.inr (Or.inr (Or.inl hb))
  refine Or.inr (Or.inr (Or.inr ?_))
  have hfirst := windowFirst_lt pseudo
  -- the unmap clears the first slot, so that slot is in the arena
  have hslot : windowSlot (windowFirst pseudo) 0 = windowFirst pseudo := windowSlot_of_lt (by omega)
  have hin := h.unmap (windowSlot (windowFirst pseudo) 0) (by
    rw [hr]; exact (ht _).mpr ⟨0, by omega, rfl⟩)
  rw [hslot] at hin
  refine ⟨hin.2.le, ?_⟩
  by_contra hcon
  push Not at hcon
  obtain ⟨htrunc, hal, hvac⟩ := hcon
  obtain ⟨hbase, htop⟩ := bounds_of_le hb hin.2.le hcap
  have hok := @windowMapAt_ok k p2m (fun _ => 1) count pseudo h0 hal hp hb (fun j hj => by
    rw [windowSlot_of_lt (by omega)]; exact hvac p2m hp j hj) (fun _ _ => Nat.one_ne_zero)
  have := (h.accepted _ hok).2
  omega

theorem WindowArgsSound.inside {k : Kload} {pseudo count : Nat} (hcap : k.p2mCapacity < 2 ^ 32)
    (h : k.WindowArgsSound pseudo count) : k.WindowCallsInside pseudo count := by
  -- past the bounds test the truncated page number is not above the p2m, so no slot wraps around
  have hin : count ≠ 0 → k.p2m ≠ none → ¬ k.windowOutOfBounds (windowFirst pseudo) count →
      k.windowBasePages ≤ windowFirst pseudo ∧ windowFirst pseudo + count ≤ k.p2mCapacity := by
    intro h0 hp hb
    rcases h with h | h | h | h
    · exact absurd h h0
    · exact absurd h hp
    · exact absurd h hb
    · exact bounds_of_le hb h.1 hcap
  refine ⟨fun mfns i hi => ?_, fun i hi => ?_, fun mfns hok => ?_⟩
  · obtain ⟨hp, hb, j, hj, rfl⟩ := windowMapAt_touched hi
    obtain ⟨hbase, htop⟩ := hin (by omega) hp hb
    rw [windowSlot_of_lt (by omega)]
    omega
  · rcases k.windowUnmap_cases pseudo count with ⟨-, hr⟩ | ⟨p2m, touched, h0, hp, hb, ht, hr⟩
    · simp [hr] at hi
    · rw [hr] at hi
      obtain ⟨j, hj, rfl⟩ := (ht i).mp hi
      obtain ⟨hbase, htop⟩ := hin h0 (by simp [hp]) hb
      rw [windowSlot_of_lt (by omega)]
      omega
  · rcases k.windowMapAt_cases mfns count pseudo with ⟨rc, touched, hrc, hr⟩ |
      ⟨f, p2m, touched, rfl, h0, hal, hp, hb, hvac, hz, hr⟩
    · rw [hr] at hok
      exact absurd hok hrc
    · obtain ⟨hbase, htop⟩ := hin h0 (by simp [hp]) hb
      have hlt : pseudo / 4096 < 2 ^ 32 := by
        rcases h with h | h | h | ⟨-, h | h | ⟨q, hq, i, hi, hne⟩⟩
        · exact absurd h h0
        · simp [hp] at h
        · exact absurd h hb
        · exact h
        · exact absurd hal h
        · rw [hp, Option.some.injEq] at hq
          subst hq
          have := hvac i hi
          rw [windowSlot_of_lt (by omega)] at this
          exact absurd this hne
      rw [windowFirst_eq hlt] at hbase htop
      exact ⟨hbase, htop⟩

/-- The exact condition under which `co_kload_window_map_at` and `co_kload_window_unmap` stay inside the
arena. -/
theorem windowCallsInside_iff (k : Kload) (pseudo count : Nat) (hcap : k.p2mCapacity < 2 ^ 32) :
    k.WindowCallsInside pseudo count ↔ k.WindowArgsSound pseudo count :=
  ⟨fun h => h.sound hcap, fun h => h.inside hcap⟩

theorem windowCallsInside_loaded : loaded.WindowCallsInside (0x8000 <<< 12) 2 :=
  (windowCallsInside_iff loaded _ _ (by decide)).mpr (Or.inr (Or.inr (Or.inr ⟨by decide, Or.inl (by decide)⟩)))

/-- The bounds test wraps around for the last page number, so an unmap there writes far above the p2m; and `2 ^ 44`
bytes above a vacant page the page number is truncated to that page, so a map is accepted. -/
theorem windowCalls_outside :
    ¬ loaded.WindowCallsInside (0xffffffff <<< 12) 1 ∧
      ¬ loaded.WindowCallsInside (0x8000 <<< 12 + 2 ^ 44) 1 := by
  refine ⟨fun h => ?_, fun h => ?_⟩
  · have hwrite : 0xffffffff ∈ (loaded.windowUnmap (0xffffffff <<< 12) 1).2 := by decide
    exact absurd (h.unmap _ hwrite).2 (by decide)
  · have hok : (loaded.windowMapAt (some fun _ => 5) 1 (0x8000 <<< 12 + 2 ^ 44)).rc = .ok := by decide
    exact absurd (h.accepted _ hok).2 (by decide)

end MoCoLinux.Kload
