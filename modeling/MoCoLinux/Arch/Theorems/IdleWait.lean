import MoCoLinux.Arch.IdleWait

/-!
# The idle wait: results
-/

namespace MoCoLinux.Arch.IdleWait

variable {deadline tickDue clock now start gd : Nat} {p : Pass}

theorem Published.le (h : Published now gd) : gd ≤ now + 1000000000 := by
  rcases h with rfl | ⟨stamp, delta, hstamp, hdelta, rfl⟩
  · omega
  · omega

theorem nextDue_le (h : tickDue ≤ now + guestTick) : nextDue tickDue now ≤ now + guestTick := by
  rw [nextDue]
  split
  · exact Nat.le_refl _
  · exact h

theorem lt_nextDue : now < nextDue tickDue now := by
  rw [nextDue]
  split
  · simp only [guestTick]
    omega
  · omega

theorem waitMs_tick (h : tickDue ≤ now + guestTick) : waitMs (nextDue tickDue now) now = 1 := by
  have hle := nextDue_le h
  have hlt : now < nextDue tickDue now := lt_nextDue
  simp only [guestTick] at hle
  have hdiv : (nextDue tickDue now - now + 9999) / 10000 = 1 := by omega
  rw [waitMs, hdiv]
  decide

theorem waitMs_far (hgd : now + 9000 ≤ gd) (hmax : gd ≤ now + 1000000000) :
    waitMs gd now = (gd - now + 9999) / 10000 := by
  have hpos : (gd - now + 9999) / 10000 ≠ 0 := by omega
  have hword : u32 ((gd - now + 9999) / 10000) = (gd - now + 9999) / 10000 := u32_of_lt (by omega)
  rw [waitMs, hword, if_neg hpos]

theorem untilEnd_near {hires : Bool} (hstart : now ≤ start) (hgd : gd < now + 9000) :
    spin (untilEnd hires start gd) gd ≤ start + guestTick := by
  have hend : untilEnd hires start gd ≤ start + guestTick := by
    simp only [untilEnd, timedEnd, guestTick]
    split
    · omega
    · split
      · omega
      · split <;> omega
  rw [spin]
  split
  · simp only [guestTick]
    omega
  · exact hend

theorem Wait.le_finish (w : Wait) (hires : Bool) (start : Nat) : start ≤ w.finish hires start := by
  have hspin : ∀ e gd, e ≤ spin e gd := by
    intro e gd
    rw [spin]
    split
    · omega
    · exact Nat.le_refl _
  cases w with
  | skip => exact Nat.le_refl _
  | timed msecs => exact Nat.le_add_right _ _
  | toDeadline gd =>
    refine Nat.le_trans ?_ (hspin _ _)
    rw [untilEnd]
    split
    · exact Nat.le_refl _
    · split
      · omega
      · exact Nat.le_add_right _ _

theorem within_iff_near (hdue : tickDue ≤ p.now + guestTick) (hstart : p.now ≤ p.start)
    (hgd : ∀ gd, p.gd = some gd → Published p.now gd) : Within deadline (p.start, p.finish tickDue) ↔ Near deadline p := by
  have hshort : ∀ e, e ≤ p.start + guestTick → Within deadline (p.start, e) := fun e he =>
    Nat.le_trans he (Nat.add_le_add_right (Nat.le_max_right _ _) _)
  have htick : Within deadline (p.start, timedEnd p.start (waitMs (nextDue tickDue p.now) p.now)) := by
    rw [waitMs_tick hdue]
    exact hshort _ (Nat.le_refl _)
  rcases hread : p.gd with _ | gd
  · rw [Pass.finish, hread]
    refine iff_of_true htick fun gd h => ?_
    rw [hread] at h
    cases h
  · have hmax := (hgd gd hread).le
    have hnear : gd < p.now + 9000 → Near deadline p := by
      intro h gd' hgd' hfar
      rw [hread] at hgd'
      cases hgd'
      exact absurd hfar (Nat.not_le.mpr h)
    rw [Pass.finish, hread, chooseWait]
    split
    case isTrue hzero => exact iff_of_true htick (hnear (by omega))
    case isFalse =>
      split
      case isTrue hpast => exact iff_of_true (hshort _ (Nat.le_add_right _ _)) (hnear (by omega))
      case isFalse hahead =>
        split
        case isTrue hfar =>
          have hlong : p.now + 9000 ≤ gd := by omega
          rw [Wait.finish, waitMs_far hlong hmax]
          refine ⟨fun h gd' hgd' _ => ?_, fun h => h gd hread hlong⟩
          rw [hread] at hgd'
          cases hgd'
          exact h
        case isFalse hclose =>
          exact iff_of_true (hshort _ (untilEnd_near hstart (by omega))) (hnear (by omega))

theorem waits_within_iff (passes : List Pass) (hdue : tickDue ≤ clock + guestTick)
    (h : Runs deadline tickDue clock passes) :
    (∀ w ∈ waits tickDue passes, Within deadline w) ↔ ∀ p ∈ passes, Near deadline p := by
  induction passes generalizing tickDue clock with
  | nil => simp [waits]
  | cons p rest ih =>
    obtain ⟨hclock, -, hnow, hstart, hgd, hrest⟩ := h
    have hdue' : tickDue ≤ p.now + guestTick := by omega
    have hend : p.start ≤ p.finish tickDue := Wait.le_finish _ _ _
    have hnext := nextDue_le hdue'
    rw [waits, List.forall_mem_cons, List.forall_mem_cons, within_iff_near hdue' hstart hgd, ih (by omega) hrest]

/-- No wait of the boot vCPU's loop outlasts the run deadline by more than a tick exactly if no deadline of the guest
reaches further. -/
theorem idle_waits_within_iff (deadline : Nat) (passes : List Pass) (h : Runs deadline 0 0 passes) :
    (∀ w ∈ waits 0 passes, Within deadline w) ↔ ∀ p ∈ passes, Near deadline p :=
  waits_within_iff passes (Nat.zero_le _) h

def shortWaits : List Pass :=
  [⟨0, 0, 10, some 0, true⟩, ⟨10010, 10010, 10010, some 12010, false⟩, ⟨20020, 20020, 20025, some 50020, true⟩]

theorem idle_waits_within_short : waits 0 shortWaits = [(10, 10010), (10010, 20010), (20025, 50025)] ∧
    ((∀ w ∈ waits 0 shortWaits, Within 10000000 w) ↔ ∀ p ∈ shortWaits, Near 10000000 p) := by
  refine ⟨by decide, idle_waits_within_iff _ _ ?_⟩
  simp only [shortWaits, Runs, Option.some.injEq, forall_eq']
  refine ⟨by decide, by decide, by decide, by decide, .inl rfl, by decide, by decide, by decide, by decide,
    .inr ⟨10010, 2000, by decide⟩, by decide, by decide, by decide, by decide, .inr ⟨20020, 30000, by decide⟩, trivial⟩

def longWait : Pass := ⟨5000000, 5000000, 5000000, some 1005000000, true⟩

/-- The wait ends 99.5 s after the run deadline. -/
theorem idle_wait_beyond : Runs 10000000 0 0 [longWait] ∧ waits 0 [longWait] = [(5000000, 1005000000)] ∧
    ¬Within 10000000 (5000000, 1005000000) := by
  refine ⟨?_, by decide, by decide⟩
  simp only [longWait, Runs, Option.some.injEq, forall_eq']
  exact ⟨by decide, by decide, by decide, by decide, .inr ⟨5000000, 1000000000, by decide⟩, trivial⟩

end MoCoLinux.Arch.IdleWait
