import MoCoLinux.Kload.Arena
import MoCoLinux.Kload.Lemmas.Window

/-!
# The windows stay apart
-/

namespace MoCoLinux.Kload

variable {k : Kload} {w v : Window} {s s' : Arena} {p2m p2m' : Nat → Nat}

theorem Window.Disjoint.symm (h : w.Disjoint v) : v.Disjoint w :=
  fun i hi j hj he => h j hj i hi he.symm

structure Window.Inside (k : Kload) (w : Window) : Prop where
  count : w.count ≠ 0
  base : k.windowBasePages ≤ windowFirst w.pseudo
  top : windowFirst w.pseudo + w.count ≤ k.p2mCapacity
  nonzero : ∀ i < w.count, w.mfns i ≠ 0

theorem Window.Inside.of_bounds {k' : Kload} (h : w.Inside k) (hb : k'.windowBasePages = k.windowBasePages)
    (hc : k'.p2mCapacity = k.p2mCapacity) : w.Inside k' :=
  ⟨h.count, hb ▸ h.base, hc ▸ h.top, h.nonzero⟩

theorem bounds_of_le {first count : Nat} (hb : ¬ k.windowOutOfBounds first count)
    (hle : first ≤ k.p2mCapacity) (hcap : k.p2mCapacity < 2 ^ 32) :
    k.windowBasePages ≤ first ∧ first + count ≤ k.p2mCapacity := by
  rw [windowOutOfBounds, ulongSub_of_le hle hcap] at hb
  omega

theorem Window.Inside.slot_eq (h : w.Inside k) (hcap : k.p2mCapacity < 2 ^ 32) {i : Nat} (hi : i < w.count) :
    w.slot i = windowFirst w.pseudo + i :=
  windowSlot_of_lt (by have := h.top; omega)

namespace Arena

structure Inv (s : Arena) : Prop where
  capacity : s.k.p2mCapacity < 2 ^ 32
  next : s.k.windowNext ≤ s.k.p2mCapacity
  inside : ∀ w ∈ s.live, w.Inside s.k
  above : ∀ w ∈ s.live, w.placed = false → s.k.windowNext ≤ windowFirst w.pseudo
  intact : s.Intact

theorem Start.inv (h : s.Start) : s.Inv where
  capacity := h.capacity
  next := h.next.le
  inside := by simp [h.live]
  above := by simp [h.live]
  intact := ⟨by simp [h.live], by simp [h.live]⟩

theorem Inv.slot_eq (h : s.Inv) (hw : w ∈ s.live) {i : Nat} (hi : i < w.count) :
    w.slot i = windowFirst w.pseudo + i := (h.inside w hw).slot_eq h.capacity hi

theorem Holds.p2m_eq (h : s.Holds w) (hp : s.k.p2m = some p2m) {i : Nat} (hi : i < w.count) :
    p2m (w.slot i) = w.mfns i := by
  obtain ⟨q, hq, hold⟩ := h
  rw [hp, Option.some.injEq] at hq
  exact hq ▸ hold i hi

theorem Holds.congr (h : s.Holds w) (hp : s.k.p2m = some p2m) (hp' : s'.k.p2m = some p2m')
    (hsame : ∀ i < w.count, p2m' (w.slot i) = p2m (w.slot i)) : s'.Holds w :=
  ⟨p2m', hp', fun i hi => (hsame i hi).trans (h.p2m_eq hp hi)⟩

theorem Inv.add (h : s.Inv) (next : Nat) (hin : w.Inside s.k) (hp : s.k.p2m = some p2m)
    (hnext : next ≤ s.k.windowNext) (habove : w.placed = false → next ≤ windowFirst w.pseudo)
    (hdis : ∀ v ∈ s.live, w.Disjoint v) :
    Inv ⟨{ s.k with
        p2m := some (Slots.fill (windowSlot (windowFirst w.pseudo)) w.mfns p2m w.count)
        windowNext := next }, w :: s.live⟩ := by
  have hcap := h.capacity
  have htop := hin.top
  refine ⟨hcap, hnext.trans h.next, ?_, ?_, ⟨List.pairwise_cons.mpr ⟨hdis, h.intact.disjoint⟩, ?_⟩⟩
  · simp only [List.mem_cons, forall_eq_or_imp]
    exact ⟨hin.of_bounds rfl rfl, fun v hv => (h.inside v hv).of_bounds rfl rfl⟩
  · simp only [List.mem_cons, forall_eq_or_imp]
    exact ⟨habove, fun v hv hvp => hnext.trans (h.above v hv hvp)⟩
  · simp only [List.mem_cons, forall_eq_or_imp]
    refine ⟨⟨_, rfl, fun i hi => ?_⟩, fun v hv => (h.intact.holds v hv).congr hp rfl fun i hi => ?_⟩
    · exact Slots.fill_slot (fun a ha b hb => windowSlot_inj (by omega) (by omega)) hi
    · exact Slots.fill_of_ne fun j hj he => hdis v hv j hj i hi he

/-- The pages below the watermark belong to no live window: windows of the downward allocator are above it,
and the call is allowed only when no placed window is below it. -/
theorem Inv.map_vacant (h : s.Inv) {mfns count first} (hok : s.Allowed (.map mfns count))
    (hfirst : first + count = s.k.windowNext) (hw : w ∈ s.live) {i j : Nat} (hi : i < w.count)
    (hj : j < count) : w.slot i ≠ windowSlot first j := by
  have hcap := h.capacity
  have hnext := h.next
  rw [windowSlot_of_lt (by omega)]
  cases hp : w.placed with
  | false =>
    have := h.above w hw hp
    rw [h.slot_eq hw hi]; omega
  | true =>
    have := hok (by omega) w hw hp i hi
    omega

theorem Inv.map_rollback (h : s.Inv) {mfns count first} (hok : s.Allowed (.map mfns count))
    (hfirst : first + count = s.k.windowNext)
    (hback : ∀ i, (∃ j < count, i = windowSlot first j) ∧ p2m' i = 0 ∨ p2m' i = p2m i) (hw : w ∈ s.live)
    {i : Nat} (hi : i < w.count) : p2m' (w.slot i) = p2m (w.slot i) := by
  rcases hback (w.slot i) with ⟨⟨j, hj, he⟩, -⟩ | he
  · exact absurd he (h.map_vacant hok hfirst hw hi hj)
  · exact he

theorem Inv.map (h : s.Inv) {mfns count} (hok : s.Allowed (.map mfns count)) : (s.map mfns count).Inv := by
  rcases s.k.windowMap_cases mfns count with ⟨rc, hrc, hr⟩ |
    ⟨f, p2m, first, touched, rfl, h0, hp, hfirst, hbase, ⟨hz, hr⟩ | ⟨p2m', hback, hr⟩⟩
  · have hs : s.map mfns count = s := by simp [Arena.map, afterMap, hr, WindowCall.refuse, hrc]
    rwa [hs]
  · have hcap := h.capacity
    have hnext := h.next
    have hff : windowFirst (first <<< 12) = first := windowFirst_shiftLeft (by omega)
    have hadd := h.add (w := ⟨first <<< 12, count, f, false⟩) first
      ⟨h0, by rwa [hff], by simp only [hff]; omega, hz⟩ hp (by omega) (fun _ => hff.ge)
      fun v hv i hi j hj he => h.map_vacant hok hfirst hv hj hi (by rw [← he, Window.slot, hff])
    simpa only [Arena.map, afterMap, hr, if_true, Option.getD_some, hff] using hadd
  · simp only [Arena.map, afterMap, hr]
    exact { h with inside := fun w hw => (h.inside w hw).of_bounds rfl rfl, intact := ⟨h.intact.disjoint,
      fun w hw => (h.intact.holds w hw).congr hp rfl fun i hi => h.map_rollback hok hfirst hback hw hi⟩ }

theorem Inv.map_failureKeeps (h : s.Inv) {mfns count} (hok : s.Allowed (.map mfns count)) :
    s.FailureKeeps (.map mfns count) := by
  intro hrc w hw i hi
  rcases s.k.windowMap_cases mfns count with ⟨rc, -, hr⟩ |
    ⟨f, p2m, first, touched, rfl, h0, hp, hfirst, hbase, ⟨hz, hr⟩ | ⟨p2m', hback, hr⟩⟩
  · simp [Arena.map, afterMap, hr, WindowCall.refuse]
  · rw [hr] at hrc
    exact absurd rfl hrc
  · simp [Arena.map, afterMap, hr, hp, h.map_rollback hok hfirst hback hw hi]

theorem Inv.mapAt (h : s.Inv) {mfns count pseudo} (hok : s.Allowed (.mapAt mfns count pseudo)) :
    (s.mapAt mfns count pseudo).Inv := by
  rcases s.k.windowMapAt_cases mfns count pseudo with ⟨rc, touched, hrc, hr⟩ |
    ⟨f, p2m, touched, rfl, h0, -, hp, hb, hvac, hz, hr⟩
  · have hs : s.mapAt mfns count pseudo = s := by simp [Arena.mapAt, afterMap, hr, hrc]
    rwa [hs]
  · have hcap := h.capacity
    have hle : windowFirst pseudo ≤ s.k.p2mCapacity := by
      rw [windowFirst_eq (Nat.lt_of_le_of_lt hok hcap)]
      exact hok
    obtain ⟨hbase, htop⟩ := bounds_of_le hb hle hcap
    have hadd := h.add (w := ⟨pseudo, count, f, true⟩) s.k.windowNext
      ⟨h0, hbase, htop, hz⟩ hp (le_refl _) (by simp)
      fun v hv i hi j hj he => ?_
    · simpa only [Arena.mapAt, afterMap, hr, if_true, Option.getD_some] using hadd
    · -- the slot was vacant, and a live window holds no frame zero
      refine (h.inside v hv).nonzero j hj ?_
      rw [← (h.intact.holds v hv).p2m_eq hp hj, ← he]
      exact hvac i hi

theorem mapAt_failureKeeps (s : Arena) (mfns : Option (Nat → Nat)) (count pseudo : Nat) :
    s.FailureKeeps (.mapAt mfns count pseudo) := by
  intro hrc w hw i hi
  rcases s.k.windowMapAt_cases mfns count pseudo with ⟨rc, touched, -, hr⟩ |
    ⟨f, p2m, touched, rfl, h0, -, hp, hb, hvac, hz, hr⟩
  · simp [Arena.mapAt, afterMap, hr]
  · rw [hr] at hrc
    exact absurd rfl hrc

theorem Intact.split {before after} (h : Intact ⟨k, before ++ w :: after⟩) :
    (∀ v ∈ before ++ after, w.Disjoint v) ∧ (before ++ after).Pairwise Window.Disjoint := by
  have hperm : (before ++ w :: after).Perm (w :: (before ++ after)) := List.perm_middle
  exact List.pairwise_cons.mp ((hperm.pairwise_iff Window.Disjoint.symm).mp h.disjoint)

theorem Inv.unmap {before after} (h : Inv ⟨k, before ++ w :: after⟩) :
    Inv ⟨(k.windowUnmap w.pseudo w.count).1, before ++ after⟩ := by
  have hmem : ∀ v ∈ before ++ after, v ∈ before ++ w :: after := fun v hv => by
    simp only [List.mem_append, List.mem_cons] at hv ⊢; tauto
  have hw := h.inside w (by simp)
  have hcap := h.capacity
  have hnext := h.next
  have htop := hw.top
  simp only at hcap hnext htop
  obtain ⟨hdis, hpair⟩ := h.intact.split
  rcases k.windowUnmap_cases w.pseudo w.count with ⟨-, hr⟩ | ⟨p2m, touched, h0, hp, hb, -, hr⟩
  · rw [hr]
    exact ⟨hcap, hnext, fun v hv => h.inside v (hmem v hv), fun v hv => h.above v (hmem v hv),
      ⟨hpair, fun v hv => h.intact.holds v (hmem v hv)⟩⟩
  · rw [hr]
    refine ⟨hcap, ?_, fun v hv => (h.inside v (hmem v hv)).of_bounds rfl rfl, fun v hv hvp => ?_,
      ⟨hpair, fun v hv => ?_⟩⟩
    · dsimp only
      split
      · rw [ulong_of_lt] <;> omega
      · exact hnext
    · have habove := h.above v (hmem v hv) hvp
      have hv0 := (h.inside v (hmem v hv)).count
      dsimp only at habove ⊢
      split
      next hfirst =>
        -- the first slot of `v` is at or above the watermark and outside the released window
        have hne := hdis v hv (windowFirst v.pseudo - windowFirst w.pseudo)
        have hslot := h.slot_eq (hmem v hv) (i := 0) (by omega)
        rw [ulong_of_lt (by omega)]
        by_contra hlt
        refine hne (by omega) 0 (by omega) ?_
        rw [h.slot_eq (by simp) (by omega), hslot]
        omega
      next => exact habove
    · refine (h.intact.holds v (hmem v hv)).congr hp rfl fun i hi => ?_
      exact Slots.fill_of_ne fun j hj he => hdis v hv j hj i hi he

theorem Inv.step {op} (h : s.Inv) (hok : s.Allowed op) (hstep : Step s op s') : s'.Inv := by
  cases hstep with
  | map => exact h.map hok
  | mapAt => exact h.mapAt hok
  | unmap => exact h.unmap

theorem Reachable.inv (h : Reachable Allowed s) : s.Inv :=
  Runs.Reach.invariant (P := Inv) (fun _ hs => hs.inv) (fun _ _ _ hi hs => hi.step hs.1 hs.2) h

theorem Inv.failureKeeps (h : s.Inv) {op} (hok : s.Allowed op) : s.FailureKeeps op := by
  cases op with
  | map mfns count => exact h.map_failureKeeps hok
  | mapAt mfns count pseudo => exact s.mapAt_failureKeeps mfns count pseudo
  | unmap w => trivial

end Arena

end MoCoLinux.Kload
