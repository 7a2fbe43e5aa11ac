import MoCoLinux.Guest.Paging
import MoCoLinux.Kload.Lemmas.Loader

/-!
# The guest's lookups and entry conversions
-/

namespace MoCoLinux

variable {k : Kload} {g : Guest}

theorem Kload.publish_eq_some (h : k.publish = some g) :
    ∃ p2m m2p, k.p2m = some p2m ∧ k.m2p = some m2p ∧ g = ⟨true, k.p2mCapacity, k.m2pMaskValue, p2m, m2p⟩ := by
  unfold publish at h
  split at h
  next p2m m2p hp hm =>
    rw [Option.some.injEq] at h
    exact ⟨p2m, m2p, hp, hm, h.symm⟩
  · simp at h

namespace Guest

open LinearProbing Kload

theorem machineToPseudoLoop_eq (geo : k.Geometry) (hmask : g.m2pMask = k.m2pMaskValue) (mfn fuel slot : Nat) :
    g.machineToPseudoLoop mfn fuel slot =
      (find (m2pTable g.m2p) k.m2pSlots (fun v => decide (v < g.p2mPages ∧ g.p2m v = mfn)) fuel slot).getD
        mfn := by
  induction fuel generalizing slot with
  | zero => rfl
  | succ fuel ih =>
    rw [machineToPseudoLoop, find]
    by_cases h0 : g.m2p slot = 0
    · simp [h0, m2pTable_eq_none.mpr h0]
    · have hs : m2pTable g.m2p slot = some (g.m2p slot - 1) := by simp [m2pTable, h0]
      have hnext : ullong (slot + 1) &&& g.m2pMask = (slot + 1) % k.m2pSlots := by
        rw [hmask, geo.and_mask, ullong, geo.mod_mod _ (by decide)]
      simp only [h0, if_false, hs, hnext, ih, decide_eq_true_eq]
      split <;> rfl

theorem machineToPseudoPfn_eq (h : k.Bookkept) (hg : k.publish = some g) (mfn : Nat) :
    g.machineToPseudoPfn mfn = (k.machineToPseudoPfn mfn).getD mfn := by
  obtain ⟨p2m, m2p, hp, hm, rfl⟩ := publish_eq_some hg
  have geo := h.geometry
  have hcap := geo.capacity
  have hpages := geo.pages
  have hmask : k.m2pMaskValue + 1 = k.m2pSlots := by have := geo.mask; omega
  have hne : k.m2pMaskValue ≠ 0 := by omega
  have hhash : ullong (mfn * 11400714819323198485) &&& k.m2pMaskValue = frameKey mfn % k.m2pSlots := by
    rw [geo.and_mask, ullong, geo.mod_mod _ (by decide), frameKey]
  simp only [machineToPseudoPfn, hne, Bool.true_eq_false, or_false, if_false, hhash, hmask]
  rw [machineToPseudoLoop_eq geo rfl, h.machineToPseudoPfn_eq hp hm]
  congr 1
  -- the guest's bound is the capacity and the host's the backed pages; every stored page is backed
  obtain ⟨-, m2p', -, hm', hf⟩ := h.arrays
  obtain rfl : m2p' = m2p := by rw [hm, Option.some.injEq] at hm'; exact hm'.symm
  refine find_congr geo.pos (fun s hs v hv => ?_) _ (Nat.mod_lt _ geo.pos)
  have hv' := hf.stored s hs v hv
  have hb := h.backed
  have hvc : v < k.p2mCapacity := by omega
  simp [hv', hvc]

theorem pseudoToMachinePfn_eq (hg : k.publish = some g) {ppfn mfn : Nat}
    (h : k.pseudoToMachinePfn ppfn = some mfn) : g.pseudoToMachinePfn ppfn = mfn := by
  obtain ⟨p2m, m2p, hp, hm, rfl⟩ := publish_eq_some hg
  simp only [Kload.pseudoToMachinePfn, hp] at h
  split at h
  · simp at h
  next hcap =>
    split at h
    · simp at h
    · simp only [Option.some.injEq] at h
      simp [pseudoToMachinePfn, hcap, h]

theorem testBit_pfnMask (i : Nat) : pfnMask.testBit i = decide (12 ≤ i ∧ i < 52) := by
  have h : pfnMask = (2 ^ 40 - 1) <<< 12 := by decide
  rw [h, Nat.testBit_shiftLeft, Nat.testBit_two_pow_sub_one]
  by_cases h12 : 12 ≤ i
  · simp [h12]; omega
  · simp [h12]

theorem testBit_flagMask (i : Nat) : flagMask.testBit i = decide (i < 64 ∧ ¬ (12 ≤ i ∧ i < 52)) := by
  have h : flagMask = (2 ^ 12 - 1) ||| ((2 ^ 12 - 1) <<< 52) := by decide
  rw [h, Nat.testBit_or, Nat.testBit_shiftLeft, Nat.testBit_two_pow_sub_one, Nat.testBit_two_pow_sub_one]
  by_cases h12 : i < 12
  · simp [h12]; omega
  · simp only [h12, decide_false, Bool.false_or]
    by_cases h52 : 52 ≤ i
    · simp [h52]; omega
    · simp [h52]; omega

variable {value pfn : Nat}

theorem testBit_withFrame (hpfn : pfn < 2 ^ 40) (i : Nat) :
    (withFrame value pfn).testBit i =
      if 12 ≤ i ∧ i < 52 then pfn.testBit (i - 12) else decide (i < 64) && value.testBit i := by
  have hs : ullong (pfn <<< 12) = pfn <<< 12 := ullong_of_lt (by rw [Nat.shiftLeft_eq]; omega)
  have hhigh : ∀ j, 40 ≤ j → pfn.testBit j = false := fun j hj =>
    Nat.testBit_lt_two_pow (Nat.lt_of_lt_of_le hpfn (Nat.pow_le_pow_right (by decide) hj))
  rw [withFrame, hs, Nat.testBit_or, Nat.testBit_and, testBit_flagMask, Nat.testBit_shiftLeft]
  by_cases hin : 12 ≤ i ∧ i < 52
  · simp [hin]
  · by_cases h52 : 52 ≤ i
    · simp [hin, hhigh (i - 12) (by omega), Bool.and_comm]
    · have h12 : ¬ 12 ≤ i := by omega
      simp [h12, Bool.and_comm]

theorem testBit_entryFrame (i : Nat) : (entryFrame value).testBit i = (decide (i < 40) && value.testBit (12 + i)) := by
  rw [entryFrame, Nat.testBit_shiftRight, Nat.testBit_and, testBit_pfnMask, Bool.and_comm]
  congr 1
  simp; omega

theorem entryFrame_lt (value : Nat) : entryFrame value < 2 ^ 40 := by
  refine Nat.lt_pow_two_of_testBit _ fun i hi => ?_
  rw [testBit_entryFrame]
  simp; omega

theorem entryFrame_withFrame (hpfn : pfn < 2 ^ 40) : entryFrame (withFrame value pfn) = pfn := by
  refine Nat.eq_of_testBit_eq fun i => ?_
  rw [testBit_entryFrame, testBit_withFrame hpfn]
  by_cases hi : i < 40
  · simp [hi, show 12 + i < 52 by omega]
  · have hhigh : pfn.testBit i = false :=
      Nat.testBit_lt_two_pow (Nat.lt_of_lt_of_le hpfn (Nat.pow_le_pow_right (by decide) (by omega)))
    simp [hi, hhigh]

theorem withFrame_withFrame {pfn' : Nat} (hpfn : pfn < 2 ^ 40) (hpfn' : pfn' < 2 ^ 40) :
    withFrame (withFrame value pfn) pfn' = withFrame value pfn' := by
  refine Nat.eq_of_testBit_eq fun i => ?_
  rw [testBit_withFrame hpfn', testBit_withFrame hpfn', testBit_withFrame hpfn]
  split
  · rfl
  · simp

theorem withFrame_entryFrame (hv : value < 2 ^ 64) : withFrame value (entryFrame value) = value := by
  refine Nat.eq_of_testBit_eq fun i => ?_
  rw [testBit_withFrame (entryFrame_lt value), testBit_entryFrame]
  split
  next h => simp [show i - 12 < 40 by omega, Nat.add_sub_cancel' h.1]
  next h =>
    by_cases hi : i < 64
    · simp [hi]
    · rw [Nat.testBit_lt_two_pow (Nat.lt_of_lt_of_le hv (Nat.pow_le_pow_right (by decide) (by omega)))]
      simp

theorem withFrame_and_flagMask (hpfn : pfn < 2 ^ 40) : withFrame value pfn &&& flagMask = value &&& flagMask := by
  refine Nat.eq_of_testBit_eq fun i => ?_
  rw [Nat.testBit_and, Nat.testBit_and, testBit_withFrame hpfn, testBit_flagMask]
  by_cases hin : 12 ≤ i ∧ i < 52
  · simp [hin]
  · by_cases hi : i < 64 <;> simp [hin, hi]

theorem withFrame_and_mappedBits (hpfn : pfn < 2 ^ 40) :
    withFrame value pfn &&& mappedBits = value &&& mappedBits := by
  have hm : mappedBits = flagMask &&& mappedBits := by decide
  rw [hm, ← Nat.and_assoc, withFrame_and_flagMask hpfn, Nat.and_assoc]

end Guest

end MoCoLinux
