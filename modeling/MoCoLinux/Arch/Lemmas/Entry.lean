import MoCoLinux.Arch.Space
import MoCoLinux.Lib.Bits

/-!
# The bits of page-table entries

An entry keeps the page it names in bits 12 to 62, and the flags in the others.
-/

namespace MoCoLinux.Arch

theorem and_pageMask {a : Nat} (h : a < 2 ^ 64) : a &&& pageMask = a / 4096 * 4096 := by
  have hm : pageMask = (2 ^ (64 - 12) - 1) <<< 12 := by decide
  rw [hm]
  exact Bits.and_highMask h

theorem isPresent_eq_testBit (e : Nat) : isPresent e = e.testBit 0 := by
  simp [isPresent, pagePresent, Nat.testBit, Nat.and_comm]

theorem isLarge_eq_testBit (e : Nat) : isLarge e = e.testBit 7 := by
  have h : e &&& pagePse = (e.testBit 7).toNat * 2 ^ 7 := Nat.and_two_pow e 7
  rw [isLarge, h]
  cases e.testBit 7 <;> rfl

def addressMask : Nat := pageMask &&& pageNxMask

theorem entryPa_eq_and (e : Nat) : entryPa e = e &&& addressMask := Nat.and_assoc _ _ _

theorem testBit_addressMask (i : Nat) : addressMask.testBit i = decide (12 ≤ i ∧ i < 63) := by
  have h : addressMask = (2 ^ 51 - 1) <<< 12 := by decide
  rw [h, Nat.testBit_shiftLeft, Nat.testBit_two_pow_sub_one]
  by_cases h12 : 12 ≤ i
  · simp [h12]; omega
  · simp [h12]

theorem entryPa_eq (e : Nat) : entryPa e = e / 4096 % 2 ^ 51 * 4096 := by
  have h : e / 4096 % 2 ^ 51 * 4096 = (e >>> 12 % 2 ^ 51) <<< 12 := by
    rw [Nat.shiftLeft_eq, Nat.shiftRight_eq_div_pow]
  rw [h, entryPa_eq_and]
  refine Nat.eq_of_testBit_eq fun i => ?_
  rw [Nat.testBit_and, testBit_addressMask, Nat.testBit_shiftLeft, Nat.testBit_mod_two_pow, Nat.testBit_shiftRight]
  by_cases h12 : 12 ≤ i
  · have h63 : i - 12 < 51 ↔ i < 63 := by omega
    simp [h12, h63, Nat.add_sub_cancel' h12, Bool.and_comm]
  · simp [h12]

theorem entryPfn_eq (e : Nat) : entryPfn e = e / 4096 % 2 ^ 51 := by
  rw [entryPfn, entryPa_eq, Nat.shiftRight_eq_div_pow]
  exact Nat.mul_div_cancel _ (by decide)

theorem tableEntry_eq {next : Nat} (h : next < 2 ^ 51) : tableEntry next = next * 4096 + 0x63 := by
  have hs : next <<< 12 = next * 4096 := Nat.shiftLeft_eq _ _
  have hk : kernpgTable = 0x63 := rfl
  rw [tableEntry, ullong_of_lt (by omega), hk, ← Nat.shiftLeft_add_eq_or_of_lt (by decide), hs]

theorem isPresent_tableEntry {next : Nat} (h : next < 2 ^ 51) : isPresent (tableEntry next) = true := by
  rw [isPresent_eq_testBit, tableEntry_eq h, Nat.testBit_zero]
  simp; omega

theorem isLarge_tableEntry {next : Nat} (h : next < 2 ^ 51) : isLarge (tableEntry next) = false := by
  rw [isLarge_eq_testBit, tableEntry_eq h, Nat.testBit_eq_decide_div_mod_eq]
  simp; omega

theorem entryPfn_tableEntry {next : Nat} (h : next < 2 ^ 51) : entryPfn (tableEntry next) = next := by
  rw [entryPfn_eq, tableEntry_eq h]
  omega

def entryCodec : RadixTree.Codec Nat Nat where
  present := isPresent
  link := tableEntry
  target := entryPfn
  valid a := a < 2 ^ 51
  present_link _ := isPresent_tableEntry
  target_link _ := entryPfn_tableEntry

@[simp] theorem entryCodec_present (e : Nat) : entryCodec.present e = isPresent e := rfl
@[simp] theorem entryCodec_link (a : Nat) : entryCodec.link a = tableEntry a := rfl
@[simp] theorem entryCodec_target (e : Nat) : entryCodec.target e = entryPfn e := rfl
@[simp] theorem entryCodec_valid (a : Nat) : entryCodec.valid a ↔ a < 2 ^ 51 := Iff.rfl

@[simp] theorem isPresent_zero : isPresent 0 = false := rfl

theorem isPresent_leafEntry (pa : Nat) {flags : Nat} (h : isPresent flags = true) :
    isPresent (leafEntry pa flags) = true := by
  rw [isPresent_eq_testBit] at h ⊢
  rw [leafEntry, Nat.testBit_or, h, Bool.or_true]

theorem entryPa_leafEntry {pa flags : Nat} (hpa : pa < 2 ^ 63) (h : entryPa flags = 0) :
    entryPa (leafEntry pa flags) = pa / 4096 * 4096 := by
  have hand : pa &&& pageMask &&& addressMask = pa &&& addressMask := by
    rw [Nat.and_assoc]; rfl
  calc entryPa (leafEntry pa flags)
      = (pa &&& pageMask &&& addressMask) ||| entryPa flags := by
        rw [entryPa_eq_and, leafEntry, Nat.and_or_distrib_right, ← entryPa_eq_and flags]
    _ = entryPa pa := by rw [h, Nat.or_zero, hand, ← entryPa_eq_and]
    _ = pa / 4096 * 4096 := by rw [entryPa_eq]; omega

end MoCoLinux.Arch
