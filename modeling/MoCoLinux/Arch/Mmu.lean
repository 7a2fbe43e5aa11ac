import MoCoLinux.Common

/-!
# Long mode paging geometry (`arch/x86_64/mmu.h`)
-/

namespace MoCoLinux.Arch

def pagePresent : Nat := 0x001

def pagePse : Nat := 0x080

/-- `_KERNPG_TABLE`: present, writable, accessed and dirty. -/
def kernpgTable : Nat := 0x001 ||| 0x002 ||| 0x020 ||| 0x040

def pageGlobal : Nat := 0x100

def pageNx : Nat := 0x8000000000000000

/-- `~CO_ARCH_PAGE_NX`. -/
def pageNxMask : Nat := 0x7fffffffffffffff

def pageSize : Nat := 4096

/-- `CO_ARCH_PAGE_MASK`, which is 64 bits wide. -/
def pageMask : Nat := 0xfffffffffffff000

def pmdSize : Nat := 1 <<< 21

def pteIndex (va : Nat) : Nat := (va >>> 12) &&& 511
def pmdIndex (va : Nat) : Nat := (va >>> 21) &&& 511
def pudIndex (va : Nat) : Nat := (va >>> 30) &&& 511
def pgdIndex (va : Nat) : Nat := (va >>> 39) &&& 511

/-- `CO_ARCH_DIRECT_MAP`: the base of the guest's linear map of its RAM. -/
def directMap : Nat := 0xffff888000000000

/-- `CO_ARCH_KERNEL_MAP`: the base of the window the kernel image is linked in. -/
def kernelMap : Nat := 0xffffffff80000000

def vaCanonical (va : Nat) : Bool := va >>> 47 == 0 || va >>> 47 == 0x1ffff

theorem vaCanonical_iff {va : Nat} :
    vaCanonical va = true ↔ va / 2 ^ 47 = 0 ∨ va / 2 ^ 47 = 2 ^ 17 - 1 := by
  simp [vaCanonical, Nat.shiftRight_eq_div_pow]

theorem pteIndex_eq (va : Nat) : pteIndex va = va / 2 ^ 12 % 2 ^ 9 := by
  rw [pteIndex, Nat.shiftRight_eq_div_pow, ← Nat.and_two_pow_sub_one_eq_mod]

theorem pmdIndex_eq (va : Nat) : pmdIndex va = va / 2 ^ 21 % 2 ^ 9 := by
  rw [pmdIndex, Nat.shiftRight_eq_div_pow, ← Nat.and_two_pow_sub_one_eq_mod]

theorem pudIndex_eq (va : Nat) : pudIndex va = va / 2 ^ 30 % 2 ^ 9 := by
  rw [pudIndex, Nat.shiftRight_eq_div_pow, ← Nat.and_two_pow_sub_one_eq_mod]

theorem pgdIndex_eq (va : Nat) : pgdIndex va = va / 2 ^ 39 % 2 ^ 9 := by
  rw [pgdIndex, Nat.shiftRight_eq_div_pow, ← Nat.and_two_pow_sub_one_eq_mod]

end MoCoLinux.Arch
