import MoCoLinux.Kload.Translation

/-!
# Page-table entries in the guest (`arch/x86/include/asm/cooperative.h` of the guest patch)

The guest reads the host's p2m and m2p through mappings of the same pages. `unsigned long` has 64 bits here.
-/

namespace MoCoLinux

/-- What the guest's conversions read: the flag `co_colinux_guest`, the two published words and the arrays. -/
structure Guest where
  guest : Bool
  p2mPages : Nat
  m2pMask : Nat
  p2m : Nat → Nat
  m2p : Nat → Nat

namespace Guest

def pfnMask : Nat := 0x000ffffffffff000

/-- `~CO_COLINUX_PFN_MASK`, 64 bits wide. -/
def flagMask : Nat := 0xfff0000000000fff

def mappedBits : Nat := 0x101

def pseudoToMachinePfn (g : Guest) (ppfn : Nat) : Nat :=
  if g.guest = false ∨ g.p2mPages ≤ ppfn then ppfn else g.p2m ppfn

def machineToPseudoLoop (g : Guest) (mfn : Nat) : Nat → Nat → Nat
  | 0, _ => mfn
  | probes + 1, slot =>
    let stored := g.m2p slot
    if stored = 0 then mfn
    else
      let ppfn := stored - 1
      if ppfn < g.p2mPages ∧ g.p2m ppfn = mfn then ppfn
      else machineToPseudoLoop g mfn probes (ullong (slot + 1) &&& g.m2pMask)

def machineToPseudoPfn (g : Guest) (mfn : Nat) : Nat :=
  if g.guest = false ∨ g.m2pMask = 0 then mfn
  else machineToPseudoLoop g mfn (g.m2pMask + 1) (ullong (mfn * 11400714819323198485) &&& g.m2pMask)

def entryFrame (value : Nat) : Nat := (value &&& pfnMask) >>> 12

def withFrame (value pfn : Nat) : Nat := (value &&& flagMask) ||| ullong (pfn <<< 12)

def pseudoToMachineAddr (g : Guest) (value : Nat) : Nat :=
  withFrame value (g.pseudoToMachinePfn (entryFrame value))

def machineToPseudoAddr (g : Guest) (value : Nat) : Nat :=
  withFrame value (g.machineToPseudoPfn (entryFrame value))

def makePageEntry (g : Guest) (value : Nat) : Nat :=
  if g.guest = false ∨ value &&& mappedBits = 0 then value else g.pseudoToMachineAddr value

def pageEntryValue (g : Guest) (value : Nat) : Nat :=
  if g.guest = false ∨ value &&& mappedBits = 0 then value else g.machineToPseudoAddr value

end Guest

/-- The guest's view once the loader has published `co_kload_p2m_pages` and `co_kload_m2p_mask` and set
`co_colinux_guest`. -/
def Kload.publish (k : Kload) : Option Guest :=
  match k.p2m, k.m2p with
  | some p2m, some m2p => some ⟨true, k.p2mCapacity, k.m2pMaskValue, p2m, m2p⟩
  | _, _ => none

end MoCoLinux
