import MoCoLinux.Kload.Frames

/-!
# The static page tables of the image (`kload_machineize_table`)
-/

namespace MoCoLinux

open Arch (Mem isPresent isLarge kernelMap pageSize)

namespace Kload

/-- `CO_KLOAD_PFN_MASK` and its complement. -/
def pfnMask : Nat := 0x000ffffffffff000
def flagMask : Nat := 0xfff0000000000fff

def pseudoToMachinePa (k : Kload) (pseudo : Nat) : Nat :=
  match k.pseudoToMachinePfn (pseudo >>> 12) with
  | none => 0
  | some mfn => ullong (mfn <<< 12) ||| (pseudo &&& (pageSize - 1))

/-- One round of the loop: the entry it leaves, `none` if it returns ERROR. -/
def machineizeEntry (k : Kload) (entry : Nat) : Option Nat :=
  if isPresent entry then
    if isLarge entry then none
    else
      let target := entry &&& pfnMask
      let machine := k.pseudoToMachinePa target
      if machine = 0 ∧ target ≠ 0 then none else some (machine ||| (entry &&& flagMask))
  else some entry

/-- The loop over the first entries of the table in frame `q`; an error leaves the rounds before it done. -/
def machineizeLoop (k : Kload) (q : Nat) : Nat → Mem → Rc × Mem
  | 0, m => (.ok, m)
  | n + 1, m =>
    match machineizeLoop k q n m with
    | (.ok, m) =>
      match k.machineizeEntry (m q n) with
      | none => (.error, m)
      | some entry => (.ok, m.write q n entry)
    | r => r

end Kload

/-- The page of `kload_kva_pa(kva)`. -/
def Loader.kvaPage (l : Loader) (kva : Nat) : Nat := ullong (ullongSub kva kernelMap + l.k.physBase) >>> 12

/-- `physical` is the frame behind a page the host has mapped: the entries are those of the memory the block has in the
host, whatever p2m says of the page. -/
def Loader.machineizeTable (l : Loader) (physical : Nat → Nat) (tableVa entries : Nat) (m : Mem) : Rc × Loader × Mem :=
  match l.k.pseudoFrameVa (l.kvaPage tableVa) with
  | (t, k) =>
    if t = 0 then (.error, { l with k := k }, m)
    else
      match k.machineizeLoop (physical t) entries m with
      | (rc, m) => (rc, { l with k := k }, m)

end MoCoLinux
