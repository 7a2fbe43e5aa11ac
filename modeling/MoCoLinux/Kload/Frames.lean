import MoCoLinux.Kload.Translation

/-!
# Blocks, frames and page tables of the loader

`co_kload_pseudo_frame_va` to `co_kload_table_frame`, and the host services space.c gets from the loader.
Writing through the address of a page writes the machine frame the p2m records for it.
-/

namespace MoCoLinux

open Arch (Mem SpaceHost)

namespace Kload

def blockAddress (b : Block) (pa : Nat) : Nat := b.va + ulong (pa - b.pseudoBase)

/-- The binary search of `co_kload_pseudo_frame_va`; `hi` is one more than the source's. -/
def blockSearch (block : List Block) (pa : Nat) : Nat → Nat → Nat → Option (Nat × Block)
  | 0, _, _ => none
  | rounds + 1, lo, hi =>
    if lo < hi then
      let mid := lo + (hi - 1 - lo) / 2
      match block[mid]? with
      | none => none
      | some b =>
        if pa < b.pseudoBase then blockSearch block pa rounds lo mid
        else if b.pseudoBase + b.bytes ≤ pa then blockSearch block pa rounds (mid + 1) hi
        else some (mid, b)
    else none

/-- `co_kload_pseudo_frame_va`: the address, 0 for `NULL`, and the state with `kload_last_hit` set. -/
def pseudoFrameVa (k : Kload) (pfn : Nat) : Nat × Kload :=
  let pa := ullong (pfn <<< 12)
  let search : Nat × Kload :=
    match blockSearch k.block pa (k.block.length + 1) 0 k.block.length with
    | none => (0, k)
    | some (mid, b) => (blockAddress b pa, { k with lastHit := mid })
  if k.backedPages ≤ pfn then (0, k)
  else
    match k.block[k.lastHit]? with
    | none => search
    | some b =>
      if b.va ≠ 0 ∧ b.pseudoBase ≤ pa ∧ pa < b.pseudoBase + b.bytes then (blockAddress b pa, k) else search

def frameVa (k : Kload) (pfn : Nat) : Nat × Kload :=
  match k.machineToPseudoPfn pfn with
  | none => (0, k)
  | some ppfn => k.pseudoFrameVa ppfn

end Kload

/-- The loader with what the model records beside it: how often the host was asked for the memory of a
block, and whether `co_kload_table_frame` ever returned OUT_OF_MEMORY. -/
structure Loader where
  k : Kload
  requests : Nat
  tableOom : Bool

namespace Loader

def tableFrame (l : Loader) (m : Mem) : Except Rc Nat × Loader × Mem :=
  if l.k.block.length = 0 then (.error .error, l, m)
  else if l.k.tableTop < l.k.tableStart + Arch.pageSize then
    (.error .outOfMemory, { l with tableOom := true }, m)
  else
    let k := { l.k with tableTop := l.k.tableTop - Arch.pageSize }
    let ppfn := k.tableTop >>> 12
    match k.pseudoToMachinePfn ppfn with
    | none => (.error .error, { l with k := k }, m)
    | some mfn =>
      match k.pseudoFrameVa ppfn with
      | (va, k) =>
        if va = 0 then (.error .error, { l with k := k }, m)
        else (.ok mfn, { l with k := k }, m.zero mfn)

/-- The services of space.c with the loader's frame source and mapper set. `osMap` tells which frames `co_os_map` can
map. -/
def spaceHost (osMap : Nat → Bool) : SpaceHost Loader where
  frameSource := some tableFrame
  getPage l := (.error .outOfMemory, l)
  putPage l _ := l
  map l pfn := (decide ((l.k.frameVa pfn).1 ≠ 0) || osMap pfn, { l with k := (l.k.frameVa pfn).2 })

end Loader

end MoCoLinux
