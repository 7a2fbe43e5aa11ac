import MoCoLinux.Kload.State

/-!
# The p2m array and the m2p hash (`kload_machine_to_pseudo_pfn` to `kload_block_alloc`)

A probe loop of the source that may not end is a function of a number of rounds that returns `none` when the
rounds are used up. With `m2pSlots` rounds every slot has been probed, so more rounds change nothing.
-/

namespace MoCoLinux.Kload

def m2pHash (k : Kload) (mfn : Nat) : Nat :=
  ulong (ullong (mfn * 11400714819323198485) &&& k.m2pMaskValue)

def m2pNext (k : Kload) (slot : Nat) : Nat := ulong (slot + 1) &&& k.m2pMaskValue

def machineToPseudoLoop (k : Kload) (p2m m2p : Nat → Nat) (mfn : Nat) : Nat → Nat → Option Nat
  | 0, _ => none
  | probes + 1, slot =>
    let stored := m2p slot
    if stored = 0 then none
    else
      let ppfn := stored - 1
      if ppfn < k.backedPages ∧ p2m ppfn = mfn then some ppfn
      else machineToPseudoLoop k p2m m2p mfn probes (k.m2pNext slot)

/-- `kload_machine_to_pseudo_pfn`; the two arrays are allocated and released together. -/
def machineToPseudoPfn (k : Kload) (mfn : Nat) : Option Nat :=
  match k.m2p, k.p2m with
  | some m2p, some p2m =>
    if k.m2pSlots = 0 then none
    else machineToPseudoLoop k p2m m2p mfn k.m2pSlots (k.m2pHash mfn)
  | _, _ => none

def pseudoToMachinePfn (k : Kload) (ppfn : Nat) : Option Nat :=
  match k.p2m with
  | none => none
  | some p2m =>
    if k.p2mCapacity ≤ ppfn then none
    else if k.backedPages ≤ ppfn ∧ p2m ppfn = 0 then none
    else some (p2m ppfn)

/-- The doubling loop of `kload_translation_alloc`: whether `wanted` was reached, and `kload_m2p_slots`. -/
def m2pSlotsLoop (wanted : Nat) : Nat → Nat → Bool × Nat
  | 0, slots => (false, slots)
  | rounds + 1, slots =>
    if slots < wanted then
      if 0x7fffffff < slots then (false, slots) else m2pSlotsLoop wanted rounds (ulong (slots <<< 1))
    else (true, slots)

def wantedSlots (capacity : Nat) : Nat := capacity + (capacity + 1) / 2

/-- `kload_translation_alloc`. `p2mOk` and `m2pOk` tell whether the host has the memory. The tests of the page counts
against `~0U` are implied by the bound of the two windows. -/
def translationAlloc (k : Kload) (capacity : Nat) (p2mOk m2pOk : Bool) : Rc × Kload :=
  if capacity = 0 then (.invalidParameter, k)
  else if 0xffffffff < wantedSlots capacity then (.invalidParameter, k)
  else
    match m2pSlotsLoop (wantedSlots capacity) 33 1 with
    | (false, slots) => (.invalidParameter, { k with m2pSlots := slots })
    | (true, slots) =>
      let p2mBytes := capacity * 8
      let m2pBytes := slots * 4
      if translationWindowBytes < p2mBytes ∨ translationWindowBytes < m2pBytes then
        (.invalidParameter, { k with m2pSlots := 0, m2pMaskValue := 0 })
      else
        let k := { k with
          m2pSlots := slots
          m2pMaskValue := slots - 1
          p2mAllocPages := (p2mBytes + Arch.pageSize - 1) >>> 12
          m2pAllocPages := (m2pBytes + Arch.pageSize - 1) >>> 12 }
        if !p2mOk then (.outOfMemory, { k with p2m := none, m2pSlots := 0, m2pMaskValue := 0 })
        else if !m2pOk then
          (.outOfMemory, { k with p2m := none, m2p := none, p2mAllocPages := 0, m2pSlots := 0, m2pMaskValue := 0 })
        else
          (.ok, { k with
            p2m := some fun _ => 0
            m2p := some fun _ => 0
            p2mCapacity := capacity
            windowNext := capacity })

/-- The answer of `co_os_user_block_map` or `co_os_alloc_cached_pages`: the kernel address, the MDL that locks the
pages, and the machine frame of each page. -/
structure HostPages where
  va : Nat
  mdl : Nat
  mfn : Nat → Nat

/-- The insertion probe of `kload_block_alloc`: the first empty slot. -/
def m2pFree (k : Kload) (m2p : Nat → Nat) : Nat → Nat → Option Nat
  | 0, _ => none
  | rounds + 1, slot => if m2p slot ≠ 0 then m2pFree k m2p rounds (k.m2pNext slot) else some slot

/-- The page loop of `kload_block_alloc`: both arrays after `pages` pages from page `first` on. -/
def insertPages (k : Kload) (first : Nat) (mfn : Nat → Nat) (p2m m2p : Nat → Nat) :
    Nat → Option ((Nat → Nat) × (Nat → Nat))
  | 0 => some (p2m, m2p)
  | i + 1 => do
      let (p2m, m2p) ← insertPages k first mfn p2m m2p i
      let slot ← m2pFree k m2p k.m2pSlots (k.m2pHash (mfn i))
      return (Function.update p2m (first + i) (mfn i), Function.update m2p slot (ulong (first + i + 1)))

/-- The size `kload_block_alloc` allocates for a request: a section-backed block is at most one MDL. -/
def blockBytes (k : Kload) (bytes : Nat) : Nat :=
  if k.userRamVa ≠ 0 ∧ userBlockBytes < bytes then userBlockBytes else bytes

def blockPages (k : Kload) (bytes : Nat) : Nat := ulong (k.blockBytes bytes >>> 12)

/-- The requests `kload_block_alloc` refuses before it asks the host for memory. -/
def BlockRefused (k : Kload) (bytes : Nat) : Prop :=
  maxBlocks ≤ k.block.length ∨ k.blockPages bytes = 0 ∨
    ulongSub k.p2mCapacity k.backedPages < k.blockPages bytes ∨
    k.userRamVa ≠ 0 ∧ k.userRamBytes < (k.backedPages <<< 12) + k.blockBytes bytes

instance (k : Kload) (bytes : Nat) : Decidable (k.BlockRefused bytes) :=
  inferInstanceAs (Decidable (_ ∨ _))

/-- `kload_block_alloc`, with the answer of the host: whether it returned a block, and the state after.
`none` is a probe that never ends. -/
def blockAlloc (k : Kload) (host : Option HostPages) (bytes : Nat) : Option (Bool × Kload) :=
  if k.BlockRefused bytes then some (false, k)
  else
    match host, k.p2m, k.m2p with
    | some pages, some p2m, some m2p => do
        let (p2m, m2p) ← k.insertPages k.backedPages pages.mfn p2m m2p (k.blockPages bytes)
        return (true, { k with
          p2m := some p2m
          m2p := some m2p
          block := k.block ++ [⟨pages.va, k.backedPages <<< 12, k.blockPages bytes <<< 12, pages.mdl⟩]
          backedPages := k.backedPages + k.blockPages bytes })
    | _, _, _ => some (false, k)

end MoCoLinux.Kload
