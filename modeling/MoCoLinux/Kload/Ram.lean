import MoCoLinux.Kload.Frames

/-!
# Loading a guest (`kload_grow_to`, `co_kload_free`, `co_kload_begin`, `co_kload_chunk`,
`co_kload_build_ram`)
-/

namespace MoCoLinux

open Arch (Mem GuestSpace guestMap guestLookup guestSpaceCreate kernpgTable pageGlobal pageNx pageMask pageSize
  kernelMap directMap pmdSize vaCanonical)

structure Host where
  /-- The memory for block number `n` asked for. -/
  pages : Nat → Option Kload.HostPages
  p2mOk : Bool
  m2pOk : Bool
  mallocOk : Bool
  /-- `co_os_virt_to_phys` of page `i` of the p2m and of the m2p. -/
  p2mPa : Nat → Nat
  m2pPa : Nat → Nat
  osMap : Nat → Bool

namespace Loader

open Kload

/-! ## Growing RAM -/

def zeroFrames (m : Mem) (mfn : Nat → Nat) : Nat → Mem
  | 0 => m
  | n + 1 => (zeroFrames m mfn n).zero (mfn n)

/-- `kload_block_alloc` with the host's next answer. -/
def blockAlloc (host : Host) (bytes : Nat) (l : Loader) (m : Mem) : Option (Bool × Loader × Mem) := do
  let (ok, k) ← l.k.blockAlloc (host.pages l.requests) bytes
  let requests := if l.k.BlockRefused bytes then l.requests else l.requests + 1
  let m :=
    match ok, host.pages l.requests with
    | true, some pages => zeroFrames m pages.mfn (l.k.blockPages bytes)
    | _, _ => m
  return (ok, { l with k := k, requests := requests }, m)

/-- The inner loop of `kload_grow_to`: smaller blocks until one can be had. -/
def growAttempt (host : Host) : Nat → Nat → Loader → Mem → Option (Bool × Loader × Mem)
  | 0, _, _, _ => none
  | rounds + 1, attempt, l, m => do
      let (ok, l, m) ← blockAlloc host attempt l m
      if ok then return (true, l, m)
      else if attempt = pageSize then return (false, l, m)
      else
        let half := attempt >>> 1 &&& pageMask
        growAttempt host rounds (if half < pageSize then pageSize else half) l m

def growWant (backedPages target : Nat) : Nat :=
  let want := target - backedPages <<< 12
  let want := (if chunkBytes < want then chunkBytes else want) &&& pageMask
  if want = 0 then pageSize else want

def growLoop (host : Host) (target : Nat) : Nat → Loader → Mem → Option (Bool × Loader × Mem)
  | 0, _, _ => none
  | rounds + 1, l, m =>
    if l.k.backedPages <<< 12 < target then do
      let (ok, l, m) ← growAttempt host 64 (growWant l.k.backedPages target) l m
      if ok then growLoop host target rounds l m else return (false, l, m)
    else some (true, l, m)

/-- `kload_grow_to`. Each round but the last adds a block, and a block table that is full ends the loop, so
the rounds suffice. -/
def growTo (host : Host) (target : Nat) (l : Loader) (m : Mem) : Option (Bool × Loader × Mem) :=
  growLoop host target (maxBlocks + 1) l m

end Loader

/-! ## Teardown -/

namespace Kload

def releasePages (k : Kload) : Kload :=
  { k with
    block := []
    lastHit := 0
    p2m := none
    m2p := none
    p2mAllocPages := 0
    m2pAllocPages := 0
    p2mCapacity := 0
    backedPages := 0
    windowNext := 0
    windowBasePages := 0
    m2pSlots := 0
    m2pMaskValue := 0
    ramReady := false
    physBase := 0
    tableStart := 0
    tableEnd := 0
    tableTop := 0
    userRamVa := 0
    userRamBytes := 0 }

def resetCounters (k : Kload) : Kload := { k with pages := 0, chunks := 0, ramBytes := 0, ramPages := 0 }

def free (k : Kload) : Kload :=
  let k := { k with ramReady := false }
  if k.space.isNone ∧ k.block = [] ∧ k.p2m.isNone ∧ k.m2p.isNone then k
  else
    let k := { k with space := none }
    if k.userMaps ≠ 0 then { k with pendingFree := true } else k.releasePages.resetCounters

def userMapTryGet (k : Kload) : Bool × Kload :=
  if k.ramReady = true ∧ k.pendingFree = false ∧ k.block.length ≠ 0 then
    (true, { k with userMaps := k.userMaps + 1 })
  else (false, k)

/-- `co_kload_user_map_put`; a count of zero stays zero. -/
def userMapPut (k : Kload) : Kload :=
  let k := { k with userMaps := k.userMaps - 1 }
  if k.userMaps = 0 ∧ k.pendingFree = true then
    { k.releasePages.resetCounters with pendingFree := false }
  else k

/-- `kload_wait_for_deferred_free`, when other threads drop `puts` user mappings before its last look. What they drop
later is as if dropped after the call. -/
def waitForDeferredFree (k : Kload) (puts : Nat) : Bool × Kload :=
  if k.pendingFree then (!(userMapPut^[puts] k).pendingFree, userMapPut^[puts] k) else (true, k)

/-! ## The layout `co_kload_begin` chooses -/

def imageHi (maxVa : Nat) : Nat := (maxVa - kernelMap + pageSize - 1) &&& pageMask

/-- `~(CO_ARCH_PMD_SIZE - 1)`, 64 bits wide. -/
def pmdMask : Nat := 0xffffffffffe00000

def tableBytes (ramBytes imageHi : Nat) : Nat :=
  let sizing := if imageHi < ramBytes then ramBytes else imageHi
  let bytes := ((2 <<< 20) + ((sizing + 511) >>> 9) + pmdSize - 1) &&& pmdMask
  if bytes < minTableBytes then minTableBytes else bytes

def capacityEnd (ramBytes tableBytes tableEnd : Nat) : Nat :=
  let bytes := ramBytes + tableBytes
  (((if bytes < tableEnd then tableEnd else bytes) + pageSize - 1) &&& pageMask)

/-- The state with the layout for an image up to `maxVa` and this much RAM. -/
def withLayout (k : Kload) (maxVa ramBytes : Nat) : Kload :=
  let imageHi := imageHi maxVa
  let tableBytes := tableBytes ramBytes imageHi
  { k with
    physBase := 0
    tableStart := imageHi
    tableEnd := imageHi + tableBytes
    tableTop := imageHi + tableBytes
    windowBasePages := ulong (capacityEnd ramBytes tableBytes (imageHi + tableBytes) >>> 12) }

def capacityPages (maxVa ramBytes : Nat) : Nat :=
  let imageHi := imageHi maxVa
  let tableBytes := tableBytes ramBytes imageHi
  ulong ((capacityEnd ramBytes tableBytes (imageHi + tableBytes) + windowArenaBytes) >>> 12)

/-- The state with the section view the caller offers, if it can be used. -/
def withView (k : Kload) (ramUserVa ramUserBytes : Nat) : Kload :=
  if ramUserVa ≠ 0 ∧ ramUserBytes ≠ 0 ∧ ramUserVa &&& (pageSize - 1) = 0 then
    { k with userRamVa := ramUserVa, userRamBytes := ramUserBytes &&& pageMask }
  else k

/-- The arguments `co_kload_begin` refuses, each with INVALID_PARAMETER. -/
def BeginRefused (minVa maxVa ramBytes : Nat) : Prop :=
  maxVa ≤ minVa ∨ vaCanonical minVa = false ∨ vaCanonical (maxVa - 1) = false ∨ minVa < kernelMap ∨
    maxRamBytes < ramBytes

instance (minVa maxVa ramBytes : Nat) : Decidable (BeginRefused minVa maxVa ramBytes) :=
  inferInstanceAs (Decidable (_ ∨ _))

end Kload

namespace Loader

open Kload

abbrev Result := Rc × Loader × Mem

/-- The three mapping loops of the loader: `co_arch_guest_map` for page 0 to page `n - 1`, stopping at the
first error. Also returned is the number of pages mapped. -/
def mapRange (host : Host) (vaOf paOf : Nat → Nat) (flags : Nat) :
    Nat → GuestSpace → Loader → Mem → Rc × Nat × GuestSpace × Loader × Mem
  | 0, space, l, m => (.ok, 0, space, l, m)
  | n + 1, space, l, m =>
    match mapRange host vaOf paOf flags n space l m with
    | (.ok, done, space, l, m) =>
      match guestMap (spaceHost host.osMap) space (vaOf n) (paOf n) flags l m with
      | (.ok, space, l, m) => (.ok, done + 1, space, l, m)
      | (rc, space, l, m) => (rc, done, space, l, m)
    | r => r

def dataFlags : Nat := kernpgTable ||| pageGlobal ||| pageNx

def mapTranslationPages (host : Host) (space : GuestSpace) (l : Loader) (m : Mem) :
    Rc × GuestSpace × Loader × Mem :=
  match mapRange host (fun i => p2mVa + i <<< 12) host.p2mPa dataFlags l.k.p2mAllocPages space l m with
  | (.ok, _, space, l, m) =>
    match mapRange host (fun i => m2pVa + i <<< 12) host.m2pPa dataFlags l.k.m2pAllocPages space l m with
    | (rc, _, space, l, m) => (rc, space, l, m)
  | (rc, _, space, l, m) => (rc, space, l, m)

/-- The part of `co_kload_begin` after the layout is fixed: `l` has its tables placed, and `capacity` is the
number of p2m pages. -/
def beginArrays (host : Host) (capacity minVa maxVa : Nat) (l : Loader) (m : Mem) : Option Result :=
  match l.k.translationAlloc capacity host.p2mOk host.m2pOk with
  | (.ok, k) => do
      let (grown, l, m) ← growTo host k.tableEnd { l with k := k } m
      if grown then
        match guestSpaceCreate (spaceHost host.osMap) host.mallocOk l m with
        | (.error rc, l, m) => return (rc, { l with k := l.k.releasePages }, m)
        | (.ok space, l, m) =>
          match mapTranslationPages host space { l with k := { l.k with space := some space } } m with
          | (.ok, space, l, m) =>
            return (.ok, { l with k := { l.k with
              space := some space
              minVa := minVa &&& pageMask
              maxVa := ullong (maxVa + pageSize - 1) &&& pageMask
              pages := 0
              chunks := 0 } }, m)
          | (rc, _, l, m) => return (rc, { l with k := { l.k with space := none }.releasePages }, m)
      else return (.outOfMemory, { l with k := l.k.releasePages }, m)
  | (rc, k) => some (rc, { l with k := k }, m)

/-- `co_kload_begin`; `puts` is for its wait. -/
def begin (host : Host) (puts minVa maxVa ramBytes ramUserVa ramUserBytes : Nat) (l : Loader) (m : Mem) :
    Option Result :=
  match l.k.free.waitForDeferredFree puts with
  | (false, k) => some (.error, { l with k := k }, m)
  | (true, k) =>
    let k := k.withView ramUserVa ramUserBytes
    if BeginRefused minVa maxVa ramBytes then some (.invalidParameter, { l with k := k }, m)
    else
      beginArrays host (capacityPages maxVa ramBytes) minVa maxVa { l with k := k.withLayout maxVa ramBytes } m

/-! ## Loading the image -/

def kvaPa (l : Loader) (kva : Nat) : Nat := kva - kernelMap + l.k.physBase

def pageFor (host : Host) (space : GuestSpace) (va : Nat) (l : Loader) (m : Mem) : Rc × Nat × Loader × Mem :=
  let pageVa := va &&& pageMask
  match guestLookup (spaceHost host.osMap) space pageVa l m with
  | (found, l) =>
    if found.rc = .ok ∧ found.pa ≠ 0 then (.ok, found.pa >>> 12, l, m)
    else if pageVa < kernelMap then (.invalidParameter, 0, l, m)
    else
      let pa := l.kvaPa pageVa
      if l.k.block.length = 0 ∨ l.k.tableStart < pa + pageSize then (.invalidParameter, 0, l, m)
      else
        match l.k.pseudoToMachinePfn (pa >>> 12) with
        | none => (.error, 0, l, m)
        | some mfn =>
          match l.k.pseudoFrameVa (pa >>> 12) with
          | (p, k) =>
            if p = 0 then (.error, 0, { l with k := k }, m)
            else
              match guestMap (spaceHost host.osMap) space pageVa (ullong (mfn <<< 12)) kernpgTable
                { l with k := k } (m.zero mfn) with
              | (.ok, space, l, m) =>
                (.ok, mfn, { l with k := { l.k with space := some space, pages := l.k.pages + 1 } }, m)
              | (rc, space, l, m) => (rc, 0, { l with k := { l.k with space := some space } }, m)

def setByte (w b v : Nat) : Nat := w - (w / 256 ^ b % 256) * 256 ^ b + v * 256 ^ b

/-- `co_memcpy(p + offset, data, part)` into one frame: `part` bytes of `data` from byte `start` on. -/
def copyBytes (page : Nat → Nat) (offset : Nat) (data : Nat → Nat) (start : Nat) : Nat → Nat → Nat
  | 0 => page
  | part + 1 =>
    let page := copyBytes page offset data start part
    let a := offset + part
    Function.update page (a / 8) (setByte (page (a / 8)) (a % 8) (data (start + part)))

/-- The loop of `co_kload_chunk`. A round takes at least one byte, so `size` rounds suffice. -/
def chunkLoop (host : Host) (data : Nat → Nat) (zero : Bool) : Nat → Nat → Nat → Nat → Loader → Mem → Result
  | 0, _, _, _, l, m => (.ok, l, m)
  | rounds + 1, va, size, start, l, m =>
    if size = 0 then (.ok, l, m)
    else
      let offset := va &&& (pageSize - 1)
      let part := if size < pageSize - offset then size else pageSize - offset
      match l.k.space with
      | none => (.error, l, m)
      | some space =>
        match pageFor host space va l m with
        | (.ok, pfn, l, m) =>
          if zero then chunkLoop host data zero rounds (ullong (va + part)) (size - part) start l m
          else
            match l.k.frameVa pfn with
            | (p, k) =>
              if p = 0 then (.error, { l with k := k }, m)
              else
                chunkLoop host data zero rounds (ullong (va + part)) (size - part) (start + part)
                  { l with k := k }
                  (Function.update m pfn (copyBytes (m pfn) offset data start part))
        | (rc, _, l, m) => (rc, l, m)

structure Chunk where
  va : Nat
  data : Nat → Nat
  size : Nat
  zero : Bool

def chunk (host : Host) (c : Chunk) (l : Loader) (m : Mem) : Result :=
  if l.k.space.isNone then (.error, l, m)
  else if c.va < l.k.minVa ∨ l.k.maxVa < ullong (c.va + c.size) then (.invalidParameter, l, m)
  else
    match chunkLoop host c.data c.zero c.size c.va c.size 0 l m with
    | (.ok, l, m) => (.ok, { l with k := { l.k with chunks := l.k.chunks + 1 } }, m)
    | r => r

/-! ## The direct map -/

def desiredEnd (k : Kload) (ramBytes : Nat) : Nat :=
  if k.tableStart < ramBytes then ullong (k.tableEnd + (ramBytes - k.tableStart)) else k.tableEnd

/-- The state once the arguments of `co_kload_build_ram` are checked. -/
def ramStart (l : Loader) (ramBytes textVa endVa : Nat) : Loader :=
  { l with k := { l.k with
    ramReady := false
    ramBytes := ramBytes
    textPhys := l.kvaPa textVa &&& pageMask
    endPhys := (l.kvaPa endVa + pageSize - 1) &&& pageMask } }

/-- The part of `co_kload_build_ram` that grows RAM and maps what there is of it. -/
def mapRam (host : Host) (space : GuestSpace) (target : Nat) (l : Loader) (m : Mem) : Option Result := do
  -- a failure is only logged
  let (_, l, m) ← growTo host target l m
  match l.k.p2m with
  | none => return (.error, l, m)
  | some p2m =>
    match mapRange host (fun i => directMap + i <<< 12) (fun i => ullong (p2m i <<< 12)) dataFlags
      l.k.backedPages space l m with
    | (rc, done, space, l, m) =>
      return (rc, { l with k := { l.k with
        space := some space, ramPages := done, ramReady := decide (rc = .ok) } }, m)

def buildRam (host : Host) (ramBytes textVa endVa : Nat) (l : Loader) (m : Mem) : Option Result :=
  let notReady := { l with k := { l.k with ramReady := false } }
  match l.k.space with
  | none => some (.error, notReady, m)
  | some space =>
    if l.k.block.length = 0 then some (.error, notReady, m)
    else if textVa < kernelMap ∨ endVa ≤ textVa then some (.invalidParameter, notReady, m)
    else if l.k.tableStart < (l.kvaPa endVa + pageSize - 1) &&& pageMask then
      some (.invalidParameter, notReady, m)
    else if l.k.p2mCapacity < desiredEnd l.k ramBytes >>> 12 then
      some (.invalidParameter, ramStart l ramBytes textVa endVa, m)
    else mapRam host space (desiredEnd l.k ramBytes) (ramStart l ramBytes textVa endVa) m

end Loader

end MoCoLinux
