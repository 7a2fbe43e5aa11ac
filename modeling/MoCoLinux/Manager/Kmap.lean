import MoCoLinux.Kload.Frames
import MoCoLinux.Lib.Runs

/-!
# Guest RAM in a process (`kernel/manager.c`, `os/winnt/kernel/lowlevel/alloc.c`)

KMAP, KMAP_RANGE and KMAP_UNMAP_RANGE on one handle, while the blocks of the guest stay as they are. A request holds the
lock of the handle and is one step.
-/

namespace MoCoLinux

open Kload (blockSearch)

def kmapSliceBytes : Nat := 12 <<< 20

def kmapMaxRanges : Nat := 256

def Kload.blockForPa (k : Kload) (pa : Nat) : Option Block :=
  match blockSearch k.block pa (k.block.length + 1) 0 k.block.length with
  | none => none
  | some found => if found.2.va = 0 then none else some found.2

/-- `co_manager_kmap_slice_t`. -/
structure KmapSlice where
  handle : Nat
  userVa : Nat
  pages : Nat
  pa : Nat
  bytes : Nat
  deriving DecidableEq, Repr

/-- `co_kmap_range_t`. -/
structure KmapRange where
  pa : Nat
  bytes : Nat
  userVa : Nat
  deriving DecidableEq, Repr

def KmapSlice.range (sl : KmapSlice) : KmapRange := ⟨sl.pa, sl.bytes, sl.userVa⟩

/-- The fields of an open descriptor that KMAP uses, and the address space of the process. -/
structure OpenKmap where
  slices : List KmapSlice
  /-- `kmap_slices`. -/
  count : Nat
  reserved : Bool
  user : Nat → Option Nat

structure UserMapping where
  page : Nat
  mdl : Nat

structure MapHost where
  mallocOk : Bool
  mapping : Option UserMapping

structure KmapPiece where
  va : Nat
  pa : Nat
  bytes : Nat

namespace OpenKmap

/-- The pages from `page` on show the memory at the kernel address. -/
def mapPages (physical : Nat → Nat) (user : Nat → Option Nat) (page pages address : Nat) : Nat → Option Nat :=
  fun q => if page ≤ q ∧ q < page + pages then some (physical (address + (q - page) * 4096)) else user q

def clearPages (user : Nat → Option Nat) (page pages : Nat) : Nat → Option Nat :=
  fun q => if page ≤ q ∧ q < page + pages then none else user q

/-- `co_os_userspace_map`. The host maps pages that are free, or none. -/
def userspaceMap (physical : Nat → Nat) (user : Nat → Option Nat) (address pages : Nat) :
    Option UserMapping → Option (UserMapping × (Nat → Option Nat))
  | none => none
  | some u =>
    if u.mdl ≠ 0 ∧ ∀ j < pages, user (u.page + j) = none then
      some (u, mapPages physical user u.page pages address)
    else none

def unmap (user : Nat → Option Nat) (sl : KmapSlice) : Nat → Option Nat :=
  if sl.handle ≠ 0 then clearPages user (sl.userVa / 4096) sl.pages else user

def find (s : OpenKmap) (pa : Nat) : Option KmapSlice :=
  s.slices.find? fun sl => decide (sl.pa ≤ pa ∧ pa - sl.pa < sl.bytes)

def unmapList (user : Nat → Option Nat) : List KmapSlice → (Nat → Option Nat)
  | [] => user
  | sl :: rest => unmapList (unmap user sl) rest

/-- `co_manager_kmap_add_locked`. -/
def add (physical : Nat → Nat) (s : OpenKmap) (host : MapHost) (p : KmapPiece) : Except Rc (KmapSlice × OpenKmap) :=
  let pages := ulong (p.bytes >>> 12)
  if pages = 0 ∨ p.bytes &&& (Arch.pageSize - 1) ≠ 0 then .error .invalidParameter
  else if host.mallocOk = false then .error .outOfMemory
  else
    match userspaceMap physical s.user p.va pages host.mapping with
    | none => .error .error
    | some (u, user) =>
      let sl : KmapSlice := ⟨u.mdl, u.page * 4096, pages, p.pa, p.bytes⟩
      .ok (sl, { s with slices := sl :: s.slices, count := s.count + 1, user := user })

def sliceBytes (maxSlice : Nat) : Nat :=
  let bytes := if maxSlice ≠ 0 then maxSlice else kmapSliceBytes
  (if bytes < Arch.pageSize ∨ kmapSliceBytes < bytes then kmapSliceBytes else bytes) &&& Arch.pageMask

/-- The inner loop of `co_manager_kmap`: what it maps of a block. -/
def pieces (bytes : Nat) (b : Block) : List KmapPiece :=
  (List.range ((b.bytes + bytes - 1) / bytes)).map fun i =>
    ⟨b.va + i * bytes, b.pseudoBase + i * bytes, min (b.bytes - i * bytes) bytes⟩

/-- Both loops, over the pieces that are left; `n` were mapped. -/
def mapPieces (physical : Nat → Nat) (host : Nat → MapHost) :
    List KmapPiece → Nat → OpenKmap → Option (List KmapRange) × OpenKmap
  | [], _, s => (some [], s)
  | p :: rest, n, s =>
    if kmapMaxRanges ≤ n then (none, s)
    else
      match s.add physical (host n) p with
      | .error _ => (none, s)
      | .ok (sl, s) =>
        match mapPieces physical host rest (n + 1) s with
        | (ranges, s) => (ranges.map (sl.range :: ·), s)

/-- `fail_locked`. -/
def kmapFail (s : OpenKmap) : OpenKmap := ⟨[], 0, false, unmapList s.user s.slices⟩

/-- `co_manager_kmap`: the ranges reported, `none` for an error. `ready` is the answer of `co_kload_user_map_try_get`. -/
def kmap (physical : Nat → Nat) (k : Kload) (s : OpenKmap) (ready : Bool) (host : Nat → MapHost) (maxSlice : Nat) :
    Option (List KmapRange) × OpenKmap :=
  if k.userRamVa ≠ 0 then (none, s)
  else if s.reserved = true ∨ s.count ≠ 0 then (none, s)
  else if ready = false then (none, s.kmapFail)
  else
    match mapPieces physical host ((k.block.filter fun b => b.va ≠ 0).flatMap (pieces (sliceBytes maxSlice))) 0
      { s with reserved := true } with
    | (none, s) => (none, s.kmapFail)
    | (some [], s) => (none, s.kmapFail)
    | (some (range :: ranges), s) => (some (range :: ranges), s)

def rangePiece (b : Block) (pa : Nat) : KmapPiece :=
  let off := (pa - b.pseudoBase) / kmapSliceBytes * kmapSliceBytes
  ⟨b.va + off, b.pseudoBase + off, min (b.bytes - off) kmapSliceBytes⟩

/-- The end of a request that failed; `took` if it made the reservation. -/
def backOut (s : OpenKmap) (took : Bool) : OpenKmap :=
  if took = true ∧ s.count = 0 then { s with reserved := false } else s

def rangeAdded (s : OpenKmap) (took : Bool) :
    Except Rc (KmapSlice × OpenKmap) → Except Rc (KmapRange × Bool) × OpenKmap
  | .error rc => (.error rc, s.backOut took)
  | .ok (sl, s) => (.ok (sl.range, false), s)

def rangeReserved (physical : Nat → Nat) (k : Kload) (s : OpenKmap) (took : Bool) (host : MapHost) (pa : Nat) :
    Except Rc (KmapRange × Bool) × OpenKmap :=
  match s.find pa with
  | some sl => (.ok (sl.range, true), s)
  | none =>
    match k.blockForPa pa with
    | none => (.error .error, s.backOut took)
    | some b => s.rangeAdded took (s.add physical host (rangePiece b pa))

/-- `co_manager_kmap_range`: the slice, and whether it was there before. -/
def kmapRange (physical : Nat → Nat) (k : Kload) (s : OpenKmap) (ready : Bool) (host : MapHost) (pa : Nat) :
    Except Rc (KmapRange × Bool) × OpenKmap :=
  if k.userRamVa ≠ 0 then (.error .error, s)
  else if s.reserved = false ∧ ready = false then (.error .error, s)
  else rangeReserved physical k { s with reserved := true } (!s.reserved) host pa

def kmapUnmapRange (s : OpenKmap) (pa : Nat) : Except Rc Nat × OpenKmap :=
  match s.slices.find? fun sl => sl.pa = pa with
  | none => (.error .notFound, s)
  | some sl =>
    (.ok sl.bytes, { s with
        slices := s.slices.eraseP fun sl => sl.pa = pa
        count := s.count - 1
        user := unmap s.user sl })

inductive Request where
  | kmap (ready : Bool) (host : Nat → MapHost) (maxSlice : Nat)
  | kmapRange (ready : Bool) (host : MapHost) (pa : Nat)
  | kmapUnmapRange (pa : Nat)

def handle (physical : Nat → Nat) (k : Kload) (s : OpenKmap) : Request → OpenKmap
  | .kmap ready host maxSlice => (s.kmap physical k ready host maxSlice).2
  | .kmapRange ready host pa => (s.kmapRange physical k ready host pa).2
  | .kmapUnmapRange pa => (s.kmapUnmapRange pa).2

def Fresh (s : OpenKmap) : Prop := s.slices = [] ∧ s.count = 0 ∧ s.reserved = false

def Reachable (physical : Nat → Nat) (k : Kload) (ok : OpenKmap → Request → Prop) : OpenKmap → Prop :=
  Runs.Reach Fresh fun s (request : Request) s' => ok s request ∧ s.handle physical k request = s'

end OpenKmap

namespace KmapSlice

def Apart (a b : KmapSlice) : Prop := a.pa + a.bytes ≤ b.pa ∨ b.pa + b.bytes ≤ a.pa

def Inside (sl : KmapSlice) (b : Block) : Prop :=
  b.pseudoBase ≤ sl.pa ∧ sl.pa + sl.bytes ≤ b.pseudoBase + b.bytes

def Piece (sl : KmapSlice) (b : Block) : Prop :=
  (sl.pa - b.pseudoBase) % kmapSliceBytes = 0 ∧
    sl.bytes = min (b.bytes - (sl.pa - b.pseudoBase)) kmapSliceBytes

end KmapSlice

/-- The process sees the frames of the range at the address it was told. -/
def KmapRange.Shows (r : KmapRange) (user : Nat → Option Nat) (p2m : Nat → Nat) : Prop :=
  ∀ j < r.bytes / 4096, user (r.userVa / 4096 + j) = some (p2m (r.pa / 4096 + j))

/-- When KMAP_RANGE is asked for an address that is in no slice, the slices the handle has in the block of the address
are as KMAP_RANGE cuts it. -/
def OpenKmap.Whole (k : Kload) (s : OpenKmap) : OpenKmap.Request → Prop
  | .kmapRange _ _ pa => s.find pa = none → ∀ b, k.blockForPa pa = some b → ∀ sl ∈ s.slices, sl.Inside b → sl.Piece b
  | _ => True

end MoCoLinux
