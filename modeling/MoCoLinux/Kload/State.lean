import MoCoLinux.Arch.Space

/-!
# The loader's state (`kernel/kload.c`, `kernel/kload.h`)

One guest exists at a time, in file-static variables; `Kload` is the record of them. An array of the source
is a function of the index, which stands for the memory from the array's base on: an index outside the
allocation has a cell too, and it is for the theorems to say which indices a function touches.
-/

namespace MoCoLinux

open Arch (GuestSpace)

/-- `co_kload_block_t`. A pointer is its address, with 0 for `NULL`. -/
structure Block where
  va : Nat
  pseudoBase : Nat
  bytes : Nat
  mdl : Nat
  deriving DecidableEq, Repr

structure Kload where
  space : Option GuestSpace
  block : List Block
  lastHit : Nat
  userRamVa : Nat
  userRamBytes : Nat
  p2m : Option (Nat → Nat)
  m2p : Option (Nat → Nat)
  p2mAllocPages : Nat
  m2pAllocPages : Nat
  p2mCapacity : Nat
  backedPages : Nat
  m2pSlots : Nat
  m2pMaskValue : Nat
  windowNext : Nat
  windowBasePages : Nat
  physBase : Nat
  tableStart : Nat
  tableEnd : Nat
  tableTop : Nat
  minVa : Nat
  maxVa : Nat
  pages : Nat
  chunks : Nat
  ramBytes : Nat
  textPhys : Nat
  endPhys : Nat
  ramPages : Nat
  userMaps : Nat
  pendingFree : Bool
  ramReady : Bool

namespace Kload

def chunkBytes : Nat := 32 <<< 20

def maxBlocks : Nat := 16384

def userBlockBytes : Nat := 8 <<< 20

def m2pVa : Nat := 0xffffe99fc0000000

def p2mVa : Nat := 0xffffe99f80000000

def translationWindowBytes : Nat := 1 <<< 30

def minTableBytes : Nat := 4 <<< 20

def windowArenaBytes : Nat := 4 <<< 30

def maxRamBytes : Nat := 128 <<< 30

def initial : Kload where
  space := none
  block := []
  lastHit := 0
  userRamVa := 0
  userRamBytes := 0
  p2m := none
  m2p := none
  p2mAllocPages := 0
  m2pAllocPages := 0
  p2mCapacity := 0
  backedPages := 0
  m2pSlots := 0
  m2pMaskValue := 0
  windowNext := 0
  windowBasePages := 0
  physBase := 0
  tableStart := 0
  tableEnd := 0
  tableTop := 0
  minVa := 0
  maxVa := 0
  pages := 0
  chunks := 0
  ramBytes := 0
  textPhys := 0
  endPhys := 0
  ramPages := 0
  userMaps := 0
  pendingFree := false
  ramReady := false

end Kload

end MoCoLinux
