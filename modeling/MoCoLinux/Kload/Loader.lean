import MoCoLinux.Kload.Translation
import MoCoLinux.Kload.Window
import MoCoLinux.Lib.Runs

/-!
# Runs of the translation primitives

The states a loader reaches from a successful `kload_translation_alloc` by allocating blocks and by mapping
and unmapping windows, in any order.
-/

namespace MoCoLinux.Kload

inductive LoaderOp where
  | blockAlloc (host : Option HostPages) (bytes : Nat)
  | windowMap (mfns : Option (Nat → Nat)) (count : Nat)
  | windowMapAt (mfns : Option (Nat → Nat)) (count pseudo : Nat)
  | windowUnmap (pseudo count : Nat)

/-- One operation; a `kload_block_alloc` whose probe never ends is no step. -/
inductive LoaderStep : Kload → LoaderOp → Kload → Prop where
  | blockAlloc {k host bytes ok k'} : k.blockAlloc host bytes = some (ok, k') →
      LoaderStep k (.blockAlloc host bytes) k'
  | windowMap {k mfns count} : LoaderStep k (.windowMap mfns count) (k.windowMap mfns count).k
  | windowMapAt {k mfns count pseudo} :
      LoaderStep k (.windowMapAt mfns count pseudo) (k.windowMapAt mfns count pseudo).k
  | windowUnmap {k pseudo count} : LoaderStep k (.windowUnmap pseudo count) (k.windowUnmap pseudo count).1

/-- A state right after `kload_translation_alloc`, before any block. -/
def LoaderStart (k : Kload) : Prop :=
  ∃ k₀ capacity, k₀.backedPages = 0 ∧ translationAlloc k₀ capacity true true = (.ok, k)

def LoaderReachable (ok : Kload → LoaderOp → Prop) : Kload → Prop :=
  Runs.Reach LoaderStart fun k op k' => ok k op ∧ LoaderStep k op k'

/-- What the host promises of the pages of a block: their frames are not zero, distinct, and back no other
page of RAM. -/
structure HostPages.Fresh (pages : HostPages) (k : Kload) (n : Nat) : Prop where
  nonzero : ∀ i < n, pages.mfn i ≠ 0
  inj : ∀ i < n, ∀ j < n, pages.mfn i = pages.mfn j → i = j
  new : ∀ p2m, k.p2m = some p2m → ∀ i < k.backedPages, ∀ j < n, p2m i ≠ pages.mfn j

def FreshHost (k : Kload) : LoaderOp → Prop
  | .blockAlloc (some pages) bytes => pages.Fresh k (k.blockPages bytes)
  | _ => True

/-- The operations that keep RAM and windows apart: a block ends below the arena, and a window call names no
page above the p2m, where the bounds test wraps around. -/
def KeepsApart (k : Kload) : LoaderOp → Prop
  | .blockAlloc _ bytes => k.backedPages + k.blockPages bytes ≤ k.windowBasePages
  | .windowMap _ _ => True
  | .windowMapAt _ _ pseudo => windowFirst pseudo ≤ k.p2mCapacity
  | .windowUnmap pseudo _ => windowFirst pseudo ≤ k.p2mCapacity

end MoCoLinux.Kload
