import MoCoLinux.Kload.Window
import MoCoLinux.Lib.Runs

/-!
# Live windows

`Arena` pairs the loader's state with the windows that are mapped in it. A window enters the list when its
map call succeeds and leaves it when it is unmapped; `co_manager_window_release` lets a caller unmap only a
window of the list, with the address and count it was mapped with.
-/

namespace MoCoLinux.Kload

structure Window where
  pseudo : Nat
  count : Nat
  mfns : Nat → Nat
  /-- Mapped by `co_kload_window_map_at`, at an address the caller chose. -/
  placed : Bool

def Window.slot (w : Window) (i : Nat) : Nat := windowSlot (windowFirst w.pseudo) i

def Window.Disjoint (w v : Window) : Prop := ∀ i < w.count, ∀ j < v.count, w.slot i ≠ v.slot j

structure Arena where
  k : Kload
  live : List Window

inductive WindowOp where
  | map (mfns : Option (Nat → Nat)) (count : Nat)
  | mapAt (mfns : Option (Nat → Nat)) (count pseudo : Nat)
  | unmap (w : Window)

namespace Arena

def afterMap (s : Arena) (r : WindowCall) (w : Window) : Arena :=
  ⟨r.k, if r.rc = .ok then w :: s.live else s.live⟩

def map (s : Arena) (mfns : Option (Nat → Nat)) (count : Nat) : Arena :=
  let r := s.k.windowMap mfns count
  s.afterMap r ⟨r.pseudo, count, mfns.getD fun _ => 0, false⟩

def mapAt (s : Arena) (mfns : Option (Nat → Nat)) (count pseudo : Nat) : Arena :=
  s.afterMap (s.k.windowMapAt mfns count pseudo) ⟨pseudo, count, mfns.getD fun _ => 0, true⟩

inductive Step : Arena → WindowOp → Arena → Prop where
  | map {s mfns count} : Step s (.map mfns count) (s.map mfns count)
  | mapAt {s mfns count pseudo} : Step s (.mapAt mfns count pseudo) (s.mapAt mfns count pseudo)
  | unmap {k before w after} :
      Step ⟨k, before ++ w :: after⟩ (.unmap w) ⟨(k.windowUnmap w.pseudo w.count).1, before ++ after⟩

/-- The state a loader run starts its window calls in: nothing is mapped, and the watermark is at the top of
the p2m, whose capacity is an `unsigned long`. -/
structure Start (s : Arena) : Prop where
  live : s.live = []
  next : s.k.windowNext = s.k.p2mCapacity
  capacity : s.k.p2mCapacity < 2 ^ 32

def Holds (s : Arena) (w : Window) : Prop :=
  ∃ p2m, s.k.p2m = some p2m ∧ ∀ i < w.count, p2m (w.slot i) = w.mfns i

/-- The live windows are pairwise disjoint, and each slot of a live window holds the frame it was mapped
with. -/
structure Intact (s : Arena) : Prop where
  disjoint : s.live.Pairwise Window.Disjoint
  holds : ∀ w ∈ s.live, s.Holds w

/-- No slot of a live window of `s` differs in `s'`. -/
def SameWindows (s s' : Arena) : Prop :=
  ∀ w ∈ s.live, ∀ i < w.count,
    (s'.k.p2m.map fun p2m => p2m (w.slot i)) = s.k.p2m.map fun p2m => p2m (w.slot i)

/-- A map call that fails leaves the slots of the live windows alone. -/
def FailureKeeps (s : Arena) : WindowOp → Prop
  | .map mfns count => (s.k.windowMap mfns count).rc ≠ .ok → s.SameWindows (s.map mfns count)
  | .mapAt mfns count pseudo =>
    (s.k.windowMapAt mfns count pseudo).rc ≠ .ok → s.SameWindows (s.mapAt mfns count pseudo)
  | .unmap _ => True

/-- The calls that keep the windows apart. `co_kload_window_map` takes the pages below the watermark without looking,
and the bounds test of `co_kload_window_map_at` wraps around for pages above the top of the p2m. -/
def Allowed (s : Arena) : WindowOp → Prop
  | .map _ count => count ≤ s.k.windowNext → ∀ w ∈ s.live, w.placed = true → ∀ i < w.count,
      w.slot i < s.k.windowNext - count ∨ s.k.windowNext ≤ w.slot i
  | .mapAt _ _ pseudo => pseudo / 4096 ≤ s.k.p2mCapacity
  | .unmap _ => True

def Reachable (ok : Arena → WindowOp → Prop) : Arena → Prop :=
  Runs.Reach Start fun s op s' => ok s op ∧ Step s op s'

end Arena

end MoCoLinux.Kload
