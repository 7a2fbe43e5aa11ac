import MoCoLinux.Arch.Space

/-!
# A guest space as a finite map

What space.c is for: a map from 4 KB pages of virtual addresses to physical pages. `lastMapped` is that map
after a sequence of calls, and `FrameSource` is what the callers assume about where tables come from.
-/

namespace MoCoLinux.Arch

variable {τ : Type}

/-- The frame source hands out fresh, zeroed frames or fails, and disturbs no frame it handed out before. It
may rely on an invariant of its own state, which it keeps. -/
structure FrameSource (h : SpaceHost τ) where
  Inv : τ → Prop
  used : τ → Nat → Prop
  newTable_ok : ∀ {t m pfn t' m'}, Inv t → newTable h t m = (.ok pfn, t', m') →
    Inv t' ∧ ¬ used t pfn ∧ used t' pfn ∧ pfn < 2 ^ 40 ∧ (∀ i, m' pfn i = 0) ∧
      ∀ q, used t q → used t' q ∧ m' q = m q
  newTable_error : ∀ {t m rc t' m'}, Inv t → newTable h t m = (.error rc, t', m') →
    Inv t' ∧ rc ≠ .ok ∧ ∀ q, used t q → used t' q ∧ m' q = m q
  map_inv : ∀ {t} pfn, Inv t → Inv (h.map t pfn).2
  map_used : ∀ {t q} pfn, used t q → used (h.map t pfn).2 q
  putPage_inv : ∀ {t} pfn, Inv t → Inv (h.putPage t pfn)
  putPage_used : ∀ {t q pfn}, used t q → q ≠ pfn → used (h.putPage t pfn) q

structure MapCall where
  va : Nat
  pa : Nat
  flags : Nat
  deriving DecidableEq, Repr

/-- A call that maps a page: the flags say present and hold no address bit, and the physical address
leaves the no-execute bit alone. -/
structure MapCall.WellFormed (c : MapCall) : Prop where
  present : isPresent c.flags = true
  flags : entryPa c.flags = 0
  pa : c.pa < 2 ^ 63

def guestMapAll (h : SpaceHost τ) : List MapCall → GuestSpace → τ → Mem → List Rc × GuestSpace × τ × Mem
  | [], space, t, m => ([], space, t, m)
  | c :: cs, space, t, m =>
    let (rc, space, t, m) := guestMap h space c.va c.pa c.flags t m
    let (rcs, space, t, m) := guestMapAll h cs space t m
    (rc :: rcs, space, t, m)

def lastMapped : List (MapCall × Rc) → (Nat → Option Nat) → Nat → Option Nat
  | [], f => f
  | (c, rc) :: cs, f =>
    lastMapped cs (if rc = .ok then Function.update f (c.va / 4096) (some (c.pa / 4096 * 4096)) else f)

def Lookup.Finds (r : Lookup) : Option Nat → Prop
  | some page => r.rc = .ok ∧ r.pa = page
  | none => r.rc = .notFound ∧ r.pa = 0

end MoCoLinux.Arch
