import MoCoLinux.Arch.Mmu
import MoCoLinux.Lib.RadixTree

/-!
# Four-level page tables for a guest address space (`arch/x86_64/space.c`)

The machine's memory is a map from frames and word indices to 64-bit words, and a page table is the 512
words of one frame. What space.c asks of the host is a parameter (`SpaceHost`): where table pages come
from, whether a frame can be mapped, and the give-back of an unused page.
-/

namespace MoCoLinux.Arch

abbrev Mem := Nat → Nat → Nat

abbrev Mem.write (m : Mem) (pfn index value : Nat) : Mem := RadixTree.write m pfn index value

/-- The memory with one frame set to zero, as `co_memset(table, 0, CO_ARCH_PAGE_SIZE)` leaves it. -/
def Mem.zero (m : Mem) (pfn : Nat) : Mem := Function.update m pfn fun _ => 0

structure GuestSpace where
  pml4Pfn : Nat
  tables : Nat

/-- The host services of space.c, over a host state `τ`. -/
structure SpaceHost (τ : Type) where
  frameSource : Option (τ → Mem → Except Rc Nat × τ × Mem)
  getPage : τ → Except Rc Nat × τ
  putPage : τ → Nat → τ
  /-- Whether `co_space_map` answers a mapping of the frame. -/
  map : τ → Nat → Bool × τ

def spaceIndex (va : Nat) : Nat → Nat
  | 0 => pgdIndex va
  | 1 => pudIndex va
  | 2 => pmdIndex va
  | _ => pteIndex va

/-- `entry & _PAGE_PRESENT`. -/
def isPresent (entry : Nat) : Bool := entry &&& pagePresent != 0

/-- `entry & _PAGE_PSE`. -/
def isLarge (entry : Nat) : Bool := entry &&& pagePse != 0

def entryPa (entry : Nat) : Nat := entry &&& pageMask &&& pageNxMask

def entryPfn (entry : Nat) : Nat := entryPa entry >>> 12

def tableEntry (next : Nat) : Nat := ullong (next <<< 12) ||| kernpgTable

def leafEntry (pa flags : Nat) : Nat := (pa &&& pageMask) ||| flags

variable {τ : Type}

def newTable (h : SpaceHost τ) (t : τ) (m : Mem) : Except Rc Nat × τ × Mem :=
  match h.frameSource with
  | some source => source t m
  | none =>
    match h.getPage t with
    | (.error rc, t) => (.error rc, t, m)
    | (.ok pfn, t) =>
      match h.map t pfn with
      | (false, t) => (.error .error, h.putPage t pfn, m)
      | (true, t) => (.ok pfn, t, m.zero pfn)

/-- `co_arch_guest_space_create`. `mallocOk` tells whether `co_os_malloc` succeeds. -/
def guestSpaceCreate (h : SpaceHost τ) (mallocOk : Bool) (t : τ) (m : Mem) :
    Except Rc GuestSpace × τ × Mem :=
  if mallocOk then
    match newTable h t m with
    | (.error rc, t, m) => (.error rc, t, m)
    | (.ok pfn, t, m) => (.ok ⟨pfn, 1⟩, t, m)
  else (.error .outOfMemory, t, m)

/-- The level loop of `co_arch_guest_map`, entered at level `3 - left` with the table at `pfn`. -/
def guestMapLevel (h : SpaceHost τ) (va pa flags : Nat) :
    Nat → Nat → GuestSpace → τ → Mem → Rc × GuestSpace × τ × Mem
  | 0, pfn, space, t, m =>
    match h.map t pfn with
    | (false, t) => (.error, space, t, m)
    | (true, t) => (.ok, space, t, m.write pfn (spaceIndex va 3) (leafEntry pa flags))
  | left + 1, pfn, space, t, m =>
    let index := spaceIndex va (2 - left)
    match h.map t pfn with
    | (false, t) => (.error, space, t, m)
    | (true, t) =>
      let entry := m pfn index
      if isPresent entry then
        -- a large page cannot also hold a 4 KB mapping
        if isLarge entry then (.error, space, t, m)
        else guestMapLevel h va pa flags left (entryPfn entry) space t m
      else
        match newTable h t m with
        | (.error rc, t, m) => (rc, space, t, m)
        | (.ok next, t, m) =>
          match h.map t pfn with
          | (false, t) => (.error, space, h.putPage t next, m)
          | (true, t) =>
            -- read again: another mapping may have installed the table meanwhile
            let entry := m pfn index
            if isPresent entry then
              guestMapLevel h va pa flags left (entryPfn entry) space (h.putPage t next) m
            else
              guestMapLevel h va pa flags left next { space with tables := space.tables + 1 } t
                (m.write pfn index (tableEntry next))

def guestMap (h : SpaceHost τ) (space : GuestSpace) (va pa flags : Nat) (t : τ) (m : Mem) :
    Rc × GuestSpace × τ × Mem :=
  if vaCanonical va then guestMapLevel h va pa flags 3 space.pml4Pfn space t m
  else (.invalidParameter, space, t, m)

structure Lookup where
  rc : Rc
  pa : Nat
  level : Int
  deriving DecidableEq, Repr

def guestLookupLevel (h : SpaceHost τ) (va : Nat) : Nat → Nat → τ → Mem → Lookup × τ
  | 0, pfn, t, m =>
    match h.map t pfn with
    | (false, t) => (⟨.error, 0, -1⟩, t)
    | (true, t) =>
      let entry := m pfn (spaceIndex va 3)
      if isPresent entry then (⟨.ok, entryPa entry, -1⟩, t)
      else (⟨.notFound, 0, 3⟩, t)
  | left + 1, pfn, t, m =>
    match h.map t pfn with
    | (false, t) => (⟨.error, 0, -1⟩, t)
    | (true, t) =>
      let entry := m pfn (spaceIndex va (2 - left))
      if isPresent entry then
        -- a large page ends the walk with the base of its region
        if isLarge entry then (⟨.ok, entryPa entry, 2 - left⟩, t)
        else guestLookupLevel h va left (entryPfn entry) t m
      else (⟨.notFound, 0, 2 - left⟩, t)

def guestLookupRoot (h : SpaceHost τ) (root va : Nat) (t : τ) (m : Mem) : Lookup × τ :=
  if vaCanonical va then guestLookupLevel h va 3 root t m
  else (⟨.invalidParameter, 0, -1⟩, t)

def guestLookup (h : SpaceHost τ) (space : GuestSpace) (va : Nat) (t : τ) (m : Mem) : Lookup × τ :=
  guestLookupRoot h space.pml4Pfn va t m

/-- The end of `co_space_free_table`: the page goes back unless there is a frame source, and is counted. -/
def putTable (h : SpaceHost τ) (pfn : Nat) (s : Nat × τ) : Nat × τ :=
  (s.1 + 1, if h.frameSource.isNone then h.putPage s.2 pfn else s.2)

/-- One round of the loop of `co_space_free_table`. A large page maps memory, not a table. -/
def freeEntry (free : Nat → Nat × τ → Nat × τ) (entry : Nat) (s : Nat × τ) : Nat × τ :=
  if isPresent entry && !isLarge entry then free (entryPfn entry) s else s

/-- `co_space_free_table`, entered at level `3 - left`; `*freed` goes with the state of the host. -/
def freeTable (h : SpaceHost τ) (m : Mem) : Nat → Nat → Nat × τ → Nat × τ
  | 0, pfn, s => putTable h pfn s
  | left + 1, pfn, (freed, t) =>
    match h.map t pfn with
    | (false, t) => putTable h pfn (freed, t)
    | (true, t) =>
      putTable h pfn ((List.range 512).foldl (fun s i => freeEntry (freeTable h m left) (m pfn i) s) (freed, t))

/-- `co_arch_guest_space_destroy`: how many tables it counts, and the state of the host. -/
def guestSpaceDestroy (h : SpaceHost τ) (space : GuestSpace) (t : τ) (m : Mem) : Nat × τ :=
  freeTable h m 3 space.pml4Pfn (0, t)

end MoCoLinux.Arch
