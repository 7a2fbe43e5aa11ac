import MoCoLinux.Arch.Space
import MoCoLinux.Lib.Slots

/-!
# The address space of a passage page (`arch/x86_64/switch.c`)

A `co_arch_passage_page_t` is fifteen pages, which the guest sees where the host has them. The guest's tables are among
these pages: `pml4` is page 1, `pdpt[0]` page 2, `pd[0]` page 4, and `pt[0]` and `pt[1]` are pages 6 and 7.
-/

namespace MoCoLinux.Arch

def passagePages : Nat := 15

/-- An allocation: where the host has it, and the frame behind each of its pages. -/
structure Passage where
  va : Nat
  pfn : Nat → Nat
  aligned : va % 4096 = 0
  canonical : va + passagePages * 4096 ≤ 2 ^ 47 ∨ 2 ^ 64 - 2 ^ 47 ≤ va ∧ va + passagePages * 4096 ≤ 2 ^ 64
  frames : ∀ k < passagePages, pfn k < 2 ^ 51
  distinct : ∀ j < passagePages, ∀ k < passagePages, pfn j = pfn k → j = k

namespace Passage

variable (p : Passage)

def lastVa : Nat := ullong (p.va + passagePages * 4096 - 1)

def pageVa (page : Nat) : Nat := ullong (p.va + page * 4096)

def which (page : Nat) : Nat := if pmdIndex (p.pageVa page) = pmdIndex p.va then 0 else 1

def clearTables (m : Mem) : Mem := Slots.fill (fun i => p.pfn (1 + i)) (fun _ _ => 0) m 7

/-- The loop over the pages. An entry is `co_os_virt_to_phys` of a page with `_KERNPG_TABLE`. -/
def mapPages (m : Mem) : Mem := fun pfn index =>
  Slots.fill (fun page => (p.pfn (6 + p.which page), pteIndex (p.pageVa page))) (fun page => tableEntry (p.pfn page))
    (fun x => m x.1 x.2) passagePages (pfn, index)

def linkTables (m : Mem) : Mem :=
  let m := m.write (p.pfn 4) (pmdIndex p.va) (tableEntry (p.pfn 6))
  let m := if pmdIndex p.lastVa ≠ pmdIndex p.va then
    m.write (p.pfn 4) (pmdIndex p.lastVa) (tableEntry (p.pfn 7)) else m
  let m := m.write (p.pfn 2) (pudIndex p.va) (tableEntry (p.pfn 4))
  m.write (p.pfn 1) (pgdIndex p.va) (tableEntry (p.pfn 2))

/-- `co_build_guest_tables`; `none` is `PFALSE`. -/
def buildGuestTables (m : Mem) : Option Mem :=
  if pudIndex p.va ≠ pudIndex p.lastVa ∨ pgdIndex p.va ≠ pgdIndex p.lastVa then none
  else if 1 < ullongSub (pmdIndex p.lastVa) (pmdIndex p.va) then none
  else some (p.linkTables (p.mapPages (p.clearTables m)))

def candidate (nextPa : Nat) : Option Nat :=
  (List.range passagePages).find? fun page => ullong (p.pfn page <<< 12) == nextPa

/-- The level loop of `co_preflight_lookup`, entered at level `3 - left` with the table in `page`. -/
def preflightLevel (m : Mem) (va want : Nat) : Nat → Nat → Int
  | 0, page =>
    let entry := m (p.pfn page) (spaceIndex va 3)
    if isPresent entry then if entryPa entry = want &&& pageMask then -1 else 3
    else 3
  | left + 1, page =>
    let entry := m (p.pfn page) (spaceIndex va (2 - left))
    if isPresent entry then (p.candidate (entryPa entry)).elim (2 - left) (preflightLevel m va want left)
    else 2 - left

/-- `co_preflight_lookup`; `want` is what the host has at the address. -/
def preflightLookup (m : Mem) (va want : Nat) : Int := p.preflightLevel m va want 3 1

def walker : SpaceHost Unit := ⟨none, fun t => (.error .error, t), fun t _ => t, fun t _ => (true, t)⟩

def pageAt (va : Nat) : Option Nat :=
  if p.va ≤ va ∧ va < p.va + passagePages * 4096 then some ((va - p.va) / 4096) else none

end Passage

end MoCoLinux.Arch
