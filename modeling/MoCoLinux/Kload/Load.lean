import Mathlib.Data.Nat.Log
import MoCoLinux.Kload.Ram

/-!
# Whole loads

A load is `co_kload_begin`, `co_kload_chunk` calls and `co_kload_build_ram`. Two things are asked of it: the
reserved region holds all the page tables (`TablesSuffice`), and the RAM asked for is backed (`RamBacked`).
-/

namespace MoCoLinux.Loader

open Arch (Mem kernelMap)
open Kload

/-- `co_kload_chunk` calls one after the other, whatever they return. -/
def chunkAll (host : Host) : List Chunk → Loader → Mem → Loader × Mem
  | [], l, m => (l, m)
  | c :: cs, l, m =>
    match chunk host c l m with
    | (_, l, m) => chunkAll host cs l m

structure LoadArgs where
  puts : Nat
  minVa : Nat
  maxVa : Nat
  ramBytes : Nat
  ramUserVa : Nat
  ramUserBytes : Nat
  chunks : List Chunk
  textVa : Nat
  endVa : Nat

def load (host : Host) (a : LoadArgs) (l : Loader) (m : Mem) : Option Result := do
  let (rc, l, m) ← begin host a.puts a.minVa a.maxVa a.ramBytes a.ramUserVa a.ramUserBytes l m
  if rc = .ok then
    match chunkAll host a.chunks l m with
    | (l, m) => buildRam host a.ramBytes a.textVa a.endVa l m
  else return (rc, l, m)

/-- The host answers every request for the memory of a block, never with a frame it handed out before. -/
structure Supplies (host : Host) : Prop where
  answers : ∀ r < maxBlocks, ∃ pages, host.pages r = some pages ∧ pages.va ≠ 0
  frames : ∀ r < maxBlocks, ∀ pages, host.pages r = some pages → ∀ i < 8192,
    pages.mfn i ≠ 0 ∧ pages.mfn i < 2 ^ 40
  distinct : ∀ r < maxBlocks, ∀ r' < maxBlocks, ∀ pages pages', host.pages r = some pages →
    host.pages r' = some pages' → ∀ i < 8192, ∀ i' < 8192, pages.mfn i = pages'.mfn i' → r = r' ∧ i = i'

structure Answers (host : Host) : Prop extends Supplies host where
  p2m : host.p2mOk = true
  m2p : host.m2pOk = true
  malloc : host.mallocOk = true

structure Idle (l : Loader) : Prop where
  pending : l.k.free.pendingFree = false
  block : l.k.free.block = []
  backed : l.k.free.backedPages = 0
  requests : l.requests = 0
  oom : l.tableOom = false

def pagesUpTo (bytes : Nat) : Nat := (bytes + 4095) / 4096

def ramEnd (maxVa ramBytes : Nat) : Nat :=
  tableBytes ramBytes (imageHi maxVa) + max ramBytes (imageHi maxVa)

def tableSupply (maxVa ramBytes : Nat) : Nat := tableBytes ramBytes (imageHi maxVa) / 4096

def p2mPages (maxVa ramBytes : Nat) : Nat := pagesUpTo (capacityPages maxVa ramBytes * 8)

def m2pPages (maxVa ramBytes : Nat) : Nat :=
  pagesUpTo (2 ^ Nat.clog 2 (wantedSlots (capacityPages maxVa ramBytes)) * 4)

def imageLast (maxVa : Nat) : Nat := kernelMap + imageHi maxVa - 1

/-- The tables a load takes: the root, a table of the second level for the two arrays, the image and the
direct map each, a table of the third level for each array, and for every 2 MB and every 1 GB the rest. -/
def tableDemand (minVa maxVa ramBytes : Nat) : Nat :=
  6 + (p2mPages maxVa ramBytes + 511) / 512 + (m2pPages maxVa ramBytes + 511) / 512 +
    (imageLast maxVa / 2 ^ 30 - minVa / 2 ^ 30 + 1) + (imageLast maxVa / 2 ^ 21 - minVa / 2 ^ 21 + 1) +
    (pagesUpTo (ramEnd maxVa ramBytes) + 2 ^ 18 - 1) / 2 ^ 18 +
    (pagesUpTo (ramEnd maxVa ramBytes) + 511) / 512

/-- However this image is loaded with this much RAM, `co_kload_table_frame` never runs out. -/
def TablesSuffice (minVa maxVa ramBytes : Nat) : Prop :=
  ∀ host, Answers host → ∀ l m, Idle l → ∀ a : LoadArgs, a.minVa = minVa → a.maxVa = maxVa →
    a.ramBytes = ramBytes → (∀ c ∈ a.chunks, c.va < 2 ^ 64) →
    ∃ rc l' m', load host a l m = some (rc, l', m') ∧ l'.tableOom = false

def sectionBytes (ramBytes : Nat) : Nat := ramBytes + (256 <<< 20)

/-- However this image is loaded with a view of that size, `co_kload_build_ram` backs all the RAM. -/
def RamBacked (minVa maxVa ramBytes : Nat) : Prop :=
  ∀ host, Answers host → ∀ l m, Idle l → ∀ ramUserVa, ramUserVa ≠ 0 → ramUserVa % 4096 = 0 → ∀ puts l₁ m₁,
    begin host puts minVa maxVa ramBytes ramUserVa (sectionBytes ramBytes) l m = some (.ok, l₁, m₁) →
    ∀ chunks : List Chunk, (∀ c ∈ chunks, c.va < 2 ^ 64) → ∀ textVa endVa, kernelMap ≤ textVa →
    textVa < endVa → endVa ≤ maxVa → ∃ rc l₃ m₃,
      buildRam host ramBytes textVa endVa (chunkAll host chunks l₁ m₁).1 (chunkAll host chunks l₁ m₁).2
        = some (rc, l₃, m₃) ∧
      (l₃.k.tableStart < ramBytes → l₃.k.backedPages * 4096 = l₃.k.tableEnd + (ramBytes - l₃.k.tableStart))

end MoCoLinux.Loader
