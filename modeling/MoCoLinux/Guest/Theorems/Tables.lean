import MoCoLinux.Guest.Lemmas
import MoCoLinux.Kload.Lemmas.Frames
import MoCoLinux.Kload.Tables
import MoCoLinux.Kload.Theorems.Translation

/-!
# The static page tables, as the guest would make them
-/

namespace MoCoLinux.Guest

open Arch (Mem isPresent kernelMap)
open Kload (machineizeEntry machineizeLoop pseudoToMachinePa smallGrown)

variable {k : Kload} {g : Guest} {entry : Nat}

/-- The memory once the guest has made the present entries below `n` of frame `q` anew. -/
def remade (g : Guest) (q n : Nat) (m : Mem) : Mem := fun p i =>
  if p = q ∧ i < n ∧ isPresent (m p i) = true then g.makePageEntry (m p i) else m p i

theorem remade_zero (g : Guest) (q : Nat) (m : Mem) : g.remade q 0 m = m := by
  funext p i
  simp [remade]

theorem remade_succ (g : Guest) (q n : Nat) (m : Mem) : g.remade q (n + 1) m =
    (g.remade q n m).write q n (if isPresent (m q n) = true then g.makePageEntry (m q n) else m q n) := by
  funext p i
  by_cases hp : p = q
  · subst hp
    rw [Arch.Mem.write, RadixTree.write_at]
    by_cases hi : i = n
    · simp [remade, hi]
    · have hlt : i < n + 1 ↔ i < n := by omega
      simp [remade, hi, hlt]
  · rw [Arch.Mem.write, RadixTree.write_of_addr_ne _ _ _ _ hp]
    simp [remade, hp]

theorem pseudoToMachinePfn_zero (hg : k.publish = some g) (h : k.pseudoToMachinePfn 0 = none) :
    g.pseudoToMachinePfn 0 = 0 := by
  obtain ⟨p2m, m2p, hp, -, rfl⟩ := Kload.publish_eq_some hg
  simp only [Kload.pseudoToMachinePfn, hp] at h
  split_ifs at h with hcap hfree
  · simp [pseudoToMachinePfn, Nat.le_zero.mp hcap]
  · simp [pseudoToMachinePfn, hfree]

theorem pseudoToMachinePa_eq (hg : k.publish = some g)
    (h : ¬ (k.pseudoToMachinePa (entry &&& Kload.pfnMask) = 0 ∧ entry &&& Kload.pfnMask ≠ 0)) :
    k.pseudoToMachinePa (entry &&& Kload.pfnMask) = ullong (g.pseudoToMachinePfn (entryFrame entry) <<< 12) := by
  have hframe : (entry &&& Kload.pfnMask) >>> 12 = entryFrame entry := rfl
  have hlow : entry &&& Kload.pfnMask &&& (Arch.pageSize - 1) = 0 := by
    rw [Nat.and_assoc]; exact Nat.and_zero _
  cases hpfn : k.pseudoToMachinePfn (entryFrame entry) with
  | some mfn =>
    rw [pseudoToMachinePfn_eq hg hpfn, pseudoToMachinePa, hframe, hpfn, hlow]
    exact Nat.or_zero _
  | none =>
    have hpa : k.pseudoToMachinePa (entry &&& Kload.pfnMask) = 0 := by rw [pseudoToMachinePa, hframe, hpfn]
    -- only page 0 gets past the check
    have h0 : entry &&& Kload.pfnMask = 0 := by_contra fun hne => h ⟨hpa, hne⟩
    have hzero : entryFrame entry = 0 := by rw [← hframe, h0]; rfl
    rw [hzero] at hpfn
    rw [hpa, hzero, pseudoToMachinePfn_zero hg hpfn]
    rfl

theorem machineizeEntry_eq (hg : k.publish = some g) {entry' : Nat} (h : k.machineizeEntry entry = some entry') :
    entry' = if isPresent entry = true then g.makePageEntry entry else entry := by
  unfold machineizeEntry at h
  dsimp only at h
  split_ifs at h with hp hl hz
  · have hguest : g.guest = true := by
      obtain ⟨_, _, -, -, rfl⟩ := Kload.publish_eq_some hg
      rfl
    have hm : entry &&& mappedBits ≠ 0 := fun h0 => by
      have hbit : entry &&& Arch.pagePresent = entry &&& mappedBits &&& Arch.pagePresent := by
        rw [Nat.and_assoc]; rfl
      simp [isPresent, hbit, h0] at hp
    rw [if_pos hp, ← Option.some.inj h, pseudoToMachinePa_eq hg hz, Nat.or_comm, makePageEntry,
      if_neg (by simp [hguest, hm])]
    rfl
  · rw [if_neg hp, ← Option.some.inj h]

theorem machineizeLoop_eq (hg : k.publish = some g) (q n : Nat) (m : Mem) :
    ∃ rc done, k.machineizeLoop q n m = (rc, g.remade q done m) ∧
      (rc = .ok ∧ done = n ∨ rc = .error ∧ done < n ∧ k.machineizeEntry (m q done) = none) := by
  induction n with
  | zero => exact ⟨.ok, 0, by rw [machineizeLoop, remade_zero], .inl ⟨rfl, rfl⟩⟩
  | succ n ih =>
    obtain ⟨rc, done, heq, ⟨rfl, rfl⟩ | ⟨rfl, hlt, hstop⟩⟩ := ih
    · have hsame : g.remade q done m q done = m q done := by simp [remade]
      rw [machineizeLoop, heq]
      dsimp only
      rw [hsame]
      cases he : k.machineizeEntry (m q done) with
      | none => exact ⟨.error, done, rfl, .inr ⟨rfl, Nat.lt_succ_self _, he⟩⟩
      | some entry =>
        refine ⟨.ok, done + 1, ?_, .inl ⟨rfl, rfl⟩⟩
        rw [machineizeEntry_eq hg he, remade_succ]
    · exact ⟨.error, done, by rw [machineizeLoop, heq], .inr ⟨rfl, Nat.lt_succ_of_lt hlt, hstop⟩⟩

/-- After `kload_machineize_table` the table is as the guest's own `co_colinux_make_page_entry` would leave it, up to the
entry that stopped it. -/
theorem static_table_remade {l : Loader} (hg : l.k.publish = some g) (physical : Nat → Nat) (tableVa entries : Nat)
    (m : Mem) :
    let t := (l.k.pseudoFrameVa (l.kvaPage tableVa)).1
    ∃ rc l' done, l.machineizeTable physical tableVa entries m = (rc, l', g.remade (physical t) done m) ∧
      (rc = .ok ∧ done = entries ∨ rc = .error ∧ (done = 0 ∧ t = 0 ∨
        done < entries ∧ l.k.machineizeEntry (m (physical t) done) = none)) := by
  intro t
  obtain ⟨hit, hk⟩ := Kload.pseudoFrameVa_snd l.k (l.kvaPage tableVa)
  rw [Loader.machineizeTable]
  dsimp only
  split
  next hnull => exact ⟨.error, _, 0, by rw [remade_zero], .inr ⟨rfl, .inl ⟨rfl, hnull⟩⟩⟩
  next =>
    -- the lookup moves the cached block alone, so the arrays are those of `l`
    rw [hk]
    obtain ⟨rc, done, heq, hdone⟩ :=
      machineizeLoop_eq (k := { l.k with lastHit := hit }) hg (physical t) entries m
    rw [heq]
    exact ⟨rc, _, done, rfl, hdone.imp_right (.imp_right .inr)⟩

def smallTables : Loader := ⟨smallGrown 2, 0, false⟩

def smallTable : Mem := fun _ i => if i = 3 then 0x63 else 0

/-- A table in page 1, with an entry for page 0. -/
theorem static_table_remade_smallTable : ∃ g l', smallTables.k.publish = some g ∧
    smallTables.machineizeTable (· / 4096 + 99) (kernelMap + 4096) 4 smallTable = (.ok, l', g.remade 101 4 smallTable) := by
  obtain ⟨g, hg⟩ := Option.isSome_iff_exists.mp (by decide +kernel : smallTables.k.publish.isSome = true)
  have hframe : (smallTables.k.pseudoFrameVa (smallTables.kvaPage (kernelMap + 4096))).1 / 4096 + 99 = 101 := by
    decide +kernel
  have hok : (smallTables.machineizeTable (· / 4096 + 99) (kernelMap + 4096) 4 smallTable).1 = .ok := by decide +kernel
  obtain ⟨rc, l', done, heq, hdone⟩ := static_table_remade hg (· / 4096 + 99) (kernelMap + 4096) 4 smallTable
  rw [heq] at hok
  rw [hframe] at heq
  obtain ⟨rfl, rfl⟩ := hdone.resolve_right fun h => absurd (h.1.symm.trans hok) (by decide)
  exact ⟨g, l', hg, heq⟩

end MoCoLinux.Guest
