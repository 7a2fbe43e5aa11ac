import Mathlib.Tactic.NormNum.NatLog
import MoCoLinux.Kload.Lemmas.Whole

/-!
# The sizes `co_kload_begin` chooses: results
-/

namespace MoCoLinux.Loader

open Arch (Mem kernelMap rangeNodes)
open Kload

variable {minVa maxVa ramBytes : Nat}

def freshHost : Host where
  pages r := some ⟨0x1000, 0, fun i => 1 + r * 8192 + i⟩
  p2mOk := true
  m2pOk := true
  mallocOk := true
  p2mPa _ := 0
  m2pPa _ := 0
  osMap _ := false

theorem freshHost_answers : Answers freshHost where
  answers _ _ := ⟨_, rfl, Nat.succ_ne_zero _⟩
  frames r hr pages hp i hi := by
    cases hp
    have : maxBlocks = 16384 := rfl
    simp only
    omega
  distinct r _ r' _ pages pages' hp hp' i hi i' hi' he := by
    cases hp
    cases hp'
    simp only at he
    omega
  p2m := rfl
  m2p := rfl
  malloc := rfl

def unloaded : Loader := ⟨Kload.initial, 0, false⟩

theorem unloaded_idle : Idle unloaded := ⟨rfl, rfl, rfl, rfl, rfl⟩

theorem tableDemand_le_of_suffice (hacc : ¬ BeginRefused minVa maxVa ramBytes) (hword : maxVa < 2 ^ 64)
    (h : TablesSuffice minVa maxVa ramBytes) : tableDemand minVa maxVa ramBytes ≤ tableSupply maxVa ramBytes := by
  have A := accepted_of_not_refused hacc hword
  obtain ⟨rc, l', m', hload, hoom⟩ :=
    load_everything freshHost_answers unloaded_idle rfl hacc A fun _ _ => 0
  obtain ⟨rc', l'', m'', hload', hno⟩ := h freshHost freshHost_answers unloaded (fun _ _ => 0) unloaded_idle
    (everything minVa maxVa ramBytes) rfl rfl rfl fun c hc => by
      obtain rfl := List.mem_singleton.mp hc
      exact A.image_bounds.2.1.trans_lt A.image_bounds.2.2
  rw [hload] at hload'
  cases hload'
  exact hoom hno

/-- The region never runs out exactly if it has the tables that the arrays, the image and the direct map take
together. -/
theorem tables_suffice_iff (hacc : ¬ BeginRefused minVa maxVa ramBytes) (hword : maxVa < 2 ^ 64) :
    TablesSuffice minVa maxVa ramBytes ↔ tableDemand minVa maxVa ramBytes ≤ tableSupply maxVa ramBytes := by
  refine ⟨tableDemand_le_of_suffice hacc hword, ?_⟩
  rintro hle host hs l m hidle ⟨_, _, _, ramUserVa, ramUserBytes, chunks, textVa, endVa⟩ rfl rfl rfl h64
  obtain ⟨rc, l', m', hload, hoom⟩ :=
    load_tables hs hidle _ hacc (accepted_of_not_refused hacc hword) h64 m
  refine ⟨rc, l', m', hload, ?_⟩
  rcases ho : l'.tableOom with _ | _
  · rfl
  · exact absurd hle (Nat.not_le.mpr (hoom ho))

/-- An image from 16 MB to 32 MB with 1 GB of RAM takes 541 of its 1024 tables. -/
theorem tables_suffice_1GB : TablesSuffice (kernelMap + 0x1000000) (kernelMap + 0x2000000) (2 ^ 30) := by
  refine (tables_suffice_iff (by decide +kernel) (by decide)).mpr ?_
  have hcap : wantedSlots (capacityPages (kernelMap + 0x2000000) (2 ^ 30)) = 1967616 := by decide +kernel
  rw [tableDemand, m2pPages, hcap, show Nat.clog 2 1967616 = 21 by norm_num]
  decide +kernel

/-- The estimate of one table for 2 MB of RAM does not cover the arrays, the tables of the region itself and the
higher levels: with 128 GB of RAM the same image takes 66070 tables of 66048. -/
theorem tables_run_out_128GB :
    ¬ TablesSuffice (kernelMap + 0x1000000) (kernelMap + 0x2000000) (128 * 2 ^ 30) := by
  intro h
  have hle := tableDemand_le_of_suffice (by decide +kernel) (by decide) h
  have hcap : wantedSlots (capacityPages (kernelMap + 0x2000000) (128 * 2 ^ 30)) = 52003584 := by decide +kernel
  rw [tableDemand, m2pPages, hcap, show Nat.clog 2 52003584 = 26 by norm_num] at hle
  exact absurd hle (by decide +kernel)

theorem sectionBytes_eq (ramBytes : Nat) : sectionBytes ramBytes = ramBytes + 2 ^ 28 := rfl

theorem withView_section (A : Accepted minVa maxVa ramBytes) (k : Kload) (ramUserVa : Nat) (h0 : ramUserVa ≠ 0)
    (hal : ramUserVa % 4096 = 0) :
    (k.withView ramUserVa (sectionBytes ramBytes)).userRamVa = ramUserVa ∧
    (k.withView ramUserVa (sectionBytes ramBytes)).userRamBytes = (ramBytes + 2 ^ 28) / 4096 * 4096 := by
  have hram := A.ram
  have hand : ramUserVa &&& (Arch.pageSize - 1) = 0 := by
    have := Nat.and_two_pow_sub_one_eq_mod ramUserVa 12
    rw [show Arch.pageSize - 1 = 2 ^ 12 - 1 by decide, this]
    exact hal
  have hb : ramBytes + 2 ^ 28 ≠ 0 := by omega
  rw [withView, sectionBytes_eq, if_pos ⟨h0, hb, hand⟩]
  exact ⟨rfl, Arch.and_pageMask (by omega)⟩

theorem section_fits (A : Accepted minVa maxVa ramBytes) (hlt : imageHi maxVa < ramBytes) {k : Kload}
    (hk : k.userRamBytes = (ramBytes + 2 ^ 28) / 4096 * 4096) : Fits k maxVa ramBytes := by
  refine Or.inr ?_
  have ht := A.tableBytes_eq
  have hi := A.imageHi_bounds
  have hr := A.ram
  rw [hk]
  rw [Nat.max_eq_left hlt.le] at ht
  generalize tableBytes ramBytes (imageHi maxVa) = tables at *
  generalize imageHi maxVa = image at *
  omega

theorem begin_section (hacc : ¬ BeginRefused minVa maxVa ramBytes) (A : Accepted minVa maxVa ramBytes)
    (hlt : imageHi maxVa < ramBytes) (m : Mem) :
    ∃ l₁ m₁, begin freshHost 0 minVa maxVa ramBytes 4096 (sectionBytes ramBytes) unloaded m = some (.ok, l₁, m₁) := by
  have hview := withView_section A unloaded.k.free 4096 (by decide) (by decide)
  obtain ⟨l₁, m₁, -, hbegin, -⟩ := begin_ok freshHost_answers unloaded_idle hacc A (section_fits A hlt hview.2) 0 m
  exact ⟨l₁, m₁, hbegin⟩

theorem bound_of_ramBacked (hacc : ¬ BeginRefused minVa maxVa ramBytes) (hword : maxVa < 2 ^ 64)
    (h : RamBacked minVa maxVa ramBytes) (hlt : imageHi maxVa < ramBytes) :
    ramBytes % 4096 = 0 ∧ ramBytes ≤ 127 * 2 ^ 30 := by
  have A := accepted_of_not_refused hacc hword
  have hview := withView_section A unloaded.k.free 4096 (by decide) (by decide)
  have hend : kernelMap + 1 ≤ maxVa := A.kernel.trans_lt A.range
  obtain ⟨l₁, m₁, hbegin⟩ := begin_section hacc A hlt fun _ _ => 0
  have hnone : ∀ c ∈ ([] : List Chunk), c.va < 2 ^ 64 := by simp
  obtain ⟨rc, l₃, m₃, hram, hstart, hstop, hbacked⟩ := buildRam_backed freshHost_answers unloaded_idle hacc A
    hbegin rfl hnone (le_refl _) (Nat.lt_succ_self kernelMap) hend
  obtain ⟨-, hbound⟩ := hbacked (section_fits A hlt hview.2)
  obtain ⟨rc', l₃', m₃', hram', hall⟩ := h freshHost freshHost_answers unloaded (fun _ _ => 0) unloaded_idle 4096
    (by decide) (by decide) 0 l₁ m₁ hbegin [] (by simp) kernelMap (kernelMap + 1) (le_refl _)
    (Nat.lt_succ_self _) hend
  rw [hram] at hram'
  cases hram'
  have hall := hall (hstart ▸ hlt)
  have hbound := hbound (by rw [hview.1]; decide)
  have ht := A.tableBytes_eq
  have hi := A.imageHi_bounds
  rw [hstart, hstop] at hall
  rw [hview.2] at hbound
  rw [Nat.max_eq_left hlt.le] at ht
  generalize tableBytes ramBytes (imageHi maxVa) = tables at *
  generalize imageHi maxVa = image at *
  omega

/-- The section is large enough, and the backing exact, for RAM of whole pages up to 127 GB; RAM that ends in
the image needs no more than `co_kload_begin` has backed. -/
theorem ram_backed_iff (hacc : ¬ BeginRefused minVa maxVa ramBytes) (hword : maxVa < 2 ^ 64) :
    RamBacked minVa maxVa ramBytes ↔
      ramBytes ≤ imageHi maxVa ∨ ramBytes % 4096 = 0 ∧ ramBytes ≤ 127 * 2 ^ 30 := by
  have A := accepted_of_not_refused hacc hword
  refine ⟨fun h => ?_, ?_⟩
  · rcases Nat.lt_or_ge (imageHi maxVa) ramBytes with hlt | hle
    · exact Or.inr (bound_of_ramBacked hacc hword h hlt)
    · exact Or.inl hle
  · intro hcond host hs l m hidle ramUserVa h0 hal puts l₁ m₁ hbegin chunks h64 textVa endVa htext hrange hend
    obtain ⟨rc, l₃, m₃, hram, hstart, hstop, hbacked⟩ := buildRam_backed hs hidle hacc A hbegin rfl h64 htext
      hrange hend
    refine ⟨rc, l₃, m₃, hram, fun hlt => ?_⟩
    rw [hstart] at hlt
    obtain ⟨hpages, hlow⟩ := hcond.resolve_left (Nat.not_le.mpr hlt)
    have hview := (withView_section A l.k.free _ h0 hal).2
    have hfull := (hbacked (section_fits A hlt hview)).1
    have ht := A.tableBytes_eq
    have htal := A.tableBytes_bounds.2.2
    rw [Nat.max_eq_left hlt.le] at ht
    rw [hview, ramEnd, Nat.max_eq_left hlt.le, pagesUpTo] at hfull
    rw [hstart, hstop]
    generalize tableBytes ramBytes (imageHi maxVa) = tables at *
    generalize imageHi maxVa = image at *
    have hb := hfull (by omega)
    omega

theorem ram_backed_1GB : RamBacked (kernelMap + 0x1000000) (kernelMap + 0x2000000) (2 ^ 30) :=
  (ram_backed_iff (by decide +kernel) (by decide)).mpr (by decide +kernel)

/-- With more than 127 GB the region of the tables has 258 MB, and the section only 256 MB more than RAM. -/
theorem ram_short_128GB : ¬ RamBacked (kernelMap + 0x1000000) (kernelMap + 0x2000000) (128 * 2 ^ 30) := by
  intro h
  have hbound := bound_of_ramBacked (by decide +kernel) (by decide) h (by decide +kernel)
  omega

end MoCoLinux.Loader
