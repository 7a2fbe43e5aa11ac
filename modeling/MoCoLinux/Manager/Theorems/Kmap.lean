import MoCoLinux.Manager.Lemmas.Kmap

/-!
# Guest RAM in a process: results
-/

namespace MoCoLinux

open OpenKmap

/-- In every run in which KMAP_RANGE meets only pieces of its own cut: the slices of the handle share no address, each
lies in one block, they are counted right, and a successful KMAP_RANGE returns a slice with the address, at which the
process sees the frames of that range. -/
theorem kmap_slices_apart (physical p2m : Nat → Nat) (k : Kload) (hk : PoolBlocks physical k p2m) (s : OpenKmap)
    (h : OpenKmap.Reachable physical k (OpenKmap.Whole k) s) :
    s.slices.Pairwise KmapSlice.Apart ∧ (∀ sl ∈ s.slices, ∃ b ∈ k.block, sl.Inside b) ∧ s.count = s.slices.length ∧
    ∀ ready host pa r reused s', s.kmapRange physical k ready host pa = (.ok (r, reused), s') →
      (∃ sl ∈ s'.slices, sl.range = r) ∧ r.pa ≤ pa ∧ pa < r.pa + r.bytes ∧ r.Shows s'.user p2m := by
  obtain ⟨hinv, hapart⟩ := h.inv hk.stacked
  refine ⟨hapart, fun sl hsl => ?_, hinv.count, fun ready host pa r reused s' hr => ?_⟩
  · obtain ⟨b, hb, hsees⟩ := (hinv.mapped sl hsl).sees
    exact ⟨b, hb, hsees.inside⟩
  · have hinv' := kmapRange_inv ready host pa hinv
    rw [hr] at hinv'
    obtain ⟨sl, hsl, rfl, hlow, hhigh⟩ := kmapRange_ok hr
    exact ⟨⟨sl, hsl, rfl⟩, hlow, hhigh, (hinv'.mapped sl hsl).shows hk⟩

def twoPageBlock : Kload :=
  { Kload.initial with block := [⟨0x7000, 0, 0x2000, 0⟩], backedPages := 2, p2m := some fun i => 107 + i }

def pagePhysical (va : Nat) : Nat := 100 + va / 4096

theorem twoPageBlock_pool : PoolBlocks pagePhysical twoPageBlock (fun i => 107 + i) := by
  refine ⟨rfl, rfl, ⟨rfl, by decide, by decide, rfl⟩, fun b hb => ?_, fun b hb i hi => ?_⟩
  · obtain rfl := List.mem_singleton.mp hb
    rfl
  · obtain rfl := List.mem_singleton.mp hb
    simp only [pagePhysical]
    omega

def openedKmap : OpenKmap := ⟨[], 0, false, fun _ => none⟩

def mapsAt (page : Nat) : MapHost := ⟨true, some ⟨page, 1⟩⟩

/-- KMAP_RANGE on a fresh handle. -/
theorem kmap_slices_apart_first : ∃ s', openedKmap.kmapRange pagePhysical twoPageBlock true (mapsAt 10) 5000 =
      (.ok (⟨0, 0x2000, 0xa000⟩, false), s') ∧
    KmapRange.Shows ⟨0, 0x2000, 0xa000⟩ s'.user (fun i => 107 + i) := by
  have hfresh : OpenKmap.Reachable pagePhysical twoPageBlock (OpenKmap.Whole twoPageBlock) openedKmap :=
    .start ⟨rfl, rfl, rfl⟩
  obtain ⟨-, -, -, hrange⟩ := kmap_slices_apart pagePhysical _ twoPageBlock twoPageBlock_pool openedKmap hfresh
  have hr : openedKmap.kmapRange pagePhysical twoPageBlock true (mapsAt 10) 5000 =
      (.ok (⟨0, 0x2000, 0xa000⟩, false), (openedKmap.kmapRange pagePhysical twoPageBlock true (mapsAt 10) 5000).2) := rfl
  exact ⟨_, hr, (hrange _ _ _ _ _ _ hr).2.2.2⟩

/-- KMAP cuts the block into single pages, one of them is released, and KMAP_RANGE maps both for its address. -/
theorem kmap_slices_overlap : ∃ s, OpenKmap.Reachable pagePhysical twoPageBlock (fun _ _ => True) s ∧
    ¬s.slices.Pairwise KmapSlice.Apart := by
  have hstart : OpenKmap.Reachable pagePhysical twoPageBlock (fun _ _ => True) openedKmap := .start ⟨rfl, rfl, rfl⟩
  have r₁ := hstart.next (a := .kmap true (fun n => mapsAt (10 + n)) 4096) ⟨trivial, rfl⟩
  have r₂ := r₁.next (a := .kmapUnmapRange 4096) ⟨trivial, rfl⟩
  have r₃ := r₂.next (a := .kmapRange true (mapsAt 20) 4096) ⟨trivial, rfl⟩
  refine ⟨_, r₃, ?_⟩
  have hslices : (((openedKmap.handle pagePhysical twoPageBlock (.kmap true (fun n => mapsAt (10 + n)) 4096)).handle
      pagePhysical twoPageBlock (.kmapUnmapRange 4096)).handle pagePhysical twoPageBlock
        (.kmapRange true (mapsAt 20) 4096)).slices =
      [⟨1, 0x14000, 2, 0, 0x2000⟩, ⟨1, 0xa000, 1, 0, 0x1000⟩] := by
    decide +kernel
  rw [hslices, List.pairwise_cons]
  rintro ⟨hhead, -⟩
  have happart := hhead _ List.mem_cons_self
  simp [KmapSlice.Apart] at happart

end MoCoLinux
