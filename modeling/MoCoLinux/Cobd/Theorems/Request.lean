import MoCoLinux.Cobd.Lemmas.Request
import MoCoLinux.Kload.Theorems.Translation

/-!
# Block requests: results
-/

namespace MoCoLinux.Cobd

open Kload (hostVa)

/-- Whatever guest memory holds and the device does, every call of `co_os_bdev_rw` stays inside the device and inside
one page of guest RAM. If the request returns OK and no described run overlaps the list, the calls move the described
runs byte by byte, in order, from `offset` on. -/
theorem request_sg_exact (dev : Device) (units : Nat → Option Drive) (unit : Int) (offset sgPa count : Nat)
    (write : Bool) (io : Io) (hk : io.k.Populated) (hsg : sgPa < 2 ^ 64) :
    ∃ new, (requestSg dev units unit offset sgPa count write io).2.issued = io.issued ++ new ∧
      (∀ t ∈ new, t.write = write ∧ ∃ d, drive units unit = some d ∧ t.Inside d io.k) ∧
      ((requestSg dev units unit offset sgPa count write io).1 = .ok → dev.Local →
        NoOverlap sgPa count (described io.k.block io.mem sgPa 0 count) →
        new.flatMap Transfer.cells =
          (List.range' offset ((described io.k.block io.mem sgPa 0 count).map Sg.len).sum).zip
            (((described io.k.block io.mem sgPa 0 count).flatMap Sg.run).map (hostVa io.k.block))) := by
  unfold requestSg
  cases hdrive : drive units unit with
  | none => exact ⟨[], (List.append_nil _).symm, nofun, nofun⟩
  | some d =>
    dsimp only
    split
    case isTrue => exact ⟨[], (List.append_nil _).symm, nofun, nofun⟩
    case isFalse hcount =>
      obtain ⟨new, hcarried, hexactly⟩ := sgLoop_spec hdrive hsg (by omega : count ≤ maxSg) count io 0 offset
        hk.backed (Nat.zero_add count) fun h => absurd rfl h
      refine ⟨new, hcarried.issued, fun t ht => ?_, fun hok hlocal hapart => ?_⟩
      · obtain ⟨hinside, hwrite⟩ := hcarried.inside t ht
        exact ⟨hwrite, d, rfl, hinside⟩
      · have hlength : ((described io.k.block io.mem sgPa 0 count).map Sg.len).sum =
            ((described io.k.block io.mem sgPa 0 count).flatMap Sg.run).length := by
          rw [List.length_flatMap]
          exact congrArg List.sum (List.map_congr_left fun d _ => d.length_run.symm)
        rw [hlength]
        exact (hexactly hok hlocal hapart).cells

def twoBlocks : List Block := [⟨0x10000, 0, 4096, 0⟩, ⟨0x50000, 4096, 4096, 0⟩]

/-- Guest RAM with a descriptor at 4088 for eight bytes at 16: the address in one block, the length in the other. -/
def straddling : Io where
  k := { Kload.initial with block := twoBlocks, backedPages := 2 }
  mem := fun a => if a = 0x10ff8 then 16 else if a = 0x50000 then 8 else 0
  issued := []

def hostPage (va mfn : Nat) : Kload.HostPages := ⟨va, 0, fun _ => mfn⟩

def loadOne : Option (Bool × Kload) := (Kload.smallLoader 2).blockAlloc (some (hostPage 0x10000 100)) 4096

def loadTwo : Option (Bool × Kload) := loadOne.bind fun r => r.2.blockAlloc (some (hostPage 0x50000 101)) 4096

theorem straddling_populated : straddling.k.Populated := by
  have hone : loadOne.map (fun r => (r.2.block, r.2.backedPages, r.2.blockPages 4096)) =
      some ([⟨0x10000, 0, 4096, 0⟩], 1, 1) := by decide +kernel
  have htwo : loadTwo.map (fun r => (r.2.block, r.2.backedPages)) = some (twoBlocks, 2) := by decide +kernel
  obtain ⟨⟨ok₂, k₂⟩, hload₂, hblock₂⟩ := Option.map_eq_some_iff.mp htwo
  obtain ⟨⟨ok₁, k₁⟩, hload₁, hload₂⟩ := Option.bind_eq_some_iff.mp hload₂
  simp only [hload₁, Option.map_some, Option.some.injEq, Prod.mk.injEq] at hone hblock₂
  refine ⟨k₂, ?_, hblock₂.1.symm, hblock₂.2.symm⟩
  refine .next (.next (.start ⟨Kload.smallLoader_start 2, rfl⟩) ⟨?_, .blockAlloc hload₁⟩) ⟨?_, .blockAlloc hload₂⟩
  · refine ⟨by decide, fun pages hpages => ?_⟩
    cases hpages
    exact ⟨by decide, nofun⟩
  · refine ⟨by decide, fun pages hpages => ?_⟩
    cases hpages
    refine ⟨by decide, fun b hb => ?_⟩
    rw [hone.1, List.mem_singleton] at hb
    rw [hb, hone.2.1, hone.2.2]
    exact .inl (by decide)

/-- A device of one megabyte on which every call works, and a guest that reads from it. -/
def disk : Device := fun _ _ mem => (.ok, mem)

def oneDrive : Nat → Option Drive := fun _ => some ⟨1 <<< 20, by decide⟩

theorem request_sg_exact_straddling :
    (requestSg disk oneDrive 0 512 4088 1 false straddling).1 = .ok ∧
    (requestSg disk oneDrive 0 512 4088 1 false straddling).2.issued.flatMap Transfer.cells =
      (List.range' 512 8).zip (List.range' 0x10010 8) := by
  have hlist : described straddling.k.block straddling.mem 4088 0 1 = [⟨16, 8⟩] := by decide +kernel
  have hok : (requestSg disk oneDrive 0 512 4088 1 false straddling).1 = .ok := by decide +kernel
  obtain ⟨new, hissued, -, hexact⟩ :=
    request_sg_exact disk oneDrive 0 512 4088 1 false straddling straddling_populated (by decide)
  have hapart : NoOverlap 4088 1 [⟨16, 8⟩] := by
    intro d hd pa hpa
    cases List.mem_singleton.mp hd
    have hrun : 16 ≤ pa ∧ pa < 16 + 8 := List.mem_range'_1.mp hpa
    omega
  refine ⟨hok, ?_⟩
  rw [hissued]
  rw [hlist] at hexact
  exact (hexact hok (fun _ _ _ _ _ => rfl) hapart).trans (by decide +kernel)

end MoCoLinux.Cobd
