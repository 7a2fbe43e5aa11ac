import MoCoLinux.Kload.Theorems.Ram
import MoCoLinux.Manager.Lemmas.Requests

/-!
# Window requests: results
-/

namespace MoCoLinux.Manager

open Arch (kernelMap)
open Kload Loader

/-- A KWINDOW or KWINDOW_AT request reports OK when the window is there and recorded, and else leaves nothing behind,
exactly if it is refused, or there is memory for the record and the window ends below the end of the p2m. -/
theorem window_requests_honest_iff (s : Manager) (h : Reachable Words s) (opened : Nat) (host : LockHost)
    (va bytes pseudo : Nat) :
    (Honest s opened (s.kwindow opened host va bytes) ↔ s.WindowRefused host va bytes ∨ host.nodeOk = true) ∧
    (Honest s opened (s.kwindowAt opened host va bytes pseudo) ↔ s.WindowAtRefused host va bytes pseudo ∨
      host.nodeOk = true ∧ pseudo / 4096 + ulong bytes / 4096 ≤ s.k.p2mCapacity) := by
  have hkept := h.kept
  constructor
  · by_cases hrefused : s.WindowRefused host va bytes
    · exact iff_of_true (kwindow_refused hrefused) (.inl hrefused)
    · obtain ⟨k, node, hmapped, hin, heq⟩ := kwindow_mapped opened hrefused hkept.next hkept.capacity
      rw [heq, hmapped.honest_iff hkept.capacity, or_iff_right hrefused]
      rw [hmapped.pages] at hin
      exact and_iff_left hin
  · by_cases hrefused : s.WindowAtRefused host va bytes pseudo
    · exact iff_of_true (kwindowAt_refused hrefused) (.inl hrefused)
    · obtain ⟨k, node, hmapped, rfl, heq⟩ := kwindowAt_mapped opened hrefused
      rw [heq, hmapped.honest_iff hkept.capacity, or_iff_right hrefused]

theorem Reachable.begin {s : Manager} (hs : Reachable Words s) (opened : Nat) {host : Host}
    {minVa maxVa ramBytes ramUserVa ramUserBytes : Nat} (hword : maxVa < 2 ^ 64) {rc : Rc} {l : Loader} {m : Arch.Mem}
    (h : Loader.begin host 0 minVa maxVa ramBytes ramUserVa ramUserBytes s.l s.m = some (rc, l, m)) :
    Reachable Words { s.tornDown s.k.free with l := l, m := m } := by
  have hhandle : s.handle opened (.kloadBegin host minVa maxVa ramBytes ramUserVa ramUserBytes) =
      some { s.tornDown s.k.free with l := l, m := m } := Option.bind_eq_some_iff.mpr ⟨_, h, rfl⟩
  have hwords : Words s opened (.kloadBegin host minVa maxVa ramBytes ramUserVa ramUserBytes) := hword
  exact hs.next (a := (opened, .kloadBegin host minVa maxVa ramBytes ramUserVa ramUserBytes)) ⟨hwords, hhandle⟩

theorem reachable_loaded : ∃ s p2m, Reachable Words s ∧ s.windows = [] ∧ s.locked = [] ∧ s.k.p2m = some p2m ∧
    s.k.windowBasePages = 0x40400 ∧ s.k.p2mCapacity = 0x140400 ∧ s.k.windowNext = 0x140400 ∧
    ∀ j, 0x40400 ≤ j → p2m j = 0 := by
  have hstart : Reachable Words (initial fun _ _ => 0) := .start ⟨_, rfl⟩
  have hidle : Idle (initial fun _ _ => 0).l := ⟨rfl, rfl, rfl, rfl, rfl⟩
  have hacc : ¬ BeginRefused (kernelMap + 0x1000000) (kernelMap + 0x2000000) (2 ^ 30) := by decide +kernel
  have hword : kernelMap + 0x2000000 < 2 ^ 64 := by decide
  have A := accepted_of_not_refused hacc hword
  have hview := withView_section A (initial fun _ _ => 0).l.k.free 4096 (by decide) (by decide)
  obtain ⟨l, m, S, hbegin, hbegun⟩ := begin_ok freshHost_answers hidle hacc A
    (section_fits A (by decide +kernel) hview.2) 0 (initial fun _ _ => 0).m
  have hplaced := hbegun.placed
  have hpos : 0 < l.k.backedPages := by
    have hback := hbegun.backed
    rw [hplaced.stop] at hback
    have := A.imageHi_bounds.1
    omega
  have hbase : l.k.windowBasePages = 0x40400 := hplaced.base.trans (by decide +kernel)
  have hcapacity : l.k.p2mCapacity = 0x140400 := hplaced.capacity.trans (by decide +kernel)
  have heffect := begin_effect Kload.initial_kept hword hbegin
  cases heffect with
  | same hsame => exact absurd hsame.backed (Nat.ne_of_gt hpos)
  | emptied hempty => exact absurd hempty.backed (Nat.ne_of_gt hpos)
  | begun bookkept next _ apart vacant =>
    obtain ⟨p2m, -, hp, -⟩ := bookkept.arrays
    exact ⟨_, p2m, hstart.begin 0 hword hbegin, rfl, rfl, hp, hbase, hcapacity, next.trans hcapacity, fun j hj =>
      vacant p2m hp j (apart.trans (hbase ▸ hj))⟩

def lockHost (nodeOk : Bool) : LockHost := ⟨some 7, fun i => 0x1000 + i, true, nodeOk⟩

theorem lockHost_maps {s : Manager} {p2m : Nat → Nat} (hp : s.k.p2m = some p2m)
    (hroom : s.k.windowBasePages < s.k.windowNext) (nodeOk : Bool) : ¬ s.WindowRefused (lockHost nodeOk) 0x5000 4096 := by
  rintro (hlock | hnone | hnext | hbase | ⟨i, hi, hz⟩)
  · simp [LockRefused, lockHost, ulong] at hlock
  · simp [hp] at hnone
  · simp only [ulong] at hnext
    omega
  · simp only [ulong] at hbase
    omega
  · simp [lockHost] at hz

theorem window_requests_honest_one_page : ∃ s, Reachable Words s ∧
    (s.kwindow 0 (lockHost true) 0x5000 4096).2.2.windows.length = 1 ∧
    Honest s 0 (s.kwindow 0 (lockHost true) 0x5000 4096) := by
  obtain ⟨s, p2m, hs, hwindows, -, hp, hbase, hcapacity, hnext, -⟩ := reachable_loaded
  have hhonest := (window_requests_honest_iff s hs 0 (lockHost true) 0x5000 4096 0).1.mpr (.inr rfl)
  refine ⟨s, hs, ?_, hhonest⟩
  obtain ⟨k, node, -, -, heq⟩ := kwindow_mapped 0 (lockHost_maps hp (by omega) true) (by omega) (by omega)
  rw [heq]
  exact congrArg (fun windows => (node :: windows).length) hwindows

/-- There is no memory for the record: OK is reported for a window that was undone. And a window that would begin above
the p2m is mapped and recorded. -/
theorem window_requests_dishonest : ∃ s, Reachable Words s ∧
    ((s.kwindow 0 (lockHost false) 0x5000 4096).1 = .ok ∧ (s.kwindow 0 (lockHost false) 0x5000 4096).2.2.windows = [] ∧
      ¬ Honest s 0 (s.kwindow 0 (lockHost false) 0x5000 4096)) ∧
    (s.kwindowAt 0 (lockHost true) 0x5000 4096 0x200000000).1 = .ok ∧ s.k.p2mCapacity * 4096 < 0x200000000 ∧
      ¬ Honest s 0 (s.kwindowAt 0 (lockHost true) 0x5000 4096 0x200000000) := by
  obtain ⟨s, p2m, hs, hwindows, -, hp, hbase, hcapacity, hnext, hvacant⟩ := reachable_loaded
  refine ⟨s, hs, ?_, ?_⟩
  · obtain ⟨k, node, hmapped, -, heq⟩ := kwindow_mapped 0 (lockHost_maps hp (by omega) false) (by omega) (by omega)
    rw [heq]
    exact ⟨rfl, hwindows, fun h => absurd ((hmapped.honest_iff (by omega) false).mp h).1 nofun⟩
  · have hmaps : ¬ s.WindowAtRefused (lockHost true) 0x5000 4096 0x200000000 := by
      rintro (hlock | hal | hnone | hout | ⟨q, hq, i, hi, hne⟩ | ⟨i, hi, hz⟩)
      · simp [LockRefused, lockHost, ulong] at hlock
      · simp at hal
      · simp [hp] at hnone
      · simp [Kload.windowOutOfBounds, Kload.windowFirst, ulongSub, ulong, hbase, hcapacity] at hout
      · rw [hp, Option.some.injEq] at hq
        subst hq
        obtain rfl : i = 0 := by simpa [ulong] using hi
        exact hne (hvacant _ (by decide))
      · simp [lockHost] at hz
    obtain ⟨k, node, hmapped, hpseudo, heq⟩ := kwindowAt_mapped 0 hmaps
    rw [heq]
    refine ⟨rfl, by omega, fun h => ?_⟩
    have hin := ((hmapped.honest_iff (by omega) true).mp h).2
    rw [hpseudo] at hin
    omega

end MoCoLinux.Manager
