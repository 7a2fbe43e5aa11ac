import Mathlib.Tactic.IntervalCases
import MoCoLinux.Guest.Lemmas
import MoCoLinux.Kload.Theorems.Translation

/-!
# The guest's page-table entries: results
-/

namespace MoCoLinux.Guest

open Kload

/-- In every state the loader reaches, the guest's lookups in the published arrays agree with the host's; the reverse
lookup answers the frame itself where the host finds none. -/
theorem lookups_agree {k : Kload} (h : LoaderReachable (fun _ _ => True) k) {g : Guest}
    (hg : k.publish = some g) :
    (∀ mfn, g.machineToPseudoPfn mfn = (k.machineToPseudoPfn mfn).getD mfn) ∧
    ∀ ppfn mfn, k.pseudoToMachinePfn ppfn = some mfn → g.pseudoToMachinePfn ppfn = mfn :=
  ⟨machineToPseudoPfn_eq h.bookkept hg, fun _ _ hm => pseudoToMachinePfn_eq hg hm⟩

/-- Machine frame 101 backs page 1 on both sides. -/
theorem lookups_agree_smallGrown : ∃ g, (smallGrown 2).publish = some g ∧
    g.machineToPseudoPfn 101 = 1 ∧ g.pseudoToMachinePfn 1 = 101 := by
  have hr : LoaderReachable (fun _ _ => True) (smallGrown 2) :=
    .next (.start (smallLoader_start 2)) ⟨trivial, .blockAlloc smallGrown_eq⟩
  obtain ⟨p2m, m2p, hp, hm, -⟩ := hr.bookkept.arrays
  have hg : (smallGrown 2).publish
      = some ⟨true, (smallGrown 2).p2mCapacity, (smallGrown 2).m2pMaskValue, p2m, m2p⟩ := by
    rw [publish, hp, hm]
  have hrev : (smallGrown 2).machineToPseudoPfn 101 = some 1 := by decide +kernel
  obtain ⟨hback, hforward⟩ := lookups_agree hr hg
  refine ⟨_, hg, ?_, hforward 1 101 (by decide +kernel)⟩
  rw [hback, hrev, Option.getD_some]

/-- An entry that is read back and made again: the value read, the entry made of it, and its flags. -/
structure RoundTrip (g : Guest) (v read : Nat) : Prop where
  value : g.pageEntryValue (g.makePageEntry v) = read
  again : g.makePageEntry (g.pageEntryValue (g.makePageEntry v)) = g.makePageEntry v
  flags : g.makePageEntry v &&& flagMask = v &&& flagMask

theorem makePageEntry_eq {g : Guest} {v : Nat} (hg : g.guest = true) (hm : v &&& mappedBits ≠ 0) :
    g.makePageEntry v = withFrame v (g.pseudoToMachinePfn (entryFrame v)) := by
  simp [makePageEntry, hg, hm, pseudoToMachineAddr]

theorem pageEntryValue_withFrame {g : Guest} {v pfn : Nat} (hg : g.guest = true) (hm : v &&& mappedBits ≠ 0)
    (hpfn : pfn < 2 ^ 40) (hback : g.machineToPseudoPfn pfn < 2 ^ 40) :
    g.pageEntryValue (withFrame v pfn) = withFrame v (g.machineToPseudoPfn pfn) := by
  simp [pageEntryValue, hg, withFrame_and_mappedBits hpfn, hm, machineToPseudoAddr, entryFrame_withFrame hpfn,
    withFrame_withFrame hpfn hback]

/-- An entry for a backed page reads back as the value it was made from. An entry for a page of a host window reads
back with the machine frame in it, and keeps it when made again, if the frame is not below the number of p2m pages and
backs no page of RAM. -/
theorem page_entry_round_trip {k : Kload}
    (h : LoaderReachable (fun k op => FreshHost k op ∧ KeepsApart k op) k) {g : Guest}
    (hg : k.publish = some g) {v : Nat} (hv : v < 2 ^ 64) (hm : v &&& mappedBits ≠ 0)
    (hframe : g.p2m (entryFrame v) < 2 ^ 40) :
    (entryFrame v < k.backedPages → g.RoundTrip v v) ∧
    (k.backedPages ≤ entryFrame v → entryFrame v < g.p2mPages → g.p2mPages ≤ g.p2m (entryFrame v) →
      (∀ i < k.backedPages, g.p2m i ≠ g.p2m (entryFrame v)) → g.RoundTrip v (g.makePageEntry v)) := by
  have ht := h.translated
  have hrev := machineToPseudoPfn_eq ht.toBookkept hg
  obtain ⟨p2m, m2p, hp, hm2p, rfl⟩ := publish_eq_some hg
  have hback := ht.backed
  have hlt := entryFrame_lt v
  refine ⟨fun hram => ?_, fun hwin hpages hge hno => ?_⟩
  · have hmake : Guest.makePageEntry ⟨true, k.p2mCapacity, k.m2pMaskValue, p2m, m2p⟩ v
        = withFrame v (p2m (entryFrame v)) := by
      rw [makePageEntry_eq rfl hm, pseudoToMachinePfn]
      simp only [Bool.true_eq_false, false_or, if_neg (by omega : ¬ k.p2mCapacity ≤ entryFrame v)]
    have hfound := hrev (p2m (entryFrame v))
    rw [ht.lookup hp hram, Option.getD_some] at hfound
    have hvalue : Guest.pageEntryValue ⟨true, k.p2mCapacity, k.m2pMaskValue, p2m, m2p⟩
        (withFrame v (p2m (entryFrame v))) = v := by
      rw [pageEntryValue_withFrame rfl hm hframe (by rwa [hfound]), hfound, withFrame_entryFrame hv]
    exact ⟨by rw [hmake, hvalue], by rw [hmake, hvalue, hmake],
      by rw [hmake, withFrame_and_flagMask hframe]⟩
  · have hmake : Guest.makePageEntry ⟨true, k.p2mCapacity, k.m2pMaskValue, p2m, m2p⟩ v
        = withFrame v (p2m (entryFrame v)) := by
      rw [makePageEntry_eq rfl hm, pseudoToMachinePfn]
      simp only [Bool.true_eq_false, false_or] at hpages ⊢
      rw [if_neg (by omega)]
    have hsame := hrev (p2m (entryFrame v))
    rw [ht.lookup_none hp hno, Option.getD_none] at hsame
    have hvalue : Guest.pageEntryValue ⟨true, k.p2mCapacity, k.m2pMaskValue, p2m, m2p⟩
        (withFrame v (p2m (entryFrame v))) = withFrame v (p2m (entryFrame v)) := by
      rw [pageEntryValue_withFrame rfl hm hframe (by rwa [hsame]), hsame]
    have hm' : withFrame v (p2m (entryFrame v)) &&& mappedBits ≠ 0 := by
      rwa [withFrame_and_mappedBits hframe]
    have hagain : Guest.makePageEntry ⟨true, k.p2mCapacity, k.m2pMaskValue, p2m, m2p⟩
        (withFrame v (p2m (entryFrame v))) = withFrame v (p2m (entryFrame v)) := by
      rw [makePageEntry_eq rfl hm', entryFrame_withFrame hframe, pseudoToMachinePfn, if_pos (Or.inr hge),
        withFrame_withFrame hframe hframe]
    exact ⟨by rw [hmake, hvalue], by rw [hmake, hvalue, hagain],
      by rw [hmake, withFrame_and_flagMask hframe]⟩

/-- Two backed pages, and the page below the top of the p2m mapped to the frame `mfn` of the host. -/
def smallWindow (mfn : Nat) : Kload := ((smallGrown 2).windowMap (some fun _ => mfn) 1).k

theorem smallWindow_reachable (mfn : Nat) :
    LoaderReachable (fun k op => FreshHost k op ∧ KeepsApart k op) (smallWindow mfn) := by
  have hgrow : FreshHost (smallLoader 2) (.blockAlloc (some twoPages) 8192) ∧
      KeepsApart (smallLoader 2) (.blockAlloc (some twoPages) 8192) :=
    ⟨smallLoader_fresh 2, smallLoader_apart⟩
  have hmap : FreshHost (smallGrown 2) (.windowMap (some fun _ => mfn) 1) ∧
      KeepsApart (smallGrown 2) (.windowMap (some fun _ => mfn) 1) := ⟨trivial, trivial⟩
  exact .next (.next (.start (smallLoader_start 2)) ⟨hgrow, .blockAlloc smallGrown_eq⟩) ⟨hmap, .windowMap⟩

theorem page_entry_round_trip_smallWindow :
    ∃ g, (smallWindow 200).publish = some g ∧ g.RoundTrip 0x1063 0x1063 ∧
      g.RoundTrip 0x3063 (g.makePageEntry 0x3063) := by
  have hr := smallWindow_reachable 200
  obtain ⟨p2m, m2p, hp, hm, -⟩ := hr.bookkept.arrays
  have hg : (smallWindow 200).publish
      = some ⟨true, (smallWindow 200).p2mCapacity, (smallWindow 200).m2pMaskValue, p2m, m2p⟩ := by
    rw [publish, hp, hm]
  have hvals : (smallWindow 200).p2m.map (fun p => (p 0, p 1, p 3)) = some (100, 101, 200) := by
    decide +kernel
  rw [hp, Option.map_some, Option.some.injEq, Prod.mk.injEq, Prod.mk.injEq] at hvals
  have h1 : entryFrame 0x1063 = 1 := by decide
  have h3 : entryFrame 0x3063 = 3 := by decide
  have hbacked : (smallWindow 200).backedPages = 2 := by decide +kernel
  have hcap : (smallWindow 200).p2mCapacity = 4 := by decide +kernel
  refine ⟨_, hg, (page_entry_round_trip hr hg (by decide) (by decide) (by simp [h1, hvals])).1
    (by rw [h1, hbacked]; decide), (page_entry_round_trip hr hg (by decide) (by decide)
    (by simp [h3, hvals])).2 (by rw [h3, hbacked]; decide) (by simp [h3, hcap]) (by simp [h3, hcap, hvals])
    fun i hi => ?_⟩
  rw [hbacked] at hi
  interval_cases i <;> simp [h3, hvals]

/-- A window onto machine frame 1, below the number of p2m pages: its entry reads back as an entry of page 1, and made
again it names the frame of that page of RAM. -/
theorem window_entry_changes_frame :
    LoaderReachable (fun k op => FreshHost k op ∧ KeepsApart k op) (smallWindow 1) ∧
    (smallWindow 1).backedPages = 2 ∧ (smallWindow 1).pseudoToMachinePfn (entryFrame 0x3063) = some 1 ∧
    ((smallWindow 1).publish.map fun g => (g.p2mPages, g.makePageEntry 0x3063,
      g.pageEntryValue (g.makePageEntry 0x3063),
      g.makePageEntry (g.pageEntryValue (g.makePageEntry 0x3063)))) = some (4, 0x1063, 0x1063, 0x65063) :=
  ⟨smallWindow_reachable 1, by decide +kernel, by decide +kernel, by decide +kernel⟩

end MoCoLinux.Guest
