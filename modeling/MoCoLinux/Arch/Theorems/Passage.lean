import MoCoLinux.Arch.Lemmas.Lookup
import MoCoLinux.Arch.Passage

/-!
# The address space of a passage page: results
-/

namespace MoCoLinux.Arch.Passage

variable {p : Passage} {m m' : Mem} {va k : Nat}

theorem bounds (p : Passage) : p.va + passagePages * 4096 ≤ 2 ^ 64 := by
  rcases p.canonical with h | h <;> omega

theorem pageVa_eq (hk : k < passagePages) : p.pageVa k = p.va + k * 4096 := by
  have hp := p.bounds
  simp only [passagePages] at hk hp
  exact ullong_of_lt (by omega)

theorem lastVa_eq (p : Passage) : p.lastVa = p.va + 61439 := by
  have hp := p.bounds
  simp only [passagePages] at hp
  rw [lastVa, passagePages, ullong_of_lt (by omega)]
  omega

/-- The allocation lies in one 1 GB region. -/
structure Close (p : Passage) : Prop where
  pud : pudIndex p.va = pudIndex p.lastVa
  pgd : pgdIndex p.va = pgdIndex p.lastVa

theorem Close.region (h : Close p) : p.va / 2 ^ 30 = (p.va + 61439) / 2 ^ 30 := by
  have hpud := h.pud
  have hpgd := h.pgd
  simp only [lastVa_eq, pudIndex_eq, pgdIndex_eq] at hpud hpgd
  omega

theorem Close.indices (h : Close p) (hk : k < passagePages) :
    pudIndex (p.pageVa k) = pudIndex p.va ∧ pgdIndex (p.pageVa k) = pgdIndex p.va ∧
      (pmdIndex (p.pageVa k) = pmdIndex p.va ∨ pmdIndex (p.pageVa k) = pmdIndex p.lastVa) := by
  have hregion := h.region
  rw [pageVa_eq hk, lastVa_eq]
  simp only [passagePages] at hk
  simp only [pudIndex_eq, pgdIndex_eq, pmdIndex_eq]
  refine ⟨?_, ?_, ?_⟩ <;> omega

theorem pteIndex_inj {j : Nat} (hj : j < passagePages) (hk : k < passagePages)
    (h : pteIndex (p.pageVa j) = pteIndex (p.pageVa k)) : j = k := by
  rw [pageVa_eq hj, pageVa_eq hk, pteIndex_eq, pteIndex_eq] at h
  simp only [passagePages] at hj hk
  have hp := p.aligned
  omega

structure Built (p : Passage) (m : Mem) : Prop where
  pml4 : ∀ i, m (p.pfn 1) i = if i = pgdIndex p.va then tableEntry (p.pfn 2) else 0
  pdpt : ∀ i, m (p.pfn 2) i = if i = pudIndex p.va then tableEntry (p.pfn 4) else 0
  pd : ∀ i, m (p.pfn 4) i = if i = pmdIndex p.va then tableEntry (p.pfn 6)
    else if i = pmdIndex p.lastVa then tableEntry (p.pfn 7) else 0
  page : ∀ k < passagePages, m (p.pfn (6 + p.which k)) (pteIndex (p.pageVa k)) = tableEntry (p.pfn k)
  absent : ∀ w < 2, ∀ i, (∀ k < passagePages, p.which k = w → pteIndex (p.pageVa k) ≠ i) → m (p.pfn (6 + w)) i = 0

theorem pfn_ne {j k : Nat} (hj : j < passagePages) (hk : k < passagePages) (h : j ≠ k) : p.pfn j ≠ p.pfn k :=
  fun he => h (p.distinct j hj k hk he)

theorem which_lt (p : Passage) (k : Nat) : p.which k < 2 := by
  rw [which]
  split <;> decide

theorem clearTables_eq {j : Nat} (h0 : 0 < j) (hj : j < 8) (m : Mem) : p.clearTables m (p.pfn j) = fun _ => 0 := by
  obtain ⟨i, rfl⟩ : ∃ i, j = 1 + i := ⟨j - 1, by omega⟩
  exact Slots.fill_const_slot (fun _ => 0) (i := i) (by omega)

theorem mapPages_page (hk : k < passagePages) (m : Mem) :
    p.mapPages m (p.pfn (6 + p.which k)) (pteIndex (p.pageVa k)) = tableEntry (p.pfn k) :=
  Slots.fill_slot (fun _ hi _ hj he => pteIndex_inj hi hj (congrArg Prod.snd he)) hk

theorem mapPages_of_ne {q i : Nat} (h : ∀ k < passagePages, p.pfn (6 + p.which k) = q → pteIndex (p.pageVa k) ≠ i)
    (m : Mem) : p.mapPages m q i = m q i :=
  Slots.fill_of_ne fun k hk he => h k hk (congrArg Prod.fst he) (congrArg Prod.snd he)

theorem linkTables_eq (p : Passage) (m : Mem) (q i : Nat) : p.linkTables m q i =
    if q = p.pfn 1 ∧ i = pgdIndex p.va then tableEntry (p.pfn 2)
    else if q = p.pfn 2 ∧ i = pudIndex p.va then tableEntry (p.pfn 4)
    else if q = p.pfn 4 ∧ i = pmdIndex p.va then tableEntry (p.pfn 6)
    else if q = p.pfn 4 ∧ i = pmdIndex p.lastVa then tableEntry (p.pfn 7) else m q i := by
  have hwrite : ∀ (m : Mem) (a j w : Nat), m.write a j w q i = if q = a ∧ i = j then w else m q i := by
    intro m a j w
    by_cases hq : q = a
    · simp [hq, Mem.write, RadixTree.write_at]
    · simp [hq, Mem.write, RadixTree.write_of_addr_ne]
  rw [linkTables, hwrite, hwrite]
  by_cases hmove : pmdIndex p.lastVa = pmdIndex p.va
  · rw [if_neg (not_not.mpr hmove), hwrite, hmove]
    grind
  · rw [if_pos hmove, hwrite, hwrite]
    grind

theorem built (hm : p.buildGuestTables m = some m') : Close p ∧ Built p m' := by
  rw [buildGuestTables] at hm
  split at hm
  · cases hm
  rename_i hclose
  split at hm
  · cases hm
  rw [not_or, not_not, not_not] at hclose
  obtain rfl := Option.some.inj hm
  have hne : ∀ {j k}, j < 15 → k < 15 → j ≠ k → p.pfn j ≠ p.pfn k := pfn_ne
  have hempty : ∀ {j}, 0 < j → j < 6 → ∀ i, p.mapPages (p.clearTables m) (p.pfn j) i = 0 := by
    intro j h0 hj i
    rw [mapPages_of_ne fun k _ he => absurd he (hne ?_ (by omega) (by omega)), clearTables_eq h0 (by omega)]
    have hk := p.which_lt k
    omega
  refine ⟨⟨hclose.1, hclose.2⟩, fun i => ?_, fun i => ?_, fun i => ?_, fun k hk => ?_, fun w hw i hi => ?_⟩
  · simp [linkTables_eq, hne, hempty]
  · simp [linkTables_eq, hne, hempty]
  · simp [linkTables_eq, hne, hempty]
  · have hw := p.which_lt k
    rw [linkTables_eq, if_neg, if_neg, if_neg, if_neg, mapPages_page hk]
    all_goals exact fun h => hne (by omega) (by omega) (by omega) h.1
  · rw [linkTables_eq, if_neg, if_neg, if_neg, if_neg, mapPages_of_ne, clearTables_eq (by omega) (by omega)]
    · intro k hk he
      have hlt := p.which_lt k
      have hsame := p.distinct _ (by simp only [passagePages]; omega) _ (by simp only [passagePages]; omega) he
      exact hi k hk (by omega)
    all_goals exact fun h => hne (by omega) (by omega) (by omega) h.1

theorem walk_link {left pfn next : Nat} {c : Prop} [Decidable c] (hnext : next < 2 ^ 51)
    (he : m pfn (spaceIndex va (2 - left)) = if c then tableEntry next else 0) :
    guestLookupLevel walker va (left + 1) pfn () m =
      if c then guestLookupLevel walker va left next () m else (⟨.notFound, 0, 2 - left⟩, ()) := by
  rw [guestLookupLevel]
  simp only [walker, he]
  by_cases hc : c
  · simp only [if_pos hc, isPresent_tableEntry hnext, isLarge_tableEntry hnext, entryPfn_tableEntry hnext]
    rfl
  · simp only [if_neg hc]
    rfl

theorem same_page {va' : Nat} (hva : vaCanonical va = true) (hva' : vaCanonical va' = true) :
    (pgdIndex va = pgdIndex va' ∧ pudIndex va = pudIndex va' ∧ pmdIndex va = pmdIndex va' ∧
      pteIndex va = pteIndex va') ↔ va / 4096 = va' / 4096 := by
  rw [← page_eq_iff hva hva']
  simp only [pathTo, spaceIndex, List.cons.injEq, and_true]
  tauto

theorem pageVa_canonical (hk : k < passagePages) : vaCanonical (p.pageVa k) = true := by
  rw [vaCanonical_iff, pageVa_eq hk]
  have hc := p.canonical
  simp only [passagePages] at hk hc
  omega

def tableAt (p : Passage) (va : Nat) : Nat := 6 + if pmdIndex va = pmdIndex p.va then 0 else 1

def Known (p : Passage) (va : Nat) : Prop :=
  pgdIndex va = pgdIndex p.va ∧ pudIndex va = pudIndex p.va ∧
    (pmdIndex va = pmdIndex p.va ∨ pmdIndex va = pmdIndex p.lastVa)

theorem tableAt_lt (p : Passage) (va : Nat) : p.tableAt va < passagePages := by
  rw [tableAt]
  split <;> decide

theorem Built.pd_eq (B : Built p m) (va : Nat) : m (p.pfn 4) (pmdIndex va) =
    if pmdIndex va = pmdIndex p.va ∨ pmdIndex va = pmdIndex p.lastVa then tableEntry (p.pfn (p.tableAt va)) else 0 := by
  rw [B.pd, tableAt]
  grind

theorem Built.walk (B : Built p m) :
    (Known p va → guestLookupLevel walker va 3 (p.pfn 1) () m =
      guestLookupLevel walker va 0 (p.pfn (p.tableAt va)) () m) ∧
    (¬ Known p va → (guestLookupLevel walker va 3 (p.pfn 1) () m).1.Finds none) := by
  rw [walk_link (c := pgdIndex va = pgdIndex p.va) (p.frames 2 (by decide)) (B.pml4 _),
    walk_link (c := pudIndex va = pudIndex p.va) (p.frames 4 (by decide)) (B.pdpt _),
    walk_link (p.frames _ (tableAt_lt p va)) (B.pd_eq va)]
  constructor
  · rintro ⟨hpgd, hpud, hpmd⟩
    rw [if_pos hpgd, if_pos hpud, if_pos hpmd]
  · intro h
    split
    · split
      · rw [if_neg fun hpmd => h ⟨‹_›, ‹_›, hpmd⟩]
        exact ⟨rfl, rfl⟩
      · exact ⟨rfl, rfl⟩
    · exact ⟨rfl, rfl⟩

theorem pageAt_eq_some (hk : k < passagePages) : p.pageAt va = some k ↔ va / 4096 = p.pageVa k / 4096 := by
  rw [pageAt, pageVa_eq hk]
  have hal := p.aligned
  have hlt : k < 15 := hk
  have hcount : passagePages = 15 := rfl
  split
  · rw [Option.some.injEq]
    omega
  · simp only [reduceCtorEq, false_iff]
    omega

theorem entryPa_tableEntry {next : Nat} (h : next < 2 ^ 51) : entryPa (tableEntry next) = next * 4096 := by
  rw [entryPa_eq, tableEntry_eq h]
  omega

theorem pageAt_lt {page : Nat} (h : p.pageAt va = some page) : page < passagePages := by
  rw [pageAt] at h
  split at h
  · obtain rfl := Option.some.inj h
    simp only [passagePages] at *
    omega
  · cases h

theorem Built.leaf_some (B : Built p m) (hva : vaCanonical va = true) (h : p.pageAt va = some k) :
    m (p.pfn (p.tableAt va)) (pteIndex va) = tableEntry (p.pfn k) := by
  have hk := pageAt_lt h
  obtain ⟨-, -, hpmd, hpte⟩ := (same_page hva (pageVa_canonical hk)).mpr ((pageAt_eq_some hk).mp h)
  rw [tableAt, hpmd, hpte]
  exact B.page k hk

theorem Built.leaf_none (hc : Close p) (B : Built p m) (hva : vaCanonical va = true) (hknown : Known p va)
    (h : p.pageAt va = none) : m (p.pfn (p.tableAt va)) (pteIndex va) = 0 := by
  refine B.absent (if pmdIndex va = pmdIndex p.va then 0 else 1) (by split <;> decide) _ fun k hk hwhich hpte => ?_
  obtain ⟨hpud, hpgd, hpmd⟩ := hc.indices hk
  -- A page of the same table with the same index is the page of the address.
  have hregion : pmdIndex va = pmdIndex (p.pageVa k) := by
    have hlast := hknown.2.2
    rw [which] at hwhich
    grind
  have hpage := (same_page hva (pageVa_canonical hk)).mp
    ⟨hknown.1.trans hpgd.symm, hknown.2.1.trans hpud.symm, hregion, hpte.symm⟩
  rw [(pageAt_eq_some hk).mpr hpage] at h
  cases h

theorem pageAt_known (hc : Close p) (hva : vaCanonical va = true) {k : Nat} (h : p.pageAt va = some k) : Known p va := by
  obtain ⟨hpud, hpgd, hpmd⟩ := hc.indices (pageAt_lt h)
  have hsame := (same_page hva (pageVa_canonical (pageAt_lt h))).mpr ((pageAt_eq_some (pageAt_lt h)).mp h)
  exact ⟨hsame.1.trans hpgd, hsame.2.1.trans hpud, by rwa [hsame.2.2.1]⟩

theorem candidate_eq (hk : k < passagePages) : p.candidate (p.pfn k * 4096) = some k := by
  have hpa : ∀ j < passagePages, ullong (p.pfn j <<< 12) = p.pfn j * 4096 := by
    intro j hj
    have hframe := p.frames j hj
    have hshift : p.pfn j <<< 12 = p.pfn j * 4096 := Nat.shiftLeft_eq _ _
    rw [hshift, ullong_of_lt (by omega)]
  rw [candidate, List.find?_range_eq_some]
  refine ⟨by simp [hpa k hk], List.mem_range.mpr hk, fun j hj => ?_⟩
  have hne := pfn_ne (p := p) (Nat.lt_trans hj hk) hk (Nat.ne_of_lt hj)
  simp [hpa j (Nat.lt_trans hj hk), hne]

theorem preflight_link {left page next want : Nat} (hnext : next < passagePages)
    (he : m (p.pfn page) (spaceIndex va (2 - left)) = tableEntry (p.pfn next)) :
    p.preflightLevel m va want (left + 1) page = p.preflightLevel m va want left next := by
  rw [preflightLevel]
  simp only [he, isPresent_tableEntry (p.frames _ hnext), entryPa_tableEntry (p.frames _ hnext), candidate_eq hnext]
  rfl

/-- Whatever frames the pages have: a walk from the PML4 finds the frame of its own page at each address of the
allocation, and nothing elsewhere; and `co_preflight_lookup` finds what the host has at the addresses of the
allocation. -/
theorem buildGuestTables_maps (p : Passage) (m m' : Mem) (h : p.buildGuestTables m = some m') (va : Nat)
    (hva : vaCanonical va = true) :
    (guestLookupRoot walker (p.pfn 1) va () m').1.Finds ((p.pageAt va).map fun k => p.pfn k * 4096) ∧
      ∀ k, p.pageAt va = some k → p.preflightLookup m' va (p.pfn k * 4096 + va % 4096) = -1 := by
  obtain ⟨hc, B⟩ := built h
  constructor
  · rw [guestLookupRoot, if_pos hva]
    cases hpage : p.pageAt va with
    | some k =>
      have hk := pageAt_lt hpage
      rw [B.walk.1 (pageAt_known hc hva hpage), guestLookupLevel]
      simp only [walker, spaceIndex, B.leaf_some hva hpage, isPresent_tableEntry (p.frames k hk),
        entryPa_tableEntry (p.frames k hk)]
      exact ⟨rfl, rfl⟩
    | none =>
      by_cases hknown : Known p va
      · rw [B.walk.1 hknown, guestLookupLevel]
        simp only [walker, spaceIndex, B.leaf_none hc hva hknown hpage]
        exact ⟨rfl, rfl⟩
      · exact B.walk.2 hknown
  · intro k hpage
    have hk := pageAt_lt hpage
    have hframe := p.frames k hk
    have hknown := pageAt_known hc hva hpage
    have hpml4 : m' (p.pfn 1) (spaceIndex va (2 - 2)) = tableEntry (p.pfn 2) := (B.pml4 _).trans (if_pos hknown.1)
    have hpdpt : m' (p.pfn 2) (spaceIndex va (2 - 1)) = tableEntry (p.pfn 4) := (B.pdpt _).trans (if_pos hknown.2.1)
    have hpd : m' (p.pfn 4) (spaceIndex va (2 - 0)) = tableEntry (p.pfn (p.tableAt va)) :=
      (B.pd_eq va).trans (if_pos hknown.2.2)
    rw [preflightLookup, preflight_link (by decide) hpml4, preflight_link (by decide) hpdpt,
      preflight_link (tableAt_lt p va) hpd, preflightLevel]
    simp only [spaceIndex, B.leaf_some hva hpage, isPresent_tableEntry hframe, entryPa_tableEntry hframe]
    rw [and_pageMask (by omega)]
    simp
    omega

theorem straddling_frames (j k : Nat) (hj : j < passagePages) :
    100 + 2 * j < 2 ^ 51 ∧ (100 + 2 * j = 100 + 2 * k → j = k) := by
  simp only [passagePages] at hj
  omega

/-- Eight pages below a 2 MB boundary and seven above it. -/
def straddling : Passage where
  va := 0xffff8880001f8000
  pfn k := 100 + 2 * k
  aligned := by decide
  canonical := by decide
  frames k hk := (straddling_frames k 0 hk).1
  distinct j hj k _ := (straddling_frames j k hj).2

theorem buildGuestTables_maps_straddling : ∃ m', straddling.buildGuestTables (fun _ _ => 0) = some m' ∧
    (guestLookupRoot walker 102 0xffff888000200abc () m').1.Finds (some (116 * 4096)) ∧
    straddling.preflightLookup m' 0xffff888000200abc (116 * 4096 + 0xabc) = -1 ∧
    (guestLookupRoot walker 102 0xffff888000207000 () m').1.Finds none := by
  obtain ⟨m', hm⟩ : ∃ m', straddling.buildGuestTables (fun _ _ => 0) = some m' := by
    rw [buildGuestTables, if_neg (by decide), if_neg (by decide)]
    exact ⟨_, rfl⟩
  have hin := buildGuestTables_maps straddling _ m' hm 0xffff888000200abc (by decide)
  have hout := buildGuestTables_maps straddling _ m' hm 0xffff888000207000 (by decide)
  exact ⟨m', hm, hin.1, hin.2 8 (by decide), hout.1⟩

end MoCoLinux.Arch.Passage
