import MoCoLinux.Arch.Lemmas.Walk

/-!
# Lookups in the tables a sequence of maps left
-/

namespace MoCoLinux.Arch

open RadixTree (Shape)

variable {τ τ' : Type} {h : SpaceHost τ} {F : FrameSource h}
variable {space : GuestSpace} {t : τ} {m : Mem} {S : Shape Nat Nat} {f : Nat → Option Nat}

theorem page_eq_iff {va va' : Nat} (hva : vaCanonical va = true) (hva' : vaCanonical va' = true) :
    pathTo va 3 = pathTo va' 3 ∧ pteIndex va = pteIndex va' ↔ va / 4096 = va' / 4096 := by
  rw [vaCanonical_iff] at hva hva'
  simp only [pathTo, spaceIndex, List.cons.injEq, and_true, pteIndex_eq, pmdIndex_eq, pudIndex_eq, pgdIndex_eq]
  omega

theorem Tree.pathTo_mem (T : Tree F space t m S) {va level : Nat} (hp : pathTo va (level + 1) ∈ S.nodes) :
    pathTo va level ∈ S.nodes := (T.rep.parent _ _ hp).1

theorem Tree.pathTo_mem_of_le (T : Tree F space t m S) {va k : Nat} :
    ∀ {level}, level ≤ k → pathTo va k ∈ S.nodes → pathTo va level ∈ S.nodes := by
  induction k with
  | zero =>
    intro level hle hk
    obtain rfl : level = 0 := by omega
    exact hk
  | succ k ih =>
    intro level hle hk
    rcases Nat.lt_or_ge level (k + 1) with hlt | hge
    · exact ih (by omega) (T.pathTo_mem hk)
    · obtain rfl : level = k + 1 := by omega
      exact hk

def leafPage (S : Shape Nat Nat) (m : Mem) (va : Nat) : Option Nat :=
  (S.get entryCodec m (pathTo va 3) (pteIndex va)).map entryPa

theorem leafPage_of_absent {va level : Nat} (T : Tree F space t m S) (hl : level ≤ 3)
    (hp : pathTo va level ∉ S.nodes) : leafPage S m va = none := by
  have h3 : pathTo va 3 ∉ S.nodes := fun h3 => hp (T.pathTo_mem_of_le hl h3)
  simp [leafPage, Shape.get, h3]

section Finds

variable {hl : SpaceHost τ'} {P : τ' → Prop}

theorem guestLookupLevel_finds (T : Tree F space t m S)
    (hmap : ∀ u p, P u → p ∈ S.nodes → (hl.map u (S.addr p)).1 = true ∧ P (hl.map u (S.addr p)).2)
    (va left : Nat) : ∀ level u, left + level = 3 → pathTo va level ∈ S.nodes → P u →
      (guestLookupLevel hl va left (S.addr (pathTo va level)) u m).1.Finds (leafPage S m va) ∧
      P (guestLookupLevel hl va left (S.addr (pathTo va level)) u m).2 := by
  induction left with
  | zero =>
    intro level u hlv hp hu
    obtain rfl : level = 3 := by omega
    have hm := hmap u _ hu hp
    revert hm
    rw [guestLookupLevel]
    rcases hl.map u (S.addr (pathTo va 3)) with ⟨_ | _, u₁⟩
    · rintro ⟨hok, -⟩
      cases hok
    · rintro ⟨-, hu₁⟩
      cases hpres : isPresent (m (S.addr (pathTo va 3)) (pteIndex va)) with
      | false => simpa [spaceIndex, hpres, leafPage, Shape.get, Lookup.Finds] using hu₁
      | true => simpa [spaceIndex, hpres, leafPage, Shape.get, hp, Lookup.Finds] using hu₁
  | succ left ih =>
    intro level u hlv hp hu
    have hlev : 2 - left = level := by omega
    have hiff := T.isPresent_iff hp (by simp; omega) (spaceIndex va level)
    have hm := hmap u _ hu hp
    revert hm
    rw [guestLookupLevel]
    rcases hl.map u (S.addr (pathTo va level)) with ⟨_ | _, u₁⟩
    · rintro ⟨hok, -⟩
      cases hok
    · rintro ⟨-, hu₁⟩
      by_cases hc : pathTo va (level + 1) ∈ S.nodes
      · have hrest := ih (level + 1) u₁ (by omega) hc hu₁
        simp only [hlev, hiff.mpr hc, T.not_isLarge hc, T.entryPfn_eq hc, if_true, Bool.false_eq_true, if_false]
        exact hrest
      · have habs : isPresent (m (S.addr (pathTo va level)) (spaceIndex va level)) = false := by
          rw [← Bool.not_eq_true, hiff]
          exact hc
        rw [leafPage_of_absent T (by omega : level + 1 ≤ 3) hc]
        simpa [hlev, habs, Lookup.Finds] using hu₁

theorem guestLookupRoot_finds (T : Tree F space t m S)
    (hmap : ∀ u p, P u → p ∈ S.nodes → (hl.map u (S.addr p)).1 = true ∧ P (hl.map u (S.addr p)).2)
    {va : Nat} (hva : vaCanonical va = true) {u : τ'} (hu : P u) :
    (guestLookupRoot hl space.pml4Pfn va u m).1.Finds (leafPage S m va) ∧
      P (guestLookupRoot hl space.pml4Pfn va u m).2 := by
  rw [guestLookupRoot, if_pos hva, ← T.rep.root_addr]
  exact guestLookupLevel_finds T hmap va 3 0 u rfl T.rep.root_mem hu

end Finds

def Holds (F : FrameSource h) (space : GuestSpace) (t : τ) (m : Mem) (f : Nat → Option Nat) : Prop :=
  ∃ S, Tree F space t m S ∧ ∀ va, vaCanonical va = true → leafPage S m va = f (va / 4096)

theorem Holds.finds {hl : SpaceHost τ'} (hmap : ∀ u pfn, (hl.map u pfn).1 = true)
    (H : Holds F space t m f) {va : Nat} (hva : vaCanonical va = true) (u : τ') :
    (guestLookupRoot hl space.pml4Pfn va u m).1.Finds (f (va / 4096)) := by
  obtain ⟨S, T, hS⟩ := H
  rw [← hS va hva]
  exact (guestLookupRoot_finds (P := fun _ => True) T (fun u p _ _ => ⟨hmap u _, trivial⟩) hva trivial).1

theorem tree_create {mallocOk : Bool} {t0 m0} (h0 : F.Inv t0)
    (hc : guestSpaceCreate h mallocOk t0 m0 = (.ok space, t, m)) :
    Tree F space t m ⟨{[]}, fun _ => space.pml4Pfn⟩ ∧ ∀ va, leafPage ⟨{[]}, fun _ => space.pml4Pfn⟩ m va = none := by
  unfold guestSpaceCreate at hc
  cases mallocOk with
  | false => simp at hc
  | true =>
    rcases hnew : newTable h t0 m0 with ⟨rc | pfn, t1, m1⟩
    · simp [hnew] at hc
    · simp only [hnew, if_true, Prod.mk.injEq, Except.ok.injEq] at hc
      obtain ⟨rfl, rfl, rfl⟩ := hc
      obtain ⟨hinv, -, hused, hlt, hzero, -⟩ := F.newTable_ok h0 hnew
      refine ⟨⟨hinv, ?_, by simpa using hused, by simp⟩, fun va => ?_⟩
      · exact RadixTree.Rep.single (Nat.lt_trans hlt (by decide)) fun i => by simp [hzero]
      · simp [leafPage, Shape.get, pathTo]

theorem holds_create {mallocOk : Bool} {t0 m0} (h0 : F.Inv t0)
    (hc : guestSpaceCreate h mallocOk t0 m0 = (.ok space, t, m)) :
    Holds F space t m fun _ => none :=
  ⟨_, (tree_create h0 hc).1, fun va _ => (tree_create h0 hc).2 va⟩

theorem Holds.guestMap {c : MapCall} (H : Holds F space t m f) (hc : c.WellFormed) {rc space' t' m'}
    (hm : guestMap h space c.va c.pa c.flags t m = (rc, space', t', m')) :
    Holds F space' t' m'
      (if rc = .ok then Function.update f (c.va / 4096) (some (c.pa / 4096 * 4096)) else f) := by
  obtain ⟨S, T, hS⟩ := H
  obtain ⟨S', M⟩ := guestMap_mapped c.va T (isPresent_leafEntry c.pa hc.present)
  rw [hm] at M
  refine ⟨S', M.tree, fun va hva => ?_⟩
  rw [leafPage, M.get _ (length_pathTo va 3)]
  by_cases hok : rc = .ok
  · have hcva : vaCanonical c.va = true := by
      by_contra hn
      simp [Arch.guestMap, hn, hok] at hm
    have hpage := page_eq_iff hva hcva
    by_cases hsame : va / 4096 = c.va / 4096
    · simp [hok, hpage.mpr hsame, hsame, entryPa_leafEntry hc.pa hc.flags]
    · rw [if_neg fun hcon => hsame (hpage.mp hcon.2), if_pos hok, Function.update_of_ne hsame]
      exact hS va hva
  · rw [if_neg fun hcon => hok hcon.1, if_neg hok]
    exact hS va hva

theorem Holds.guestMapAll {calls : List MapCall} :
    ∀ {space t m f rcs space' t' m'}, Holds F space t m f → (∀ c ∈ calls, c.WellFormed) →
      guestMapAll h calls space t m = (rcs, space', t', m') →
      Holds F space' t' m' (lastMapped (calls.zip rcs) f) := by
  induction calls with
  | nil =>
    intro space t m f rcs space' t' m' H _ hrun
    cases hrun
    exact H
  | cons c cs ih =>
    intro space t m f rcs space' t' m' H hcs hrun
    rcases hm : Arch.guestMap h space c.va c.pa c.flags t m with ⟨rc, space1, t1, m1⟩
    rcases hrest : Arch.guestMapAll h cs space1 t1 m1 with ⟨rcs1, space2, t2, m2⟩
    simp only [Arch.guestMapAll, hm, hrest] at hrun
    cases hrun
    exact ih (H.guestMap (hcs c (by simp)) hm) (fun c' hc' => hcs c' (by simp [hc'])) hrest

end MoCoLinux.Arch
