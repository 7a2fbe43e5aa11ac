import MoCoLinux.Kload.Lemmas.Begin
import MoCoLinux.Kload.Lemmas.Calls

/-!
# What the loader's calls do to the p2m
-/

namespace MoCoLinux

open Arch (Mem)

namespace Loader

open Kload

variable {host : Host} {l l' l'' : Loader} {m m' : Mem} {target : Nat}

/-! ## Growing -/

structure Growth (host : Host) (target : Nat) (l l' : Loader) : Prop where
  only : OnlyGrown l l'
  bookkept : l'.k.Bookkept
  backed : l.k.backedPages ≤ l'.k.backedPages
  bound : l'.k.backedPages ≤ max l.k.backedPages (pagesUpTo target)
  p2m : ∀ p2m, l.k.p2m = some p2m → ∃ p2m', l'.k.p2m = some p2m' ∧
    ∀ j, j < l.k.backedPages ∨ l'.k.backedPages ≤ j → p2m' j = p2m j
  frames : ∀ p2m', l'.k.p2m = some p2m' → ∀ j, l.k.backedPages ≤ j → j < l'.k.backedPages →
    ∃ r pages i, host.pages r = some pages ∧ p2m' j = pages.mfn i

theorem Growth.refl (h : l.k.Bookkept) (r : Nat) : Growth host target l { l with requests := r } :=
  ⟨⟨_, _, _, _, rfl⟩, h, le_refl _, Nat.le_max_left _ _, fun p2m hp => ⟨p2m, hp, fun _ _ => rfl⟩,
    fun _ _ _ h1 h2 => absurd h2 (Nat.not_lt.mpr h1)⟩

theorem Growth.trans (h : Growth host target l l') (h' : Growth host target l' l'') : Growth host target l l'' := by
  have hb := h.backed
  have hb' := h'.backed
  have hbound := h.bound
  have hbound' := h'.bound
  refine ⟨h.only.trans h'.only, h'.bookkept, hb.trans hb', by omega, fun p2m hp => ?_, fun p2m'' hp'' j h1 h2 => ?_⟩
  · obtain ⟨p2m', hp', hsame⟩ := h.p2m p2m hp
    obtain ⟨p2m'', hp'', hsame'⟩ := h'.p2m p2m' hp'
    exact ⟨p2m'', hp'', fun j hj => (hsame' j (by omega)).trans (hsame j (by omega))⟩
  · by_cases hj : j < l'.k.backedPages
    · obtain ⟨p2m', -, hp', -⟩ := h.bookkept.arrays
      obtain ⟨q, hq, hsame⟩ := h'.p2m p2m' hp'
      rw [hp'', Option.some.injEq] at hq
      subst hq
      rw [hsame j (Or.inl hj)]
      exact h.frames p2m' hp' j h1 hj
    · exact h'.frames p2m'' hp'' j (Nat.not_lt.mp hj) h2

theorem blockAlloc_growth (h : l.k.Bookkept) (host : Host) (m : Mem) {a : Nat} (ha : a ≤ 8192)
    (hfit : l.k.backedPages + min a (blockLimit l.k) ≤ pagesUpTo target) :
    (∃ r, blockAlloc host (a * 4096) l m = some (false, { l with requests := r }, m)) ∨
    ∃ l' m', blockAlloc host (a * 4096) l m = some (true, l', m') ∧ Growth host target l l' ∧
      l.k.block.length < maxBlocks ∧ l'.k.block.length = l.k.block.length + 1 := by
  have hpages := blockPages_mul l.k ha
  rcases blockAlloc_cases h host (a * 4096) m with hno | ⟨pages, p2m, m2p, hhost, href, hp, hyes⟩
  · exact Or.inl hno
  · refine Or.inr ⟨_, _, hyes, ⟨blockAlloc_onlyGrown hyes, blockAlloc_bookkept h hyes, Nat.le_add_right _ _, ?_, ?_,
      ?_⟩, (not_blockRefused href h.backed h.geometry.capacity_lt).1, by simp [withBlock]⟩
    · show l.k.backedPages + l.k.blockPages (a * 4096) ≤ _
      rw [hpages]
      omega
    · intro q hq
      rw [hp, Option.some.injEq] at hq
      subst hq
      refine ⟨_, rfl, fun j hj => Slots.fill_of_ne fun i hi he => ?_⟩
      have hj' : j < l.k.backedPages ∨ l.k.backedPages + l.k.blockPages (a * 4096) ≤ j := hj
      omega
    · intro q hq j h1 h2
      have h2' : j < l.k.backedPages + l.k.blockPages (a * 4096) := h2
      simp only [withBlock, Option.some.injEq] at hq
      subst hq
      obtain ⟨i, rfl⟩ : ∃ i, j = l.k.backedPages + i := ⟨j - l.k.backedPages, by omega⟩
      exact ⟨l.requests, pages, i, hhost, Slots.fill_slot (fun a _ b _ hab => by omega) (by omega)⟩

theorem growTo_growth (h : l.k.Bookkept) (host : Host) (target : Nat) (m : Mem) :
    ∃ ok l' m', growTo host target l m = some (ok, l', m') ∧ Growth host target l l' ∧
      (ok = true → target ≤ l'.k.backedPages * 4096) := by
  refine growTo_rule (P := fun l' _ => Growth host target l l') (fun {a l₁ m₁} h₁ hle hfit => ?_)
    (Growth.refl h l.requests)
  rcases blockAlloc_growth h₁.bookkept host m₁ hle hfit with ⟨r, hno⟩ | ⟨l₂, m₂, hyes, hgrowth, hlen⟩
  · exact Or.inl ⟨_, hno, rfl, h₁.trans (Growth.refl h₁.bookkept r)⟩
  · exact Or.inr ⟨l₂, m₂, hyes, h₁.trans hgrowth, hlen⟩

end Loader

namespace Kload

variable {k k' k'' : Kload} {host : Host} {limit : Nat}

/-! ## The effects -/

structure Kept (k : Kload) : Prop where
  arrays : k.p2m = none ∧ k.backedPages = 0 ∨ k.Bookkept
  next : k.windowNext ≤ k.p2mCapacity
  capacity : k.p2mCapacity < 2 ^ 32

theorem initial_kept : initial.Kept := ⟨Or.inl ⟨rfl, rfl⟩, le_refl _, by decide⟩

structure Emptied (k : Kload) : Prop where
  p2m : k.p2m = none
  backed : k.backedPages = 0
  next : k.windowNext ≤ k.p2mCapacity
  capacity : k.p2mCapacity < 2 ^ 32

inductive LoadEffect (host : Host) (k k' : Kload) : Prop where
  | same (h : SameBacking k k')
  | emptied (h : Emptied k')
  | begun (bookkept : k'.Bookkept) (next : k'.windowNext = k'.p2mCapacity) (pos : 0 < k'.backedPages)
      (apart : k'.backedPages ≤ k'.windowBasePages)
      (vacant : ∀ p2m, k'.p2m = some p2m → ∀ j, k'.backedPages ≤ j → p2m j = 0)
      (frames : ∀ p2m, k'.p2m = some p2m → ∀ j < k'.backedPages,
        ∃ r pages i, host.pages r = some pages ∧ p2m j = pages.mfn i)

structure Grew (limit : Nat) (k k' : Kload) : Prop where
  bookkept : k'.Bookkept
  next : k'.windowNext = k.windowNext
  capacity : k'.p2mCapacity = k.p2mCapacity
  base : k'.windowBasePages = k.windowBasePages
  backed : k.backedPages ≤ k'.backedPages
  bound : k'.backedPages ≤ max k.backedPages limit
  p2m : ∀ p2m, k.p2m = some p2m → ∃ p2m', k'.p2m = some p2m' ∧
    ∀ j, j < k.backedPages ∨ k'.backedPages ≤ j → p2m' j = p2m j

theorem SameBacking.bookkept (h : SameBacking k k') (hk : k.Bookkept) : k'.Bookkept := by
  obtain ⟨p2m, m2p, hp, hm, hf⟩ := hk.arrays
  refine ⟨hk.geometry.congr h.slots h.mask h.capacity, ?_, p2m, m2p, h.p2m.trans hp, h.m2p.trans hm, ?_⟩
  · rw [h.backed, h.capacity]; exact hk.backed
  · rw [h.backed]; exact ⟨by rw [h.slots]; exact hf.stored, by rw [h.slots]; exact hf.occupied⟩

theorem Kept.same (hk : k.Kept) (h : SameBacking k k') : k'.Kept := by
  refine ⟨?_, by rw [h.next, h.capacity]; exact hk.next, h.capacity ▸ hk.capacity⟩
  exact hk.arrays.imp (fun h0 => ⟨h.p2m.trans h0.1, h.backed.trans h0.2⟩) h.bookkept

theorem Emptied.kept (h : Emptied k) : k.Kept := ⟨Or.inl ⟨h.p2m, h.backed⟩, h.next, h.capacity⟩

theorem Emptied.same (h : Emptied k) (hs : SameBacking k k') : Emptied k' :=
  ⟨hs.p2m.trans h.p2m, hs.backed.trans h.backed, by rw [hs.next, hs.capacity]; exact h.next, hs.capacity ▸ h.capacity⟩

theorem LoadEffect.kept (h : LoadEffect host k k') (hk : k.Kept) : k'.Kept := by
  cases h with
  | same h => exact hk.same h
  | emptied h => exact h.kept
  | begun bookkept next => exact ⟨Or.inr bookkept, next.le, bookkept.geometry.capacity_lt⟩

theorem Grew.kept (h : Grew limit k k') (hk : k.Kept) : k'.Kept :=
  ⟨Or.inr h.bookkept, by rw [h.next, h.capacity]; exact hk.next, h.capacity ▸ hk.capacity⟩

theorem LoadEffect.then_same (h : LoadEffect host k k') (hs : SameBacking k' k'') : LoadEffect host k k'' := by
  cases h with
  | same h => exact .same (h.trans hs)
  | emptied h => exact .emptied (h.same hs)
  | begun bookkept next pos apart vacant frames =>
    refine .begun (hs.bookkept bookkept) (by rw [hs.next, hs.capacity]; exact next) (hs.backed ▸ pos)
      (by rw [hs.backed, hs.base]; exact apart) ?_ ?_
    · rw [hs.p2m, hs.backed]; exact vacant
    · rw [hs.p2m, hs.backed]; exact frames

theorem Grew.then_same (h : Grew limit k k') (hs : SameBacking k' k'') : Grew limit k k'' := by
  refine ⟨hs.bookkept h.bookkept, hs.next.trans h.next, hs.capacity.trans h.capacity, hs.base.trans h.base,
    hs.backed ▸ h.backed, hs.backed ▸ h.bound, ?_⟩
  rw [hs.p2m, hs.backed]
  exact h.p2m

theorem Grew.of_same (hs : SameBacking k k') (h : Grew limit k' k'') : Grew limit k k'' := by
  refine ⟨h.bookkept, h.next.trans hs.next, h.capacity.trans hs.capacity, h.base.trans hs.base,
    hs.backed ▸ h.backed, hs.backed ▸ h.bound, ?_⟩
  rw [← hs.p2m, ← hs.backed]
  exact h.p2m

/-! ## Teardown and reservations -/

theorem releasePages_emptied (k : Kload) : Emptied k.releasePages := ⟨rfl, rfl, le_refl _, (by decide : 0 < 2 ^ 32)⟩

theorem free_effect (k : Kload) : SameBacking k k.free ∨ Emptied k.free := by
  rw [free]
  dsimp only
  split
  · exact .inl ⟨rfl, rfl, rfl, rfl, rfl, rfl, rfl, rfl, rfl⟩
  · split
    · exact .inl ⟨rfl, rfl, rfl, rfl, rfl, rfl, rfl, rfl, rfl⟩
    · exact .inr ⟨rfl, rfl, le_refl _, (by decide : 0 < 2 ^ 32)⟩

theorem free_p2m (h : k.free.pendingFree = false) : k.free.p2m = none := by
  rw [free] at h ⊢
  dsimp only at h ⊢
  split at h
  next hempty =>
    rw [if_pos hempty]
    exact Option.isNone_iff_eq_none.mp hempty.2.2.1
  next hempty =>
    rw [if_neg hempty]
    split at h
    · cases h
    next hmaps => rw [if_neg hmaps]; rfl

theorem userMapTryGet_same (k : Kload) : SameBacking k k.userMapTryGet.2 := by
  rw [userMapTryGet]
  split <;> exact ⟨rfl, rfl, rfl, rfl, rfl, rfl, rfl, rfl, rfl⟩

theorem userMapPut_effect (k : Kload) : SameBacking k k.userMapPut ∨ Emptied k.userMapPut := by
  rw [userMapPut]
  dsimp only
  split
  · exact .inr ⟨rfl, rfl, le_refl _, (by decide : 0 < 2 ^ 32)⟩
  · exact .inl ⟨rfl, rfl, rfl, rfl, rfl, rfl, rfl, rfl, rfl⟩

theorem waitForDeferredFree_effect (k : Kload) (puts : Nat) :
    SameBacking k (k.waitForDeferredFree puts).2 ∨ Emptied (k.waitForDeferredFree puts).2 := by
  rw [waitForDeferredFree]
  split
  next hp =>
    rcases userMapPut_iterate k puts with ⟨maps, heq⟩ | heq
    · rw [heq]
      exact .inl ⟨rfl, rfl, rfl, rfl, rfl, rfl, rfl, rfl, rfl⟩
    · rw [heq]
      exact .inr ⟨rfl, rfl, le_refl _, (by decide : 0 < 2 ^ 32)⟩
  next => exact .inl ⟨rfl, rfl, rfl, rfl, rfl, rfl, rfl, rfl, rfl⟩

end Kload

namespace Loader

open Kload

variable {host : Host} {l l' : Loader} {m m' : Mem} {puts minVa maxVa ramBytes ramUserVa ramUserBytes : Nat} {rc : Rc}

/-! ## `co_kload_begin` -/

theorem SameTop.backing (h : SameTop l l') : SameBacking l.k l'.k := by
  obtain ⟨_, _, _, rfl⟩ := h
  exact ⟨rfl, rfl, rfl, rfl, rfl, rfl, rfl, rfl, rfl⟩

theorem withView_backing (k : Kload) (ramUserVa ramUserBytes : Nat) :
    SameBacking k (k.withView ramUserVa ramUserBytes) := by
  rw [withView]
  split <;> exact ⟨rfl, rfl, rfl, rfl, rfl, rfl, rfl, rfl, rfl⟩

theorem translationAlloc_bookkept {k k' : Kload} {capacity : Nat} {p2mOk m2pOk : Bool} (h0 : k.backedPages = 0)
    (h : k.translationAlloc capacity p2mOk m2pOk = (.ok, k')) : k'.Bookkept := by
  obtain ⟨slots, -, ⟨rfl, rfl⟩, -⟩ := translationAlloc_ok h
  exact LoaderStart.bookkept ⟨k, capacity, h0, h⟩

theorem Accepted.tableEnd_bounds (A : Accepted minVa maxVa ramBytes) (k : Kload) :
    0 < (k.withLayout maxVa ramBytes).tableEnd ∧
      pagesUpTo (k.withLayout maxVa ramBytes).tableEnd ≤ (k.withLayout maxVa ramBytes).windowBasePages := by
  have hfull := A.ramEnd_bounds.1
  have hlow := A.imageHi_bounds.1
  have hend := (Accepted.placed A k).stop
  rw [withArrays_tableEnd] at hend
  rw [hend, A.windowBasePages_eq k]
  refine ⟨by omega, ?_⟩
  rw [pagesUpTo, pagesUpTo]
  exact Nat.div_le_div_right (by omega)

theorem growTables_effect {k k₁ : Kload} {capacity : Nat} (hzero : k.backedPages = 0) (hend : 0 < k.tableEnd)
    (hbase : pagesUpTo k.tableEnd ≤ k.windowBasePages)
    (halloc : k.translationAlloc capacity host.p2mOk host.m2pOk = (.ok, k₁)) {l₁ m₁}
    (hgrow : growTo host k₁.tableEnd { l with k := k₁ } m = some (true, l₁, m₁)) (k₀ : Kload) :
    LoadEffect host k₀ l₁.k := by
  have hb₁ := translationAlloc_bookkept hzero halloc
  obtain ⟨ok, l₂, m₂, hgrow', hg, hok⟩ := growTo_growth (l := { l with k := k₁ }) hb₁ host k₁.tableEnd m
  rw [hgrow] at hgrow'
  cases hgrow'
  have hreach := hok rfl
  have hbound := hg.bound
  obtain ⟨p2m, m2p, block, backed, hk⟩ := hg.only.k
  obtain ⟨slots, -, -, -, -, -, rfl⟩ := translationAlloc_ok halloc
  dsimp only at hreach hbound hk
  rw [hzero, Nat.max_eq_right (Nat.zero_le _)] at hbound
  refine .begun hg.bookkept (by rw [hk]) (by omega) ?_ ?_ ?_
  · rw [show l₁.k.windowBasePages = k.windowBasePages by rw [hk]]
    exact hbound.trans hbase
  · intro q hq j hj
    obtain ⟨q', hq', hsame⟩ := hg.p2m _ rfl
    rw [hq, Option.some.injEq] at hq'
    subst hq'
    exact hsame j (Or.inr hj)
  · intro q hq j hj
    exact hg.frames q hq j (hzero.trans_le (Nat.zero_le j)) hj

theorem beginArrays_effect (A : Accepted minVa maxVa ramBytes) {k : Kload} (hl : l.k = k.withLayout maxVa ramBytes)
    (hspace : k.space = none) (hp : k.p2m = none) (hbacked : k.backedPages = 0)
    (hnext : k.windowNext ≤ k.p2mCapacity) (hcap : k.p2mCapacity < 2 ^ 32) (k₀ : Kload)
    (h : beginArrays host (capacityPages maxVa ramBytes) minVa maxVa l m = some (rc, l', m')) :
    LoadEffect host k₀ l'.k := by
  rcases beginArrays_outcomes (by rw [hl, withLayout_space, hspace]) h with ⟨k', halloc, hrc, rfl⟩ |
    ⟨k', ok, l₁, m₁, halloc, hgrow, ⟨-, hk⟩ | ⟨-, rfl, l₂, space, htop, rfl⟩⟩
  · obtain ⟨_, _, _, _, p2m, m2p, hp', -, rfl⟩ := translationAlloc_fail halloc hrc
    have hfields : l.k.p2m = none ∧ l.k.backedPages = 0 ∧ l.k.windowNext ≤ l.k.p2mCapacity ∧
        l.k.p2mCapacity < 2 ^ 32 := by
      rw [hl, withLayout]
      exact ⟨hp, hbacked, hnext, hcap⟩
    exact .emptied ⟨hp'.elim (fun he => he.trans hfields.1) id, hfields.2.1, hfields.2.2.1, hfields.2.2.2⟩
  · rw [hk]
    exact .emptied (releasePages_emptied _)
  · obtain ⟨hend, hbase⟩ := Accepted.tableEnd_bounds A k
    rw [← hl] at hend hbase
    have hzero : l.k.backedPages = 0 := by rw [hl, withLayout_backedPages, hbacked]
    refine (growTables_effect hzero hend hbase halloc hgrow k₀).then_same (htop.backing.trans ?_)
    exact ⟨rfl, rfl, rfl, rfl, rfl, rfl, rfl, rfl, rfl⟩

theorem begin_effect (hk : l.k.Kept) (hword : maxVa < 2 ^ 64)
    (h : begin host puts minVa maxVa ramBytes ramUserVa ramUserBytes l m = some (rc, l', m')) :
    LoadEffect host l.k l'.k := by
  have heffect : LoadEffect host l.k (l.k.free.waitForDeferredFree puts).2 :=
    (waitForDeferredFree_effect l.k.free puts).elim
      (fun hsame => (l.k.free_effect.elim .same .emptied : LoadEffect host l.k l.k.free).then_same hsame) .emptied
  rcases begin_outcomes h with ⟨-, -, rfl⟩ | ⟨hwaited, ⟨-, -, rfl⟩ | ⟨hacc, harrays⟩⟩
  · exact heffect
  · exact heffect.then_same (withView_backing _ _ _)
  · have hp : (l.k.free.waitForDeferredFree puts).2.p2m = none := by
      rcases waitForDeferredFree_true hwaited with ⟨hnot, heq⟩ | heq
      · rw [heq, free_p2m hnot]
      · rw [heq]
        rfl
    have hfree := heffect.kept hk
    have hbacked : (l.k.free.waitForDeferredFree puts).2.backedPages = 0 := by
      rcases hfree.arrays with h0 | hb
      · exact h0.2
      · obtain ⟨p2m, -, hsome, -⟩ := hb.arrays
        rw [hp] at hsome
        cases hsome
    have hview := withView_backing (l.k.free.waitForDeferredFree puts).2 ramUserVa ramUserBytes
    refine beginArrays_effect (accepted_of_not_refused hacc hword) rfl ?_ (hview.p2m.trans hp)
      (hview.backed.trans hbacked) ?_ (hview.capacity ▸ hfree.capacity) _ harrays
    · rw [withView_space]
      exact waitForDeferredFree_space l.k.free_space puts
    · rw [hview.next, hview.capacity]
      exact hfree.next

/-! ## `co_kload_chunk` and `co_kload_build_ram` -/

theorem growTo_noArrays (hp : l.k.p2m = none) {target ok} (h : growTo host target l m = some (ok, l', m')) :
    l'.k = l.k := by
  refine growTo_inv (P := fun l₁ _ => l₁.k = l.k) (fun bytes l₁ m₁ ok₁ l₂ m₂ h₁ hb => ?_) rfl h
  obtain ⟨⟨ok', k'⟩, hk, hrest⟩ := Option.bind_eq_some_iff.mp hb
  cases hrest
  cases hpages : host.pages l₁.requests <;>
    simp only [h₁, Kload.blockAlloc, hp, hpages, ite_self, Option.some.injEq, Prod.mk.injEq] at hk <;>
    exact hk.2.symm

theorem mapRam_effect (hk : l.k.Kept) {space target} (h : mapRam host space target l m = some (rc, l', m')) :
    SameBacking l.k l'.k ∨ Grew (pagesUpTo target) l.k l'.k := by
  obtain ⟨⟨ok, l₁, m₁⟩, hgrow, h⟩ := Option.bind_eq_some_iff.mp h
  dsimp only at h
  have hrest : SameBacking l₁.k l'.k := by
    cases hp : l₁.k.p2m with
    | none =>
      rw [hp] at h
      cases h
      exact ⟨rfl, rfl, rfl, rfl, rfl, rfl, rfl, rfl, rfl⟩
    | some p2m =>
      rw [hp] at h
      have htop := mapRange_sameTop host (fun i => Arch.directMap + i <<< 12) (fun i => ullong (p2m i <<< 12))
        dataFlags l₁.k.backedPages space l₁ m₁
      rcases hmap : mapRange host (fun i => Arch.directMap + i <<< 12) (fun i => ullong (p2m i <<< 12)) dataFlags
        l₁.k.backedPages space l₁ m₁ with ⟨rc₂, done, space₂, l₂, m₂⟩
      dsimp only at h
      rw [hmap] at h htop
      cases h
      refine htop.backing.trans ?_
      exact ⟨rfl, rfl, rfl, rfl, rfl, rfl, rfl, rfl, rfl⟩
  rcases hk.arrays with h0 | hb
  · have heq := growTo_noArrays h0.1 hgrow
    rw [heq] at hrest
    exact .inl hrest
  · obtain ⟨ok', l₂, m₂, hgrow', hg, -⟩ := growTo_growth hb host target m
    rw [hgrow] at hgrow'
    cases hgrow'
    obtain ⟨_, _, _, _, hfields⟩ := hg.only.k
    exact .inr (Grew.then_same ⟨hg.bookkept, by rw [hfields], by rw [hfields], by rw [hfields], hg.backed, hg.bound,
      hg.p2m⟩ hrest)

theorem buildRam_effect (hk : l.k.Kept) {textVa endVa} (h : buildRam host ramBytes textVa endVa l m = some (rc, l', m')) :
    SameBacking l.k l'.k ∨ Grew (pagesUpTo (desiredEnd l.k ramBytes)) l.k l'.k := by
  rw [buildRam] at h
  dsimp only at h
  cases hspace : l.k.space with
  | none =>
    rw [hspace] at h
    cases h
    exact .inl ⟨rfl, rfl, rfl, rfl, rfl, rfl, rfl, rfl, rfl⟩
  | some space =>
    rw [hspace] at h
    dsimp only at h
    split_ifs at h
    · cases h
      exact .inl ⟨rfl, rfl, rfl, rfl, rfl, rfl, rfl, rfl, rfl⟩
    · cases h
      exact .inl ⟨rfl, rfl, rfl, rfl, rfl, rfl, rfl, rfl, rfl⟩
    · cases h
      exact .inl ⟨rfl, rfl, rfl, rfl, rfl, rfl, rfl, rfl, rfl⟩
    · cases h
      exact .inl ⟨rfl, rfl, rfl, rfl, rfl, rfl, rfl, rfl, rfl⟩
    · have hstart : SameBacking l.k (ramStart l ramBytes textVa endVa).k :=
        ⟨rfl, rfl, rfl, rfl, rfl, rfl, rfl, rfl, rfl⟩
      exact (mapRam_effect (hk.same hstart) h).imp (fun hrest => hstart.trans hrest) fun hgrew => hgrew.of_same hstart

theorem pageFor_sameRam (host : Host) (space : Arch.GuestSpace) (va : Nat) (l : Loader) (m : Mem) :
    SameRam l (pageFor host space va l m).2.2.1 := by
  have hlook := (spaceHost_respects host.osMap).guestLookup space (va &&& Arch.pageMask) l m
  rw [pageFor]
  dsimp only
  rcases hfound : Arch.guestLookup (spaceHost host.osMap) space (va &&& Arch.pageMask) l m with ⟨found, l₁⟩
  rw [hfound] at hlook
  dsimp only
  split
  · exact hlook
  · split
    · exact hlook
    · split
      · exact hlook
      · split
        · exact hlook
        next mfn _ =>
          obtain ⟨hit, hk⟩ := pseudoFrameVa_snd l₁.k (l₁.kvaPa (va &&& Arch.pageMask) >>> 12)
          rw [hk]
          have hhit : SameRam l₁ { l₁ with k := { l₁.k with lastHit := hit } } := ⟨_, _, _, _, _, _, rfl⟩
          split
          · exact hlook.trans hhit
          · have hmap := (spaceHost_respects host.osMap).guestMap space (va &&& Arch.pageMask) (ullong (mfn <<< 12))
              Arch.kernpgTable { l₁ with k := { l₁.k with lastHit := hit } } (m.zero mfn)
            split <;> next he =>
              rw [he] at hmap
              exact (hlook.trans hhit).trans (hmap.trans ⟨_, _, _, _, _, _, rfl⟩)

theorem chunkLoop_sameRam (host : Host) (data : Nat → Nat) (zero : Bool) (rounds : Nat) : ∀ va size start l m,
    SameRam l (chunkLoop host data zero rounds va size start l m).2.1 := by
  induction rounds with
  | zero => exact fun va size start l m => SameRam.refl l
  | succ rounds ih =>
    intro va size start l m
    rw [chunkLoop]
    split
    · exact SameRam.refl l
    · dsimp only
      split
      · exact SameRam.refl l
      next space _ =>
        have hpage := pageFor_sameRam host space va l m
        split
        next pfn l₁ m₁ he =>
          rw [he] at hpage
          split
          · exact hpage.trans (ih _ _ _ _ _)
          · obtain ⟨hit, hk⟩ := frameVa_snd l₁.k pfn
            rw [hk]
            have hhit : SameRam l₁ { l₁ with k := { l₁.k with lastHit := hit } } := ⟨_, _, _, _, _, _, rfl⟩
            split
            · exact hpage.trans hhit
            · exact (hpage.trans hhit).trans (ih _ _ _ _ _)
        next he =>
          rw [he] at hpage
          exact hpage

theorem chunk_sameRam (host : Host) (c : Chunk) (l : Loader) (m : Mem) : SameRam l (chunk host c l m).2.1 := by
  rw [chunk]
  split
  · exact SameRam.refl l
  · split
    · exact SameRam.refl l
    · have hloop := chunkLoop_sameRam host c.data c.zero c.size c.va c.size 0 l m
      split
      next l₁ m₁ he =>
        rw [he] at hloop
        exact hloop.trans ⟨_, _, _, _, _, _, rfl⟩
      · exact hloop

theorem SameRam.backing (h : SameRam l l') : SameBacking l.k l'.k := by
  obtain ⟨_, _, _, _, _, _, rfl⟩ := h.eq
  exact ⟨rfl, rfl, rfl, rfl, rfl, rfl, rfl, rfl, rfl⟩

end Loader

end MoCoLinux
