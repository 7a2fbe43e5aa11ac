import MoCoLinux.Kload.Lemmas.Layout

/-!
# What the calls of a load leave, whatever the host answers
-/

namespace MoCoLinux

open Arch (Mem GuestSpace)

namespace Kload

variable {k k' : Kload} {maxVa ramBytes ramUserVa ramUserBytes capacity : Nat}

theorem free_space (k : Kload) : k.free.space = none := by
  rw [free]
  dsimp only
  split
  next h => exact Option.isNone_iff_eq_none.mp h.1
  · split <;> rfl

theorem free_pendingFree (h : k.pendingFree = true) : k.free.pendingFree = true := by
  rw [free]
  dsimp only
  split
  · exact h
  · split
    · rfl
    · exact h

/-! ## The wait -/

/-- The state the last `co_kload_user_map_put` leaves of a deferred teardown. -/
def released (k : Kload) : Kload := { k.releasePages.resetCounters with userMaps := 0, pendingFree := false }

theorem userMapPut_iterate (k : Kload) (puts : Nat) :
    (∃ maps, userMapPut^[puts] k = { k with userMaps := maps }) ∨ userMapPut^[puts] k = k.released := by
  induction puts with
  | zero => exact .inl ⟨k.userMaps, rfl⟩
  | succ n ih =>
    rw [Function.iterate_succ_apply']
    rcases ih with ⟨maps, heq⟩ | heq
    · rw [heq, userMapPut]
      dsimp only
      split
      next hlast => exact .inr (by simp only [released, releasePages, resetCounters, hlast.1])
      next => exact .inl ⟨_, rfl⟩
    · exact .inr (by rw [heq]; rfl)

theorem waitForDeferredFree_fst (k : Kload) (puts : Nat) :
    (k.waitForDeferredFree puts).1 = !(k.waitForDeferredFree puts).2.pendingFree := by
  rw [waitForDeferredFree]
  split <;> simp_all

theorem waitForDeferredFree_true {puts : Nat} (h : (k.waitForDeferredFree puts).1 = true) :
    k.pendingFree = false ∧ (k.waitForDeferredFree puts).2 = k ∨ (k.waitForDeferredFree puts).2 = k.released := by
  rw [waitForDeferredFree] at h ⊢
  split at h
  next hp =>
    rw [if_pos hp]
    rcases userMapPut_iterate k puts with ⟨maps, heq⟩ | heq
    · rw [heq] at h
      simp [hp] at h
    · exact .inr heq
  next hp =>
    rw [if_neg hp]
    exact .inl ⟨Bool.not_eq_true _ ▸ hp, rfl⟩

theorem waitForDeferredFree_space (h : k.space = none) (puts : Nat) : (k.waitForDeferredFree puts).2.space = none := by
  rw [waitForDeferredFree]
  split
  next hp =>
    rcases userMapPut_iterate k puts with ⟨maps, heq⟩ | heq
    · rw [heq, ← h]
    · rw [heq, ← h]
      rfl
  next => exact h

theorem free_releasePages (h : k.space = none) : k.releasePages.free = k.releasePages := by
  rw [free, if_pos (by simp [releasePages, h])]
  rfl

theorem withView_release (k : Kload) : (k.withView ramUserVa ramUserBytes).releasePages = k.releasePages := by
  rw [withView]; split <;> rfl

theorem withView_space (k : Kload) : (k.withView ramUserVa ramUserBytes).space = k.space := by
  rw [withView]; split <;> rfl

theorem layout_release (k : Kload) (physBase tableStart tableEnd tableTop windowBasePages : Nat) :
    { k with
      physBase := physBase
      tableStart := tableStart
      tableEnd := tableEnd
      tableTop := tableTop
      windowBasePages := windowBasePages }.releasePages = k.releasePages := rfl

theorem withLayout_release (k : Kload) : (k.withLayout maxVa ramBytes).releasePages = k.releasePages := by
  rw [withLayout]
  exact layout_release k _ _ _ _ _

theorem withLayout_space (k : Kload) : (k.withLayout maxVa ramBytes).space = k.space := by
  rw [withLayout]

def ViewUsable (ramUserVa ramUserBytes : Nat) : Prop :=
  ramUserVa ≠ 0 ∧ ramUserBytes ≠ 0 ∧ ramUserVa &&& (Arch.pageSize - 1) = 0

theorem withView_of_usable (h : ViewUsable ramUserVa ramUserBytes) (k : Kload) :
    (k.withView ramUserVa ramUserBytes).userRamVa = ramUserVa := by
  unfold ViewUsable at h
  rw [withView, if_pos h]

theorem withView_of_not_usable (h : ¬ ViewUsable ramUserVa ramUserBytes) (k : Kload) :
    k.withView ramUserVa ramUserBytes = k := by
  unfold ViewUsable at h
  rw [withView, if_neg h]

end Kload

namespace Loader

open Kload

variable {host : Host} {l l' : Loader} {m m' : Mem} {puts minVa maxVa ramBytes ramUserVa ramUserBytes : Nat}
variable {capacity bytes target : Nat} {rc : Rc}

structure OnlyGrown (l l' : Loader) : Prop where
  k : ∃ p2m m2p block backed, l'.k =
    { l.k with p2m := p2m, m2p := m2p, block := block, backedPages := backed }

theorem OnlyGrown.trans {l'' : Loader} (h : OnlyGrown l l') (h' : OnlyGrown l' l'') : OnlyGrown l l'' := by
  obtain ⟨a, b, c, d, hk⟩ := h.k
  obtain ⟨a', b', c', d', hk'⟩ := h'.k
  exact ⟨a', b', c', d', by rw [hk', hk]⟩

theorem blockAlloc_onlyGrown {ok} (h : blockAlloc host bytes l m = some (ok, l', m')) : OnlyGrown l l' := by
  obtain ⟨⟨ok', k'⟩, hk, hrest⟩ := Option.bind_eq_some_iff.mp h
  cases hrest
  unfold Kload.blockAlloc at hk
  split_ifs at hk
  · cases hk
    exact ⟨_, _, _, _, rfl⟩
  · cases hpages : host.pages l.requests with
    | none =>
      simp only [hpages, Option.some.injEq, Prod.mk.injEq] at hk
      exact ⟨_, _, _, _, hk.2.symm⟩
    | some pages =>
      cases hp : l.k.p2m with
      | none =>
        simp only [hpages, hp, Option.some.injEq, Prod.mk.injEq] at hk
        exact ⟨_, _, _, _, hk.2.symm⟩
      | some p2m =>
        cases hm : l.k.m2p with
        | none =>
          simp only [hpages, hp, hm, Option.some.injEq, Prod.mk.injEq] at hk
          exact ⟨_, _, _, _, hk.2.symm⟩
        | some m2p =>
          simp only [hpages, hp, hm] at hk
          obtain ⟨⟨p2m, m2p⟩, -, hk⟩ := Option.bind_eq_some_iff.mp hk
          cases hk
          exact ⟨_, _, _, _, rfl⟩

theorem growTo_onlyGrown {ok} (h : growTo host target l m = some (ok, l', m')) : OnlyGrown l l' :=
  growTo_inv (P := fun l₁ _ => OnlyGrown l l₁) (fun _ _ _ _ _ _ h₁ h₂ => h₁.trans (blockAlloc_onlyGrown h₂))
    ⟨_, _, _, _, rfl⟩ h

theorem OnlyGrown.release (h : OnlyGrown l l') : l'.k.releasePages = l.k.releasePages := by
  obtain ⟨_, _, _, _, hk⟩ := h.k
  rw [hk]
  rfl

theorem SameTop.release (h : SameTop l l') : l'.k.releasePages = l.k.releasePages := by
  obtain ⟨_, _, _, rfl⟩ := h
  rfl

theorem translationAlloc_space {k k' : Kload} {p2mOk m2pOk : Bool}
    (h : k.translationAlloc capacity p2mOk m2pOk = (.ok, k')) : k'.space = k.space := by
  obtain ⟨slots, -, -, -, -, -, rfl⟩ := translationAlloc_ok h
  rfl

theorem translationAlloc_release {k k' : Kload} {p2mOk m2pOk : Bool}
    (h : k.translationAlloc capacity p2mOk m2pOk = (.ok, k')) : k'.releasePages = k.releasePages := by
  obtain ⟨slots, -, -, -, -, -, rfl⟩ := translationAlloc_ok h
  rfl

theorem translationAlloc_fail {k k' : Kload} {p2mOk m2pOk : Bool}
    (h : k.translationAlloc capacity p2mOk m2pOk = (rc, k')) (hrc : rc ≠ .ok) :
    ∃ slots mask p2mPages m2pPages p2m m2p, (p2m = k.p2m ∨ p2m = none) ∧ (m2p = k.m2p ∨ m2p = none) ∧
      k' = { k with
        m2pSlots := slots, m2pMaskValue := mask, p2mAllocPages := p2mPages, m2pAllocPages := m2pPages
        p2m := p2m, m2p := m2p } := by
  unfold translationAlloc at h
  split at h
  · cases h
    exact ⟨_, _, _, _, _, _, Or.inl rfl, Or.inl rfl, rfl⟩
  · split at h
    · cases h
      exact ⟨_, _, _, _, _, _, Or.inl rfl, Or.inl rfl, rfl⟩
    · rcases hl : m2pSlotsLoop (wantedSlots capacity) 33 1 with ⟨_ | _, slots⟩
      · rw [hl] at h
        cases h
        exact ⟨_, _, _, _, _, _, Or.inl rfl, Or.inl rfl, rfl⟩
      · rw [hl] at h
        dsimp only at h
        split at h
        · cases h
          exact ⟨_, _, _, _, _, _, Or.inl rfl, Or.inl rfl, rfl⟩
        · split at h
          · cases h
            exact ⟨_, _, _, _, _, _, Or.inr rfl, Or.inl rfl, rfl⟩
          · split at h
            · cases h
              exact ⟨_, _, _, _, _, _, Or.inr rfl, Or.inr rfl, rfl⟩
            · cases h
              exact absurd rfl hrc

theorem guestSpaceCreate_error {osMap : Nat → Bool} {mallocOk : Bool}
    (h : Arch.guestSpaceCreate (spaceHost osMap) mallocOk l m = (.error rc, l', m')) : rc ≠ .ok := by
  rintro rfl
  rw [Arch.guestSpaceCreate] at h
  split at h
  · rw [show Arch.newTable (spaceHost osMap) l m = tableFrame l m from rfl, tableFrame] at h
    split_ifs at h
    · cases h
    · cases h
    · dsimp only at h
      cases hmfn : pseudoToMachinePfn { l.k with tableTop := l.k.tableTop - Arch.pageSize }
          ((l.k.tableTop - Arch.pageSize) >>> 12) with
      | none =>
        rw [hmfn] at h
        cases h
      | some mfn =>
        rw [hmfn] at h
        dsimp only at h
        split_ifs at h
        · cases h
        · cases h
  · cases h

theorem beginArrays_outcomes (hsp : l.k.space = none)
    (h : beginArrays host capacity minVa maxVa l m = some (rc, l', m')) :
    (∃ k, l.k.translationAlloc capacity host.p2mOk host.m2pOk = (rc, k) ∧ rc ≠ .ok ∧ l' = { l with k := k }) ∨
    ∃ k ok l₁ m₁, l.k.translationAlloc capacity host.p2mOk host.m2pOk = (.ok, k) ∧
      growTo host k.tableEnd { l with k := k } m = some (ok, l₁, m₁) ∧
      (rc ≠ .ok ∧ l'.k = l₁.k.releasePages ∨
        rc = .ok ∧ ok = true ∧ ∃ l₂ space, SameTop l₁ l₂ ∧ l' = { l₂ with k := { l₂.k with
          space := some space
          minVa := minVa &&& Arch.pageMask
          maxVa := ullong (maxVa + Arch.pageSize - 1) &&& Arch.pageMask
          pages := 0
          chunks := 0 } }) := by
  rw [beginArrays] at h
  rcases halloc : l.k.translationAlloc capacity host.p2mOk host.m2pOk with ⟨rc₀, k⟩
  rw [halloc] at h
  by_cases hrc : rc₀ = .ok
  · subst hrc
    obtain ⟨⟨ok, l₁, m₁⟩, hgrow, h⟩ := Option.bind_eq_some_iff.mp h
    have hsp₁ : l₁.k.space = none := by
      obtain ⟨_, _, _, _, hk⟩ := (growTo_onlyGrown hgrow).k
      rw [hk]
      exact (translationAlloc_space halloc).trans hsp
    refine Or.inr ⟨k, ok, l₁, m₁, rfl, hgrow, ?_⟩
    dsimp only at h
    split at h
    next hok =>
      have hcreate := (spaceHost_sameTop host.osMap).guestSpaceCreate host.mallocOk l₁ m₁
      rcases hc : Arch.guestSpaceCreate (spaceHost host.osMap) host.mallocOk l₁ m₁ with ⟨rc₂ | space, l₂, m₂⟩
      · rw [hc] at h hcreate
        cases h
        exact Or.inl ⟨guestSpaceCreate_error hc, SameTop.release hcreate⟩
      · rw [hc] at h hcreate
        dsimp only at h hcreate
        have hmap := mapTranslationPages_sameTop host space { l₂ with k := { l₂.k with space := some space } } m₂
        rcases hm : mapTranslationPages host space { l₂ with k := { l₂.k with space := some space } } m₂ with
          ⟨rc₃, space₃, l₃, m₃⟩
        rw [hm] at h hmap
        obtain ⟨hit, top, oom, rfl⟩ := hcreate
        obtain ⟨hit', top', oom', rfl⟩ := hmap
        by_cases hrc₃ : rc₃ = .ok
        · subst hrc₃
          cases h
          exact Or.inr ⟨rfl, hok, _, space₃, ⟨hit', top', oom', rfl⟩, rfl⟩
        · have hrelease : { l₁.k with space := none }.releasePages = l₁.k.releasePages := by rw [← hsp₁]
          left
          cases rc₃ <;> first | exact absurd rfl hrc₃ | (cases h; exact ⟨hrc₃, hrelease⟩)
    next hok =>
      cases h
      exact Or.inl ⟨by decide, rfl⟩
  · left
    cases rc₀ <;> first | exact absurd rfl hrc | (cases h; exact ⟨k, rfl, hrc, rfl⟩)

theorem begin_outcomes (h : begin host puts minVa maxVa ramBytes ramUserVa ramUserBytes l m = some (rc, l', m')) :
    ((l.k.free.waitForDeferredFree puts).1 = false ∧ rc = .error ∧
      l' = { l with k := (l.k.free.waitForDeferredFree puts).2 }) ∨
    (l.k.free.waitForDeferredFree puts).1 = true ∧
      (BeginRefused minVa maxVa ramBytes ∧ rc = .invalidParameter ∧
          l' = { l with k := (l.k.free.waitForDeferredFree puts).2.withView ramUserVa ramUserBytes } ∨
        ¬ BeginRefused minVa maxVa ramBytes ∧
          beginArrays host (capacityPages maxVa ramBytes) minVa maxVa { l with
            k := ((l.k.free.waitForDeferredFree puts).2.withView ramUserVa ramUserBytes).withLayout maxVa ramBytes } m
            = some (rc, l', m')) := by
  rw [Loader.begin] at h
  split at h
  next k hwait =>
    cases h
    exact Or.inl ⟨by rw [hwait], rfl, by rw [hwait]⟩
  next k hwait =>
    rw [hwait]
    refine Or.inr ⟨rfl, ?_⟩
    dsimp only at h
    split at h
    next hrefused =>
      cases h
      exact Or.inl ⟨hrefused, rfl, rfl⟩
    next hrefused => exact Or.inr ⟨hrefused, h⟩

end Loader

end MoCoLinux
