import MoCoLinux.Kload.Lemmas.Arena
import MoCoLinux.Kload.Lemmas.Translation
import MoCoLinux.Kload.Loader

/-!
# Invariants of the translation primitives
-/

namespace MoCoLinux.Kload

variable {k k' : Kload} {p2m m2p : Nat → Nat}

theorem m2pSlotsLoop_ok {wanted : Nat} (rounds : Nat) : ∀ {e slots}, e ≤ 31 →
    m2pSlotsLoop wanted rounds (2 ^ e) = (true, slots) → ∃ e' ≤ 31, slots = 2 ^ e' ∧ wanted ≤ slots := by
  induction rounds with
  | zero => intro e slots _ h; simp [m2pSlotsLoop] at h
  | succ rounds ih =>
    intro e slots he h
    rw [m2pSlotsLoop] at h
    split at h
    · split at h
      · simp at h
      next hle =>
        have he30 : e ≤ 30 := by
          by_contra hgt
          obtain rfl : e = 31 := by omega
          exact hle (by decide)
        have hdouble : ulong (2 ^ e <<< 1) = 2 ^ (e + 1) := by
          rw [Nat.shiftLeft_eq, Nat.pow_one, ← Nat.pow_succ]
          exact ulong_of_lt (Nat.pow_lt_pow_right (by decide) (by omega))
        rw [hdouble] at h
        exact ih (by omega) h
    next hge =>
      simp only [Prod.mk.injEq, true_and] at h
      exact ⟨e, he, h.symm, by omega⟩

theorem translationAlloc_ok {k₀ : Kload} {capacity : Nat} {a b : Bool}
    (h : translationAlloc k₀ capacity a b = (.ok, k)) :
    ∃ slots, m2pSlotsLoop (wantedSlots capacity) 33 1 = (true, slots) ∧ (a = true ∧ b = true) ∧ 0 < capacity ∧
      capacity * 8 ≤ translationWindowBytes ∧ slots * 4 ≤ translationWindowBytes ∧
      k = { k₀ with
        m2pSlots := slots
        m2pMaskValue := slots - 1
        p2mAllocPages := (capacity * 8 + Arch.pageSize - 1) >>> 12
        m2pAllocPages := (slots * 4 + Arch.pageSize - 1) >>> 12
        p2m := some fun _ => 0
        m2p := some fun _ => 0
        p2mCapacity := capacity
        windowNext := capacity } := by
  unfold translationAlloc at h
  split at h
  · simp at h
  next h0 =>
    split at h
    · simp at h
    · rcases hl : m2pSlotsLoop (wantedSlots capacity) 33 1 with ⟨_ | _, slots⟩
      · simp [hl] at h
      · simp only [hl] at h
        split at h
        · simp at h
        next hw =>
          push Not at hw
          cases a <;> cases b <;> simp at h
          exact ⟨slots, rfl, ⟨rfl, rfl⟩, by omega, hw.1, hw.2, h.symm⟩

theorem LoaderStart.geometry (h : LoaderStart k) : k.Geometry := by
  obtain ⟨k₀, capacity, -, h⟩ := h
  obtain ⟨slots, hl, -, hpos, -, -, rfl⟩ := translationAlloc_ok h
  obtain ⟨e, he, hs, hw⟩ := @m2pSlotsLoop_ok _ 33 0 _ (by decide) hl
  refine ⟨⟨e, by omega, hs⟩, rfl, ?_, hpos⟩
  simp only [wantedSlots] at hw ⊢
  omega

theorem not_blockRefused {bytes : Nat} (h : ¬ k.BlockRefused bytes) (hb : k.backedPages ≤ k.p2mCapacity)
    (hcap : k.p2mCapacity < 2 ^ 32) :
    k.block.length < maxBlocks ∧ 0 < k.blockPages bytes ∧
      k.backedPages + k.blockPages bytes ≤ k.p2mCapacity ∧
      (k.userRamVa = 0 ∨ (k.backedPages <<< 12) + k.blockBytes bytes ≤ k.userRamBytes) := by
  rw [BlockRefused, ulongSub_of_le hb hcap] at h
  omega

def withBlock (k : Kload) (pages : HostPages) (bytes : Nat) (p2m m2p : Nat → Nat) : Kload :=
  { k with
    p2m := some p2m
    m2p := some m2p
    block := k.block ++ [⟨pages.va, k.backedPages <<< 12, k.blockPages bytes <<< 12, pages.mdl⟩]
    backedPages := k.backedPages + k.blockPages bytes }

theorem blockAlloc_eq (hp : k.p2m = some p2m) (hm : k.m2p = some m2p) (host : Option HostPages)
    (bytes : Nat) :
    k.blockAlloc host bytes = some (false, k) ∨
    ∃ pages, host = some pages ∧ ¬ k.BlockRefused bytes ∧
      k.blockAlloc host bytes =
        (k.insertPages k.backedPages pages.mfn p2m m2p (k.blockPages bytes)).map
          fun r => (true, k.withBlock pages bytes r.1 r.2) := by
  by_cases hr : k.BlockRefused bytes
  · exact Or.inl (by simp [blockAlloc, hr])
  cases host with
  | none => exact Or.inl (by simp [blockAlloc, hr])
  | some pages =>
    refine Or.inr ⟨pages, rfl, hr, ?_⟩
    simp only [blockAlloc, hr, if_false, hp, hm]
    cases k.insertPages k.backedPages pages.mfn p2m m2p (k.blockPages bytes) <;> rfl

def WindowEffect (k k' : Kload) (changed : Nat → Prop) : Prop :=
  k' = k ∨ ∃ p2m p2m' next, k.p2m = some p2m ∧ k' = { k with p2m := some p2m', windowNext := next } ∧
    next ≤ k.p2mCapacity ∧ ∀ s, ¬ changed s → p2m' s = p2m s

theorem windowMap_effect (hnext : k.windowNext ≤ k.p2mCapacity) (hcap : k.p2mCapacity < 2 ^ 32)
    (mfns : Option (Nat → Nat)) (count : Nat) :
    WindowEffect k (k.windowMap mfns count).k (k.windowBasePages ≤ ·) := by
  rcases k.windowMap_cases mfns count with ⟨rc, -, hr⟩ |
    ⟨f, p2m, first, touched, rfl, h0, hp, hfirst, hbase, ⟨hz, hr⟩ | ⟨p2m', hback, hr⟩⟩
  · exact Or.inl (by rw [hr]; rfl)
  · refine Or.inr ⟨p2m, _, first, hp, by rw [hr], by omega, fun s hs => ?_⟩
    refine Slots.fill_of_ne fun j hj he => hs ?_
    rw [← he, windowSlot_of_lt (by omega)]
    omega
  · refine Or.inr ⟨p2m, p2m', k.windowNext, hp, by rw [hr], hnext, fun s hs => ?_⟩
    rcases hback s with ⟨⟨j, hj, he⟩, -⟩ | he
    · refine absurd ?_ hs
      rw [he, windowSlot_of_lt (by omega)]
      omega
    · exact he

theorem windowMapAt_effect (hnext : k.windowNext ≤ k.p2mCapacity) (hcap : k.p2mCapacity < 2 ^ 32)
    (mfns : Option (Nat → Nat)) (count : Nat) {pseudo : Nat} (hle : windowFirst pseudo ≤ k.p2mCapacity) :
    WindowEffect k (k.windowMapAt mfns count pseudo).k (k.windowBasePages ≤ ·) := by
  rcases k.windowMapAt_cases mfns count pseudo with ⟨rc, touched, -, hr⟩ |
    ⟨f, p2m, touched, rfl, h0, -, hp, hb, -, -, hr⟩
  · exact Or.inl (by rw [hr])
  · obtain ⟨hbase, htop⟩ := bounds_of_le hb hle hcap
    refine Or.inr ⟨p2m, _, k.windowNext, hp, by rw [hr], hnext, fun s hs => ?_⟩
    refine Slots.fill_of_ne fun j hj he => hs ?_
    rw [← he, windowSlot_of_lt (by omega)]
    omega

theorem windowUnmap_effect (hnext : k.windowNext ≤ k.p2mCapacity) (hcap : k.p2mCapacity < 2 ^ 32)
    {pseudo count : Nat} (hle : windowFirst pseudo ≤ k.p2mCapacity) :
    WindowEffect k (k.windowUnmap pseudo count).1 (k.windowBasePages ≤ ·) := by
  rcases k.windowUnmap_cases pseudo count with ⟨-, hr⟩ | ⟨p2m, touched, h0, hp, hb, -, hr⟩
  · exact Or.inl (by rw [hr])
  · obtain ⟨hbase, htop⟩ := bounds_of_le hb hle hcap
    refine Or.inr ⟨p2m, _, _, hp, by rw [hr], ?_, fun s hs => ?_⟩
    · split
      · rw [ulong_of_lt] <;> omega
      · exact hnext
    · refine Slots.fill_of_ne fun j hj he => hs ?_
      rw [← he, windowSlot_of_lt (by omega)]
      omega

theorem LoaderStep.window {op} (h : LoaderStep k op k') (hop : ∀ host bytes, op ≠ .blockAlloc host bytes) :
    k' = k ∨ ∃ p2m' next, k.p2m ≠ none ∧ k' = { k with p2m := some p2m', windowNext := next } := by
  cases h with
  | blockAlloc => exact absurd rfl (hop _ _)
  | @windowMap mfns count =>
    rcases k.windowMap_cases mfns count with ⟨rc, -, hr⟩ |
      ⟨f, p2m, first, touched, rfl, -, hp, -, -, ⟨-, hr⟩ | ⟨p2m', -, hr⟩⟩
    · exact Or.inl (by rw [hr]; rfl)
    · exact Or.inr ⟨_, first, by simp [hp], by rw [hr]⟩
    · exact Or.inr ⟨p2m', k.windowNext, by simp [hp], by rw [hr]⟩
  | @windowMapAt mfns count pseudo =>
    rcases k.windowMapAt_cases mfns count pseudo with ⟨rc, touched, -, hr⟩ |
      ⟨f, p2m, touched, rfl, -, -, hp, -, -, -, hr⟩
    · exact Or.inl (by rw [hr])
    · exact Or.inr ⟨_, k.windowNext, by simp [hp], by rw [hr]⟩
  | @windowUnmap pseudo count =>
    rcases k.windowUnmap_cases pseudo count with ⟨-, hr⟩ | ⟨p2m, touched, -, hp, -, -, hr⟩
    · exact Or.inl (by rw [hr])
    · exact Or.inr ⟨_, _, by simp [hp], by rw [hr]⟩

structure Bookkept (k : Kload) : Prop where
  geometry : k.Geometry
  backed : k.backedPages ≤ k.p2mCapacity
  arrays : ∃ p2m m2p, k.p2m = some p2m ∧ k.m2p = some m2p ∧ Filled k m2p k.backedPages

theorem LoaderStart.bookkept (h : LoaderStart k) : k.Bookkept := by
  have g := h.geometry
  obtain ⟨k₀, capacity, h0, h⟩ := h
  obtain ⟨slots, -, -, -, -, -, rfl⟩ := translationAlloc_ok h
  refine ⟨g, by simp [h0], _, _, rfl, rfl, ?_⟩
  simp only [h0]
  exact Filled.empty fun _ _ => rfl

theorem Bookkept.blockAlloc (h : k.Bookkept) (host : Option HostPages) (bytes : Nat) :
    k.blockAlloc host bytes = some (false, k) ∨
    ∃ pages p2m m2p, host = some pages ∧ ¬ k.BlockRefused bytes ∧ k.p2m = some p2m ∧
      k.backedPages + k.blockPages bytes ≤ k.p2mCapacity ∧
      Filled k m2p (k.backedPages + k.blockPages bytes) ∧
      k.blockAlloc host bytes = some (true, k.withBlock pages bytes
        (Slots.fill (k.backedPages + ·) pages.mfn p2m (k.blockPages bytes)) m2p) := by
  obtain ⟨p2m, m2p, hp, hm, hf⟩ := h.arrays
  rcases blockAlloc_eq hp hm host bytes with hr | ⟨pages, rfl, href, heq⟩
  · exact Or.inl hr
  · have hfit := (not_blockRefused href h.backed h.geometry.capacity_lt).2.2.1
    obtain ⟨m2p', hins, hf'⟩ := hf.insertPages h.geometry hfit p2m pages.mfn
    exact Or.inr ⟨pages, p2m, m2p', rfl, href, hp, hfit, hf', by rw [heq, hins]; rfl⟩

theorem Bookkept.step {op} (h : k.Bookkept) (hs : LoaderStep k op k') : k'.Bookkept := by
  by_cases hop : ∀ host bytes, op ≠ .blockAlloc host bytes
  · rcases hs.window hop with rfl | ⟨p2m', next, -, rfl⟩
    · exact h
    · obtain ⟨p2m, m2p, hp, hm, hf⟩ := h.arrays
      exact ⟨h.geometry.congr rfl rfl rfl, h.backed, p2m', m2p, rfl, hm, { hf with }⟩
  · cases hs with
    | @blockAlloc host bytes ok _ hb =>
      rcases h.blockAlloc host bytes with hr | ⟨pages, p2m, m2p, rfl, -, -, hfit, hf, hr⟩
      · rw [hb] at hr
        cases hr
        exact h
      · rw [hb] at hr
        cases hr
        exact ⟨h.geometry.congr rfl rfl rfl, hfit, _, m2p, rfl, rfl, { hf with }⟩
    | windowMap => simp at hop
    | windowMapAt => simp at hop
    | windowUnmap => simp at hop

theorem LoaderReachable.bookkept {ok} (h : LoaderReachable ok k) : k.Bookkept :=
  Runs.Reach.invariant (P := Bookkept) (fun _ hs => hs.bookkept) (fun _ _ _ hi hs => hi.step hs.2) h

/-- The m2p is the inverse of the p2m on the backed pages, which lie below the arena. -/
structure Translated (k : Kload) : Prop extends Bookkept k where
  apart : k.backedPages ≤ k.windowBasePages
  next : k.windowNext ≤ k.p2mCapacity
  mirror : ∀ p2m m2p, k.p2m = some p2m → k.m2p = some m2p → Mirror k p2m m2p k.backedPages

theorem LoaderStart.translated (h : LoaderStart k) : k.Translated := by
  have hb := h.bookkept
  obtain ⟨k₀, capacity, h0, h⟩ := h
  obtain ⟨slots, -, -, -, -, -, rfl⟩ := translationAlloc_ok h
  refine ⟨hb, by simp [h0], le_refl _, fun p2m m2p hp hm => ?_⟩
  simp only [Option.some.injEq] at hp hm
  subst hp hm
  simp only [h0]
  exact Mirror.empty fun _ _ => rfl

theorem Translated.window (h : k.Translated) (he : WindowEffect k k' (k.windowBasePages ≤ ·))
    (hb : k'.Bookkept) : k'.Translated := by
  rcases he with rfl | ⟨p2m, p2m', next, hp, rfl, hnext, hsame⟩
  · exact h
  · refine ⟨hb, h.apart, hnext, fun q m2p hq hm => ?_⟩
    simp only [Option.some.injEq] at hq
    subst hq
    have hmir : Mirror k p2m' m2p k.backedPages := (h.mirror p2m m2p hp hm).congr fun i hi =>
      hsame i (by have := h.apart; omega)
    exact { hmir with toFilled := ⟨hmir.stored, hmir.occupied⟩ }

theorem Translated.step {op} (h : k.Translated) (hfresh : FreshHost k op) (hok : KeepsApart k op)
    (hs : LoaderStep k op k') : k'.Translated := by
  have hb' := h.toBookkept.step hs
  have hcap := h.geometry.capacity_lt
  cases hs with
  | windowMap => exact h.window (windowMap_effect h.next hcap _ _) hb'
  | windowMapAt => exact h.window (windowMapAt_effect h.next hcap _ _ hok) hb'
  | windowUnmap => exact h.window (windowUnmap_effect h.next hcap hok) hb'
  | @blockAlloc host bytes ok _ hb =>
    obtain ⟨p2m, m2p, hp, hm, -⟩ := h.arrays
    rcases blockAlloc_eq hp hm host bytes with hr | ⟨pages, rfl, href, heq⟩
    · rw [hb] at hr
      cases hr
      exact h
    · have hfit := (not_blockRefused href h.backed hcap).2.2.1
      obtain ⟨m2p', hins, hmir⟩ := (h.mirror p2m m2p hp hm).insertPages h.geometry hfit
        ⟨hfresh.inj, hfresh.new p2m hp⟩
      rw [heq, hins] at hb
      cases hb
      refine ⟨hb', hok, h.next, fun q n hq hn => ?_⟩
      simp only [withBlock, Option.some.injEq] at hq hn
      subst hq hn
      exact { hmir with toFilled := ⟨hmir.stored, hmir.occupied⟩ }

theorem LoaderReachable.translated
    (h : LoaderReachable (fun k op => FreshHost k op ∧ KeepsApart k op) k) : k.Translated :=
  Runs.Reach.invariant (P := Translated) (fun _ hs => hs.translated)
    (fun _ _ _ hi hs => hi.step hs.1.1 hs.1.2 hs.2) h

theorem Bookkept.machineToPseudoPfn_eq (h : k.Bookkept) (hp : k.p2m = some p2m) (hm : k.m2p = some m2p)
    (mfn : Nat) : k.machineToPseudoPfn mfn =
      LinearProbing.find (m2pTable m2p) k.m2pSlots (fun v => decide (v < k.backedPages ∧ p2m v = mfn))
        k.m2pSlots (frameKey mfn % k.m2pSlots) := by
  have hpos := h.geometry.pos
  rw [machineToPseudoPfn, hp, hm]
  simp only [Nat.ne_of_gt hpos, if_false, h.geometry.machineToPseudoLoop_eq, h.geometry.m2pHash_eq]

theorem Translated.lookup (h : k.Translated) (hp : k.p2m = some p2m) {i : Nat} (hi : i < k.backedPages) :
    k.machineToPseudoPfn (p2m i) = some i := by
  obtain ⟨-, m2p, -, hm, -⟩ := h.arrays
  have hmir := h.mirror p2m m2p hp hm
  obtain ⟨s, hs, hv⟩ := hmir.present i hi
  rw [h.machineToPseudoPfn_eq hp hm]
  refine LinearProbing.find_eq_some hmir.reachable hs hv (by simp [hi]) fun s' hs' v' hv' hhit => ?_
  simp only [decide_eq_true_eq] at hhit
  exact hmir.inj v' hhit.1 i hi hhit.2

theorem Bookkept.lookup_none (h : k.Bookkept) (hp : k.p2m = some p2m) {mfn : Nat}
    (hno : ∀ i < k.backedPages, p2m i ≠ mfn) : k.machineToPseudoPfn mfn = none := by
  obtain ⟨-, m2p, -, hm, -⟩ := h.arrays
  rw [h.machineToPseudoPfn_eq hp hm]
  refine LinearProbing.find_eq_none h.geometry.pos (fun s _ v _ => ?_) _ (Nat.mod_lt _ h.geometry.pos)
  simp only [decide_eq_false_iff_not, not_and]
  exact fun hv => hno v hv

end MoCoLinux.Kload
