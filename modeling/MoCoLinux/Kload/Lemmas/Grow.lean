import MoCoLinux.Arch.Lemmas.Entry
import MoCoLinux.Kload.Lemmas.Frames
import MoCoLinux.Kload.Load

/-!
# Growing RAM
-/

namespace MoCoLinux

open Arch (Mem)

namespace Loader

open Kload

variable {host : Host} {l l' l'' : Loader} {m m' m'' : Mem} {target bytes : Nat}

/-! ## One block -/

def blockLimit (k : Kload) : Nat := if k.userRamVa = 0 then 8192 else 2048

def growPages (k : Kload) (target : Nat) : Nat :=
  max 1 (min ((target - k.backedPages * 4096) / 4096) (blockLimit k))

theorem growWant_eq (backed target : Nat) :
    growWant backed target = max 1 (min ((target - backed * 4096) / 4096) 8192) * 4096 := by
  have hs : backed <<< 12 = backed * 4096 := Nat.shiftLeft_eq _ _
  have hc : chunkBytes = 33554432 := by decide
  have hp : Arch.pageSize = 4096 := rfl
  simp only [growWant, hs, hc, hp]
  split
  next hlt => rw [show 33554432 &&& Arch.pageMask = 33554432 by decide]; simp; omega
  next hge => rw [Arch.and_pageMask (by omega)]; split <;> omega

theorem blockBytes_mul (k : Kload) {a : Nat} (ha : a ≤ 8192) :
    k.blockBytes (a * 4096) = min a (blockLimit k) * 4096 := by
  have hu : userBlockBytes = 8388608 := by decide
  rw [blockBytes, blockLimit, hu]
  by_cases h0 : k.userRamVa = 0
  · simp only [h0, ne_eq, not_true_eq_false, false_and, if_false, if_true]
    omega
  · simp only [h0, ne_eq, not_false_eq_true, true_and, if_false]
    split <;> omega

theorem blockPages_mul (k : Kload) {a : Nat} (ha : a ≤ 8192) : k.blockPages (a * 4096) = min a (blockLimit k) := by
  rw [blockPages, blockBytes_mul k ha, Nat.shiftRight_eq_div_pow]
  rw [ulong_of_lt (by omega)]
  omega

theorem blockBytes_growWant (k : Kload) (target : Nat) :
    k.blockBytes (growWant k.backedPages target) = growPages k target * 4096 := by
  rw [growWant_eq, blockBytes_mul k (by omega), growPages, blockLimit]
  split <;> omega

theorem growPages_le (k : Kload) (target : Nat) : growPages k target ≤ 8192 := by
  rw [growPages, blockLimit]; split <;> omega

theorem blockPages_growWant (k : Kload) (target : Nat) :
    k.blockPages (growWant k.backedPages target) = growPages k target := by
  rw [growWant_eq, blockPages_mul k (by omega), growPages, blockLimit]
  split <;> omega

theorem blockAlloc_cases (h : l.k.Bookkept) (host : Host) (bytes : Nat) (m : Mem) :
    (∃ r, blockAlloc host bytes l m = some (false, { l with requests := r }, m)) ∨
    ∃ pages p2m m2p, host.pages l.requests = some pages ∧ ¬ l.k.BlockRefused bytes ∧ l.k.p2m = some p2m ∧
      blockAlloc host bytes l m = some (true, { l with
          k := l.k.withBlock pages bytes
            (Slots.fill (l.k.backedPages + ·) pages.mfn p2m (l.k.blockPages bytes)) m2p
          requests := l.requests + 1 },
        zeroFrames m pages.mfn (l.k.blockPages bytes)) := by
  rcases h.blockAlloc (host.pages l.requests) bytes with hr | ⟨pages, p2m, m2p, hpages, href, hp, -, -, hr⟩
  · refine Or.inl ⟨if l.k.BlockRefused bytes then l.requests else l.requests + 1, ?_⟩
    simp [blockAlloc, hr]
  · refine Or.inr ⟨pages, p2m, m2p, hpages, href, hp, ?_⟩
    rw [hpages] at hr
    simp only [blockAlloc, hpages, hr, if_neg href]
    rfl

/-! ## What growing leaves alone -/

structure Grown (l l' : Loader) : Prop where
  k : ∃ p2m m2p block backed, l'.k =
    { l.k with p2m := p2m, m2p := m2p, block := block, backedPages := backed }
  oom : l'.tableOom = l.tableOom
  backed : l.k.backedPages ≤ l'.k.backedPages
  p2m : ∀ p2m, l.k.p2m = some p2m → ∃ p2m', l'.k.p2m = some p2m' ∧ ∀ i < l.k.backedPages, p2m' i = p2m i

theorem Grown.refl (l : Loader) (r : Nat) : Grown l { l with requests := r } :=
  ⟨⟨_, _, _, _, rfl⟩, rfl, le_refl _, fun p2m hp => ⟨p2m, hp, fun _ _ => rfl⟩⟩

theorem Grown.trans (h : Grown l l') (h' : Grown l' l'') : Grown l l'' := by
  obtain ⟨p, m, b, n, hk⟩ := h.k
  obtain ⟨p', m', b', n', hk'⟩ := h'.k
  refine ⟨⟨p', m', b', n', by rw [hk', hk]⟩, h'.oom.trans h.oom, h.backed.trans h'.backed, fun p2m hp => ?_⟩
  obtain ⟨q, hq, hsame⟩ := h.p2m p2m hp
  obtain ⟨q', hq', hsame'⟩ := h'.p2m q hq
  exact ⟨q', hq', fun i hi => (hsame' i (Nat.lt_of_lt_of_le hi h.backed)).trans (hsame i hi)⟩

theorem blockAlloc_bookkept (h : l.k.Bookkept) {ok} (hr : blockAlloc host bytes l m = some (ok, l', m')) :
    l'.k.Bookkept := by
  obtain ⟨⟨ok', k'⟩, hk, hrest⟩ := Option.bind_eq_some_iff.mp hr
  cases hrest
  exact h.step (.blockAlloc hk)

theorem blockAlloc_grown (h : l.k.Bookkept) {ok} (hr : blockAlloc host bytes l m = some (ok, l', m')) :
    Grown l l' := by
  rcases blockAlloc_cases h host bytes m with ⟨r, heq⟩ | ⟨pages, p2m, m2p, -, -, hp, heq⟩
  · rw [heq] at hr
    cases hr
    exact Grown.refl l r
  · rw [heq] at hr
    cases hr
    refine ⟨⟨_, _, _, _, rfl⟩, rfl, Nat.le_add_right _ _, fun q hq => ?_⟩
    rw [hp, Option.some.injEq] at hq
    subst hq
    exact ⟨_, rfl, fun i hi => Slots.fill_of_ne fun j _ => by omega⟩

def SectionBound (k : Kload) : Prop := k.userRamVa ≠ 0 → k.backedPages * 4096 ≤ k.userRamBytes

theorem blockAlloc_sectionBound (h : l.k.Bookkept) (hs : SectionBound l.k) {ok}
    (hr : blockAlloc host bytes l m = some (ok, l', m')) : SectionBound l'.k := by
  rcases blockAlloc_cases h host bytes m with ⟨r, heq⟩ | ⟨pages, p2m, m2p, -, href, -, heq⟩
  · rw [heq] at hr
    cases hr
    exact hs
  · rw [heq] at hr
    cases hr
    intro (hu : l.k.userRamVa ≠ 0)
    have hfit := (not_blockRefused href h.backed h.geometry.capacity_lt).2.2.2.resolve_left hu
    have hbytes : l.k.blockBytes bytes ≤ 8388608 := by
      have hub : userBlockBytes = 8388608 := by decide
      rw [blockBytes, hub]; split <;> omega
    have hpages : l.k.blockPages bytes * 4096 ≤ l.k.blockBytes bytes := by
      rw [blockPages, Nat.shiftRight_eq_div_pow, ulong_of_lt (by omega)]; omega
    have hshift : l.k.backedPages <<< 12 = l.k.backedPages * 4096 := Nat.shiftLeft_eq _ _
    rw [hshift] at hfit
    show (l.k.backedPages + l.k.blockPages bytes) * 4096 ≤ l.k.userRamBytes
    rw [Nat.add_mul]
    exact (Nat.add_le_add_left hpages _).trans hfit

theorem growAttempt_inv {P : Loader → Mem → Prop}
    (hstep : ∀ bytes l m ok l' m', P l m → blockAlloc host bytes l m = some (ok, l', m') → P l' m')
    (rounds : Nat) : ∀ {attempt l m ok l' m'}, P l m →
      growAttempt host rounds attempt l m = some (ok, l', m') → P l' m' := by
  induction rounds with
  | zero => intro attempt l m ok l' m' _ h; simp [growAttempt] at h
  | succ rounds ih =>
    intro attempt l m ok l' m' hP h
    obtain ⟨⟨ok₁, l₁, m₁⟩, hb, hrest⟩ := Option.bind_eq_some_iff.mp h
    have hP₁ := hstep _ _ _ _ _ _ hP hb
    dsimp only at hrest
    split at hrest
    · cases hrest; exact hP₁
    · split at hrest
      · cases hrest; exact hP₁
      · exact ih hP₁ hrest

theorem growTo_inv {P : Loader → Mem → Prop}
    (hstep : ∀ bytes l m ok l' m', P l m → blockAlloc host bytes l m = some (ok, l', m') → P l' m') {ok}
    (hP : P l m) (h : growTo host target l m = some (ok, l', m')) : P l' m' := by
  have key : ∀ rounds {l m ok l' m'}, P l m → growLoop host target rounds l m = some (ok, l', m') → P l' m' := by
    intro rounds
    induction rounds with
    | zero => intro l m ok l' m' _ h; simp [growLoop] at h
    | succ rounds ih =>
      intro l m ok l' m' hP h
      rw [growLoop] at h
      split at h
      · obtain ⟨⟨ok₁, l₁, m₁⟩, ha, hrest⟩ := Option.bind_eq_some_iff.mp h
        have hP₁ := growAttempt_inv hstep 64 hP ha
        dsimp only at hrest
        split at hrest
        · exact ih hP₁ hrest
        · cases hrest; exact hP₁
      · cases h; exact hP
  exact key _ hP h

theorem growTo_grown (h : l.k.Bookkept) (hs : SectionBound l.k) {ok}
    (hr : growTo host target l m = some (ok, l', m')) :
    Grown l l' ∧ l'.k.Bookkept ∧ SectionBound l'.k := by
  have hstep : ∀ bytes (l₁ : Loader) (m₁ : Mem) ok (l₂ : Loader) (m₂ : Mem),
      (Grown l l₁ ∧ l₁.k.Bookkept ∧ SectionBound l₁.k) → blockAlloc host bytes l₁ m₁ = some (ok, l₂, m₂) →
      Grown l l₂ ∧ l₂.k.Bookkept ∧ SectionBound l₂.k := by
    rintro bytes l₁ m₁ ok l₂ m₂ ⟨hg, hb, hsec⟩ hr
    exact ⟨hg.trans (blockAlloc_grown hb hr), blockAlloc_bookkept hb hr, blockAlloc_sectionBound hb hsec hr⟩
  exact growTo_inv (P := fun l₁ _ => Grown l l₁ ∧ l₁.k.Bookkept ∧ SectionBound l₁.k) hstep
    ⟨Grown.refl l l.requests, h, hs⟩ hr

/-! ## A host that answers every request -/

structure Supplied (host : Host) (l : Loader) : Prop where
  translated : l.k.Translated
  blocks : Stacked 0 l.k.block (l.k.backedPages * 4096)
  requests : l.requests = l.k.block.length
  length : l.k.block.length ≤ maxBlocks
  origin : ∀ p2m, l.k.p2m = some p2m → ∀ i < l.k.backedPages, ∃ r < l.requests, ∃ j < 8192, ∃ pages,
    host.pages r = some pages ∧ p2m i = pages.mfn j

theorem Supplied.frames (hs : Supplies host) (h : Supplied host l) {p2m} (hp : l.k.p2m = some p2m) {i : Nat}
    (hi : i < l.k.backedPages) : p2m i ≠ 0 ∧ p2m i < 2 ^ 40 := by
  obtain ⟨r, hr, j, hj, pages, hpages, he⟩ := h.origin p2m hp i hi
  have hlen := h.length
  have hreq := h.requests
  rw [he]
  exact hs.frames r (by omega) pages hpages j hj

theorem zeroFrames_of_ne {mfn : Nat → Nat} {n q : Nat} (h : ∀ i < n, mfn i ≠ q) : zeroFrames m mfn n q = m q := by
  induction n with
  | zero => rfl
  | succ n ih =>
    rw [zeroFrames, Mem.zero, Function.update_of_ne (h n (by omega)).symm]
    exact ih fun i hi => h i (by omega)

def KeepsRam (l : Loader) (m m' : Mem) : Prop :=
  ∀ p2m, l.k.p2m = some p2m → ∀ i < l.k.backedPages, m' (p2m i) = m (p2m i)

theorem KeepsRam.trans (h : KeepsRam l m m') (hg : Grown l l') (h' : KeepsRam l' m' m'') : KeepsRam l m m'' := by
  intro p2m hp i hi
  obtain ⟨p2m', hp', hsame⟩ := hg.p2m p2m hp
  rw [← h p2m hp i hi, ← hsame i hi]
  exact h' p2m' hp' i (Nat.lt_of_lt_of_le hi hg.backed)

theorem Supplied.blockAlloc (hs : Supplies host) (h : Supplied host l) (m : Mem)
    (hn : l.k.blockPages bytes ≤ 8192) (href : ¬ l.k.BlockRefused bytes)
    (hbase : l.k.backedPages + l.k.blockPages bytes ≤ l.k.windowBasePages) :
    ∃ l' m', blockAlloc host bytes l m = some (true, l', m') ∧ Supplied host l' ∧ Grown l l' ∧
      l'.k.backedPages = l.k.backedPages + l.k.blockPages bytes ∧
      l'.k.block.length = l.k.block.length + 1 ∧ KeepsRam l m m' := by
  have hb := h.translated.toBookkept
  obtain ⟨hlen, hpos, -, -⟩ := not_blockRefused href hb.backed hb.geometry.capacity_lt
  have hreq := h.requests
  obtain ⟨pages, hpages, hva⟩ := hs.answers l.requests (by omega)
  -- the new frames differ from those of the earlier requests
  have hnew : ∀ p2m, l.k.p2m = some p2m → ∀ i < l.k.backedPages, ∀ j < 8192, p2m i ≠ pages.mfn j := by
    intro p2m hp i hi j hj he
    obtain ⟨r, hr, j', hj', pages', hpages', he'⟩ := h.origin p2m hp i hi
    have := (hs.distinct r (by omega) l.requests (by omega) pages' pages hpages' hpages j' hj' j hj
      (he' ▸ he)).1
    omega
  have hfresh : FreshHost l.k (.blockAlloc (host.pages l.requests) bytes) := by
    rw [hpages]
    have hreq' : l.requests < maxBlocks := by omega
    refine ⟨fun i hi => (hs.frames _ hreq' pages hpages i (hi.trans_le hn)).1, fun i hi j hj he => ?_,
      fun p2m hp i hi j hj => hnew p2m hp i hi j (hj.trans_le hn)⟩
    exact (hs.distinct _ hreq' _ hreq' pages pages hpages hpages i (hi.trans_le hn) j (hj.trans_le hn) he).2
  obtain ⟨p2m, -, hp, -, -⟩ := hb.arrays
  rcases hb.blockAlloc (host.pages l.requests) bytes with hr | ⟨pages', p2m', m2p, hpages', -, hp', -, -, hr⟩
  · obtain ⟨q, m2p, hq, hm2p, -⟩ := hb.arrays
    rcases blockAlloc_eq hq hm2p (host.pages l.requests) bytes with hr' | ⟨_, -, -, hr'⟩
    · simp only [Kload.blockAlloc, if_neg href, hpages, hq, hm2p] at hr'
      obtain ⟨x, -, hx⟩ := Option.bind_eq_some_iff.mp hr'
      cases hx
    · rw [hr'] at hr
      obtain ⟨x, -, hx⟩ := Option.map_eq_some_iff.mp hr
      cases hx
  · rw [hpages, Option.some.injEq] at hpages'
    subst hpages'
    rw [hp, Option.some.injEq] at hp'
    subst hp'
    have ht := h.translated.step hfresh hbase (.blockAlloc hr)
    have halloc : Loader.blockAlloc host bytes l m = some (true, { l with
          k := l.k.withBlock pages bytes
            (Slots.fill (l.k.backedPages + ·) pages.mfn p2m (l.k.blockPages bytes)) m2p
          requests := l.requests + 1 },
        zeroFrames m pages.mfn (l.k.blockPages bytes)) := by
      rw [hpages] at hr
      simp only [Loader.blockAlloc, hpages, hr, if_neg href]
      rfl
    refine ⟨_, _, halloc, ⟨ht, ?_, ?_, ?_, ?_⟩, blockAlloc_grown hb halloc, rfl, ?_, ?_⟩
    · have hs12 : ∀ a, a <<< 12 = a * 4096 := fun a => Nat.shiftLeft_eq _ _
      have hpos12 : 0 < l.k.blockPages bytes <<< 12 := by rw [hs12]; omega
      have hst := h.blocks.append (b := ⟨pages.va, l.k.backedPages <<< 12, l.k.blockPages bytes <<< 12, pages.mdl⟩)
        (hs12 _) hpos12 hva
      simpa only [withBlock, hs12, Nat.add_mul] using hst
    · simp [withBlock, hreq]
    · simp only [withBlock, List.length_append, List.length_singleton]; omega
    · intro q hq i hi
      simp only [withBlock, Option.some.injEq] at hq hi
      subst hq
      by_cases hold : i < l.k.backedPages
      · obtain ⟨r, hr, j, hj, pages', hpages', he⟩ := h.origin p2m hp i hold
        exact ⟨r, by simp only; omega, j, hj, pages', hpages', by
          rw [Slots.fill_of_ne fun a _ => by omega]; exact he⟩
      · obtain ⟨j, rfl⟩ : ∃ j, i = l.k.backedPages + j := ⟨i - l.k.backedPages, by omega⟩
        exact ⟨l.requests, by simp only; omega, j, by omega, pages, hpages,
          Slots.fill_slot (fun a _ b _ hab => by omega) (by omega)⟩
    · simp [withBlock]
    · intro q hq i hi
      exact zeroFrames_of_ne fun j hj => (hnew q hq i hi j (by omega)).symm

/-! ## Reaching the target -/

/-- `n` blocks suffice to reach `target`; a part of a page at the end takes a block of its own. -/
def Enough (k : Kload) (target n : Nat) : Prop :=
  (target - k.backedPages * 4096) / 4096 +
    (if (target - k.backedPages * 4096) % 4096 = 0 then 0 else blockLimit k) ≤ n * blockLimit k

theorem Enough.pos {k : Kload} {n : Nat} (h : Enough k target n) (hlt : k.backedPages * 4096 < target) :
    0 < n := by
  rw [Enough, blockLimit] at h
  rcases Nat.eq_zero_or_pos n with rfl | hn
  · split at h <;> split at h <;> omega
  · exact hn

theorem growPages_fit {k : Kload} (hlt : k.backedPages * 4096 < target) :
    k.backedPages + growPages k target ≤ pagesUpTo target := by
  rw [growPages, pagesUpTo]; omega

theorem Enough.step {k k' : Kload} {n : Nat} (h : Enough k target (n + 1)) (hlt : k.backedPages * 4096 < target)
    (hb : k'.backedPages = k.backedPages + growPages k target) (hu : k'.userRamVa = k.userRamVa) :
    Enough k' target n := by
  have hrest : target - k'.backedPages * 4096
      = target - k.backedPages * 4096 - growPages k target * 4096 := by rw [hb]; omega
  have hlimit : blockLimit k' = blockLimit k := by rw [blockLimit, blockLimit, hu]
  rw [Enough] at h ⊢
  rw [hrest, hlimit, growPages]
  have hpos : 0 < target - k.backedPages * 4096 := by omega
  generalize target - k.backedPages * 4096 = rest at h hpos ⊢
  by_cases h0 : k.userRamVa = 0
  · simp only [blockLimit, h0, if_true] at h ⊢
    split at h <;> split <;> omega
  · simp only [blockLimit, h0, if_false] at h ⊢
    split at h <;> split <;> omega

structure Room (k : Kload) (target n : Nat) : Prop where
  blocks : k.block.length + n ≤ maxBlocks
  capacity : pagesUpTo target ≤ k.p2mCapacity
  base : pagesUpTo target ≤ k.windowBasePages
  view : k.userRamVa ≠ 0 → pagesUpTo target * 4096 ≤ k.userRamBytes

theorem Room.not_refused {k : Kload} {n : Nat} (h : Room k target n) (hn : 0 < n) (hcap : k.p2mCapacity < 2 ^ 32)
    (hb : k.backedPages ≤ k.p2mCapacity) (hlt : k.backedPages * 4096 < target) :
    ¬ k.BlockRefused (growWant k.backedPages target) := by
  have hfit := growPages_fit hlt
  have h1 : 1 ≤ growPages k target := Nat.le_max_left _ _
  have hcapacity := h.capacity
  have hblocks := h.blocks
  have hs : k.backedPages <<< 12 = k.backedPages * 4096 := Nat.shiftLeft_eq _ _
  rw [BlockRefused, ulongSub_of_le hb hcap, blockPages_growWant, blockBytes_growWant, hs]
  rintro (hlen | h0 | hc | ⟨hu, hv⟩)
  · omega
  · omega
  · omega
  · have := h.view hu
    omega

theorem growLoop_full (hs : Supplies host) (n : Nat) : ∀ {rounds l m}, Supplied host l → n < rounds →
    Enough l.k target n → Room l.k target n →
    ∃ l' m', growLoop host target rounds l m = some (true, l', m') ∧ Supplied host l' ∧ Grown l l' ∧
      l'.k.backedPages = max l.k.backedPages (pagesUpTo target) ∧
      l'.k.block.length ≤ l.k.block.length + n ∧ KeepsRam l m m' := by
  induction n with
  | zero =>
    intro rounds l m h hr henough _
    obtain ⟨rounds, rfl⟩ : ∃ r, rounds = r + 1 := ⟨rounds - 1, by omega⟩
    have hge : ¬ l.k.backedPages * 4096 < target := fun hlt => absurd (henough.pos hlt) (by omega)
    have hs12 : l.k.backedPages <<< 12 = l.k.backedPages * 4096 := Nat.shiftLeft_eq _ _
    refine ⟨l, m, by rw [growLoop, hs12, if_neg hge], h, Grown.refl l l.requests, ?_, le_refl _,
      fun _ _ _ _ => rfl⟩
    rw [pagesUpTo]; omega
  | succ n ih =>
    intro rounds l m h hr henough hroom
    obtain ⟨rounds, rfl⟩ : ∃ r, rounds = r + 1 := ⟨rounds - 1, by omega⟩
    have hs12 : l.k.backedPages <<< 12 = l.k.backedPages * 4096 := Nat.shiftLeft_eq _ _
    by_cases hlt : l.k.backedPages * 4096 < target
    · have hb := h.translated.toBookkept
      have hfit := growPages_fit hlt
      have hbase := hroom.base
      have href := hroom.not_refused (by omega) hb.geometry.capacity_lt hb.backed hlt
      obtain ⟨l₁, m₁, halloc, h₁, hg₁, hbacked, hlen, hmem⟩ := h.blockAlloc hs m
        (by rw [blockPages_growWant]; exact growPages_le _ _) href (by rw [blockPages_growWant]; omega)
      rw [blockPages_growWant] at hbacked
      obtain ⟨p, m2p, b, c, hk⟩ := hg₁.k
      have hroom₁ : Room l₁.k target n := by
        have hblocks := hroom.blocks
        refine ⟨by omega, ?_, ?_, ?_⟩
        · rw [hk]; exact hroom.capacity
        · rw [hk]; exact hroom.base
        · rw [hk]; exact hroom.view
      obtain ⟨l₂, m₂, hloop, h₂, hg₂, hbacked₂, hlen₂, hmem₂⟩ := ih (m := m₁) h₁ (by omega : n < rounds)
        (henough.step hlt hbacked (by rw [hk])) hroom₁
      have hattempt : growAttempt host 64 (growWant l.k.backedPages target) l m = some (true, l₁, m₁) := by
        rw [growAttempt, halloc]
        rfl
      refine ⟨l₂, m₂, ?_, h₂, hg₁.trans hg₂, by omega, by omega, hmem.trans hg₁ hmem₂⟩
      rw [growLoop, hs12, if_pos hlt]
      simp only [hattempt, Option.bind_eq_bind, Option.bind_some, if_true]
      exact hloop
    · refine ⟨l, m, by rw [growLoop, hs12, if_neg hlt], h, Grown.refl l l.requests, ?_, by omega,
        fun _ _ _ _ => rfl⟩
      rw [pagesUpTo]; omega

theorem growTo_full (hs : Supplies host) (h : Supplied host l) (m : Mem) {n : Nat} (henough : Enough l.k target n)
    (hroom : Room l.k target n) :
    ∃ l' m', growTo host target l m = some (true, l', m') ∧ Supplied host l' ∧ Grown l l' ∧
      l'.k.backedPages = max l.k.backedPages (pagesUpTo target) ∧
      l'.k.block.length ≤ l.k.block.length + n ∧ KeepsRam l m m' := by
  have hblocks := hroom.blocks
  exact growLoop_full hs n h (by omega) henough hroom

/-! ## Growing as far as the limits allow -/

theorem blockAlloc_refused (h : l.k.BlockRefused bytes) (host : Host) (m : Mem) :
    blockAlloc host bytes l m = some (false, l, m) := by
  simp [blockAlloc, Kload.blockAlloc, h]

section Rule

variable {P : Loader → Mem → Prop}
  (hstep : ∀ {a l m}, P l m → a ≤ 8192 → l.k.backedPages + min a (blockLimit l.k) ≤ pagesUpTo target →
    (∃ l', blockAlloc host (a * 4096) l m = some (false, l', m) ∧ l'.k = l.k ∧ P l' m) ∨
    ∃ l' m', blockAlloc host (a * 4096) l m = some (true, l', m') ∧ P l' m' ∧
      l.k.block.length < maxBlocks ∧ l'.k.block.length = l.k.block.length + 1)

include hstep

theorem growAttempt_rule (rounds : Nat) : ∀ {a l m}, P l m → 0 < a → a < 2 ^ rounds → a ≤ 8192 →
    l.k.backedPages + min a (blockLimit l.k) ≤ pagesUpTo target →
    (∃ l', growAttempt host rounds (a * 4096) l m = some (false, l', m) ∧ P l' m) ∨
    ∃ l' m', growAttempt host rounds (a * 4096) l m = some (true, l', m') ∧ P l' m' ∧
      l.k.block.length < maxBlocks ∧ l'.k.block.length = l.k.block.length + 1 := by
  induction rounds with
  | zero => intro a l m _ h0 h1; omega
  | succ rounds ih =>
    intro a l m h h0 h1 hle hfit
    rcases hstep h hle hfit with ⟨l', hno, hk, h'⟩ | ⟨l', m', hyes, hrest⟩
    · by_cases hone : a = 1
      · subst hone
        exact Or.inl ⟨l', by rw [growAttempt, hno]; rfl, h'⟩
      · have hhalf : (a * 4096) >>> 1 &&& Arch.pageMask = a / 2 * 4096 := by
          rw [Nat.shiftRight_eq_div_pow, Arch.and_pageMask (by omega)]
          omega
        have hmore : a * 4096 ≠ Arch.pageSize := by rw [Arch.pageSize]; omega
        have hroom : ¬ a / 2 * 4096 < Arch.pageSize := by rw [Arch.pageSize]; omega
        have hnext : growAttempt host (rounds + 1) (a * 4096) l m = growAttempt host rounds (a / 2 * 4096) l' m := by
          rw [growAttempt, hno]
          simp only [Option.bind_eq_bind, Option.bind_some, Bool.false_eq_true, if_false, hhalf, if_neg hmore,
            if_neg hroom]
        rw [hnext, ← hk]
        exact ih h' (by omega) (by rw [Nat.pow_succ] at h1; omega) (by omega) (by rw [hk]; omega)
    · exact Or.inr ⟨l', m', by rw [growAttempt, hyes]; rfl, hrest⟩

/-- What every block on the way keeps holds after `kload_grow_to`, which ends and reports whether it reached the
target: a round without a new block ends the loop, and the table has room for `maxBlocks`. -/
theorem growTo_rule (h : P l m) : ∃ ok l' m', growTo host target l m = some (ok, l', m') ∧ P l' m' ∧
    (ok = true → target ≤ l'.k.backedPages * 4096) := by
  have key : ∀ rounds {l m}, P l m → maxBlocks - l.k.block.length < rounds →
      ∃ ok l' m', growLoop host target rounds l m = some (ok, l', m') ∧ P l' m' ∧
        (ok = true → target ≤ l'.k.backedPages * 4096) := by
    intro rounds
    induction rounds with
    | zero => intro l m _ h; omega
    | succ rounds ih =>
      intro l m h hrounds
      have hs12 : l.k.backedPages <<< 12 = l.k.backedPages * 4096 := Nat.shiftLeft_eq _ _
      rw [growLoop, hs12]
      by_cases hlt : l.k.backedPages * 4096 < target
      · rw [if_pos hlt, growWant_eq]
        have hfit : l.k.backedPages + min (max 1 (min ((target - l.k.backedPages * 4096) / 4096) 8192))
            (blockLimit l.k) ≤ pagesUpTo target := by
          rw [pagesUpTo]; omega
        rcases growAttempt_rule hstep 64 h (by omega) (by omega) (by omega) hfit with
          ⟨l₁, hno, h₁⟩ | ⟨l₁, m₁, hyes, h₁, hlen, hlen₁⟩
        · exact ⟨false, l₁, m, by rw [hno]; rfl, h₁, fun hok => by cases hok⟩
        · obtain ⟨ok, l₂, m₂, hloop, h₂, hok⟩ := ih h₁ (by omega)
          refine ⟨ok, l₂, m₂, ?_, h₂, hok⟩
          rw [hyes]
          simp only [Option.bind_eq_bind, Option.bind_some, if_true]
          exact hloop
      · exact ⟨true, l, m, by rw [if_neg hlt], h, fun _ => by omega⟩
  exact key _ h (by omega)

end Rule

theorem growTo_supplied (hs : Supplies host) (h : Supplied host l) (m : Mem)
    (hbase : pagesUpTo target ≤ l.k.windowBasePages) :
    ∃ ok l' m', growTo host target l m = some (ok, l', m') ∧ Supplied host l' ∧ Grown l l' ∧
      l'.k.backedPages ≤ max l.k.backedPages (pagesUpTo target) ∧ KeepsRam l m m' ∧
      (ok = true → target ≤ l'.k.backedPages * 4096) := by
  suffices hrule : ∃ ok l' m', growTo host target l m = some (ok, l', m') ∧ (Supplied host l' ∧ Grown l l' ∧
      l'.k.backedPages ≤ max l.k.backedPages (pagesUpTo target) ∧ KeepsRam l m m') ∧
      (ok = true → target ≤ l'.k.backedPages * 4096) by
    obtain ⟨ok, l', m', hr, ⟨h', hg, hb, hm⟩, hok⟩ := hrule
    exact ⟨ok, l', m', hr, h', hg, hb, hm, hok⟩
  refine growTo_rule (P := fun l₁ m₁ => Supplied host l₁ ∧ Grown l l₁ ∧
    l₁.k.backedPages ≤ max l.k.backedPages (pagesUpTo target) ∧ KeepsRam l m m₁) ?_
    ⟨h, Grown.refl l l.requests, by omega, fun _ _ _ _ => rfl⟩
  rintro a l₁ m₁ ⟨h₁, hg₁, hb₁, hm₁⟩ hle hfit
  have hpages := blockPages_mul l₁.k hle
  by_cases href : l₁.k.BlockRefused (a * 4096)
  · exact Or.inl ⟨l₁, blockAlloc_refused href host m₁, rfl, h₁, hg₁, hb₁, hm₁⟩
  · have hbase₁ : l₁.k.windowBasePages = l.k.windowBasePages := by
      obtain ⟨_, _, _, _, hk⟩ := hg₁.k
      rw [hk]
    obtain ⟨hlen, -⟩ := not_blockRefused href h₁.translated.backed h₁.translated.geometry.capacity_lt
    obtain ⟨l₂, m₂, halloc, h₂, hg, hbacked, hlen', hmem⟩ := h₁.blockAlloc hs m₁ (by omega) href (by omega)
    exact Or.inr ⟨l₂, m₂, halloc, ⟨h₂, hg₁.trans hg, by omega, hm₁.trans hg₁ hmem⟩, hlen, hlen'⟩

end Loader

end MoCoLinux
