import MoCoLinux.Kload.Lemmas.Loader

/-!
# The p2m and the m2p: results
-/

namespace MoCoLinux.Kload

/-- In every run with fresh frames that keeps RAM and windows apart, the reverse lookup finds each backed page by its
frame and no other frame, and the insertion probe always ends. -/
theorem reverse_map_exact {k : Kload}
    (h : LoaderReachable (fun k op => FreshHost k op ∧ KeepsApart k op) k) :
    (∃ p2m, k.p2m = some p2m ∧ (∀ i < k.backedPages, k.machineToPseudoPfn (p2m i) = some i) ∧
      ∀ mfn, (∀ i < k.backedPages, p2m i ≠ mfn) → k.machineToPseudoPfn mfn = none) ∧
    ∀ host bytes, k.blockAlloc host bytes ≠ none := by
  have ht := h.translated
  obtain ⟨p2m, m2p, hp, -, -⟩ := ht.arrays
  refine ⟨⟨p2m, hp, fun i hi => ht.lookup hp hi, fun mfn hno => ht.lookup_none hp hno⟩, fun host bytes hnone => ?_⟩
  rcases ht.toBookkept.blockAlloc host bytes with hr | ⟨pages, q, m, -, -, -, -, -, hr⟩ <;>
    simp [hnone] at hr

def twoPages : HostPages := ⟨0x1000, 0, fun i => 100 + i⟩

def smallLoader (base : Nat) : Kload :=
  (translationAlloc { initial with windowBasePages := base } 4 true true).2

def smallGrown (base : Nat) : Kload :=
  (((smallLoader base).blockAlloc (some twoPages) 8192).map Prod.snd).getD (smallLoader base)

theorem smallLoader_start (base : Nat) : LoaderStart (smallLoader base) :=
  ⟨{ initial with windowBasePages := base }, 4, rfl, rfl⟩

theorem smallLoader_backedPages (base : Nat) : (smallLoader base).backedPages = 0 := rfl

theorem smallLoader_fresh (base : Nat) : FreshHost (smallLoader base) (.blockAlloc (some twoPages) 8192) where
  nonzero i _ := by simp [twoPages]
  inj i _ j _ h := by simpa [twoPages] using h
  new _ _ i hi := by rw [smallLoader_backedPages] at hi; omega

theorem smallLoader_blockAlloc {base : Nat}
    (h : ((smallLoader base).blockAlloc (some twoPages) 8192).map Prod.fst = some true) :
    (smallLoader base).blockAlloc (some twoPages) 8192 = some (true, smallGrown base) := by
  obtain ⟨⟨ok, k⟩, hr, hok⟩ := Option.map_eq_some_iff.mp h
  simp only at hok
  subst hok
  simp [smallGrown, hr]

theorem smallGrown_eq : (smallLoader 2).blockAlloc (some twoPages) 8192 = some (true, smallGrown 2) :=
  smallLoader_blockAlloc (by decide +kernel)

theorem smallLoader_apart : KeepsApart (smallLoader 2) (.blockAlloc (some twoPages) 8192) := by
  have h : (smallLoader 2).backedPages + (smallLoader 2).blockPages 8192 ≤ (smallLoader 2).windowBasePages := by
    decide +kernel
  exact h

theorem reverse_map_exact_smallGrown :
    ∃ p2m, (smallGrown 2).p2m = some p2m ∧
      (∀ i < (smallGrown 2).backedPages, (smallGrown 2).machineToPseudoPfn (p2m i) = some i) ∧
      ∀ mfn, (∀ i < (smallGrown 2).backedPages, p2m i ≠ mfn) → (smallGrown 2).machineToPseudoPfn mfn = none :=
  (reverse_map_exact (.next (.start (smallLoader_start 2))
    ⟨⟨smallLoader_fresh 2, smallLoader_apart⟩, .blockAlloc smallGrown_eq⟩)).1

def smallOverlapped : Kload := ((smallGrown 1).windowMap (some fun _ => 7) 3).k

/-- `kload_block_alloc` does not stop at the arena, and `co_kload_window_map` does not look at RAM: the window
takes the p2m entry of a backed page, whose frame is then no longer found. -/
theorem window_over_ram :
    LoaderReachable FreshHost smallOverlapped ∧ smallOverlapped.backedPages = 2 ∧
      (smallOverlapped.p2m.map fun p2m => p2m 1) = some 7 ∧ smallOverlapped.machineToPseudoPfn 7 = none := by
  have hgrow := @smallLoader_blockAlloc 1 (by decide +kernel)
  have hmap : FreshHost (smallGrown 1) (.windowMap (some fun _ => 7) 3) := trivial
  exact ⟨.next (.next (.start (smallLoader_start 1)) ⟨smallLoader_fresh 1, .blockAlloc hgrow⟩)
    ⟨hmap, .windowMap⟩, by decide +kernel, by decide +kernel, by decide +kernel⟩

end MoCoLinux.Kload
