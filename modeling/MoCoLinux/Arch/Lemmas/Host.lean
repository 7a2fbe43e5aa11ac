import MoCoLinux.Arch.Space

/-!
# What a walk does to the host's state
-/

namespace MoCoLinux.Arch

variable {τ : Type}

structure SpaceHost.Respects (h : SpaceHost τ) (R : τ → τ → Prop) : Prop where
  refl : ∀ t, R t t
  trans : ∀ {t t' t''}, R t t' → R t' t'' → R t t''
  newTable : ∀ t m, R t (newTable h t m).2.1
  map : ∀ t pfn, R t (h.map t pfn).2
  putPage : ∀ t pfn, R t (h.putPage t pfn)

namespace SpaceHost.Respects

variable {h : SpaceHost τ} {R : τ → τ → Prop}

theorem guestMapLevel (r : h.Respects R) (va pa flags left : Nat) :
    ∀ pfn space t m, R t (guestMapLevel h va pa flags left pfn space t m).2.2.1 := by
  induction left with
  | zero =>
    intro pfn space t m
    have hmap := r.map t pfn
    rw [Arch.guestMapLevel]
    split <;> next he => rw [he] at hmap; exact hmap
  | succ left ih =>
    intro pfn space t m
    have hmap := r.map t pfn
    rw [Arch.guestMapLevel]
    dsimp only
    split
    next t₁ he => rw [he] at hmap; exact hmap
    next t₁ he =>
      rw [he] at hmap
      split
      · split
        · exact hmap
        · exact r.trans hmap (ih _ _ _ _)
      · have hnew := r.newTable t₁ m
        split
        next rc t₂ m₂ he₂ => rw [he₂] at hnew; exact r.trans hmap hnew
        next next t₂ m₂ he₂ =>
          rw [he₂] at hnew
          have hmap₂ := r.map t₂ pfn
          split
          next t₃ he₃ =>
            rw [he₃] at hmap₂
            exact r.trans hmap (r.trans hnew (r.trans hmap₂ (r.putPage t₃ next)))
          next t₃ he₃ =>
            rw [he₃] at hmap₂
            have hto := r.trans hmap (r.trans hnew hmap₂)
            split
            · exact r.trans hto (r.trans (r.putPage t₃ next) (ih _ _ _ _))
            · exact r.trans hto (ih _ _ _ _)

theorem guestMap (r : h.Respects R) (space : GuestSpace) (va pa flags : Nat) (t : τ) (m : Mem) :
    R t (guestMap h space va pa flags t m).2.2.1 := by
  rw [Arch.guestMap]
  split
  · exact r.guestMapLevel va pa flags 3 _ _ _ _
  · exact r.refl t

theorem guestLookupLevel (r : h.Respects R) (va left : Nat) :
    ∀ pfn t m, R t (guestLookupLevel h va left pfn t m).2 := by
  induction left with
  | zero =>
    intro pfn t m
    have hmap := r.map t pfn
    rw [Arch.guestLookupLevel]
    split
    next he => rw [he] at hmap; exact hmap
    next he => rw [he] at hmap; dsimp only; split <;> exact hmap
  | succ left ih =>
    intro pfn t m
    have hmap := r.map t pfn
    rw [Arch.guestLookupLevel]
    split
    next he => rw [he] at hmap; exact hmap
    next he =>
      rw [he] at hmap
      dsimp only
      split
      · split
        · exact hmap
        · exact r.trans hmap (ih _ _ _)
      · exact hmap

theorem guestLookup (r : h.Respects R) (space : GuestSpace) (va : Nat) (t : τ) (m : Mem) :
    R t (guestLookup h space va t m).2 := by
  rw [Arch.guestLookup, guestLookupRoot]
  split
  · exact r.guestLookupLevel va 3 _ _ _
  · exact r.refl t

theorem guestSpaceCreate (r : h.Respects R) (mallocOk : Bool) (t : τ) (m : Mem) :
    R t (guestSpaceCreate h mallocOk t m).2.1 := by
  have hnew := r.newTable t m
  rw [Arch.guestSpaceCreate]
  split
  · split <;> next he => rw [he] at hnew; exact hnew
  · exact r.refl t

end SpaceHost.Respects

end MoCoLinux.Arch
