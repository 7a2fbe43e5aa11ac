import MoCoLinux.Arch.Lemmas.Walk

/-!
# How many tables a map takes
-/

namespace MoCoLinux.Arch

open RadixTree (Shape)

variable {τ : Type} {h : SpaceHost τ} {F : FrameSource h}

/-- The source fails only when no table is left, and then says so; every table in use can be mapped. -/
structure Budget (F : FrameSource h) where
  left : τ → Nat
  failed : τ → Prop
  map_ok : ∀ {t q}, F.Inv t → F.used t q → (h.map t q).1 = true
  map_left : ∀ t q, left (h.map t q).2 = left t
  map_failed : ∀ t q, failed (h.map t q).2 ↔ failed t
  newTable_ok : ∀ {t m pfn t' m'}, F.Inv t → newTable h t m = (.ok pfn, t', m') →
    left t = left t' + 1 ∧ (failed t' ↔ failed t)
  newTable_error : ∀ {t m rc t' m'}, F.Inv t → newTable h t m = (.error rc, t', m') →
    left t = 0 ∧ left t' = 0 ∧ failed t'

/-- A map ends well, or the source ran out before the tree had all the tables in `R`. -/
structure Counted (B : Budget F) (R : Finset (List Nat)) (space : GuestSpace) (t : τ)
    (r : Rc × GuestSpace × τ × Mem) : Prop where
  total : B.left r.2.2.1 + r.2.1.tables = B.left t + space.tables
  outcome : r.1 = .ok ∧ (B.failed r.2.2.1 ↔ B.failed t) ∨
    r.1 ≠ .ok ∧ B.failed r.2.2.1 ∧ B.left r.2.2.1 = 0 ∧ r.2.1.tables < R.card

variable {B : Budget F} {R : Finset (List Nat)} {space : GuestSpace} {t : τ} {m : Mem} {S : Shape Nat Nat}
variable {va pa flags : Nat}

theorem Counted.congr {t' r} (C : Counted B R space t' r) (hl : B.left t' = B.left t)
    (hf : B.failed t' ↔ B.failed t) : Counted B R space t r where
  total := by rw [C.total, hl]
  outcome := by rw [← hf]; exact C.outcome

theorem guestMapLevel_counted (hpath : ∀ level < 3, pathTo va (level + 1) ∈ R) (left : Nat) :
    ∀ level {space t m S}, Tree F space t m S → S.nodes ⊆ R → left + level = 3 → pathTo va level ∈ S.nodes →
      Counted B R space t (guestMapLevel h va pa flags left (S.addr (pathTo va level)) space t m) := by
  induction left with
  | zero =>
    intro level space t m S T hR hl hp
    have hok := B.map_ok T.inv (T.used _ hp)
    have hleft := B.map_left t (S.addr (pathTo va level))
    have hfailed := B.map_failed t (S.addr (pathTo va level))
    rw [guestMapLevel]
    revert hok hleft hfailed
    rcases h.map t (S.addr (pathTo va level)) with ⟨_ | _, t₁⟩
    · intro hok
      cases hok
    · intro _ hleft hfailed
      exact ⟨by rw [← hleft], Or.inl ⟨rfl, hfailed⟩⟩
  | succ left ih =>
    intro level space t m S T hR hl hp
    have T₁ := T.map (S.addr (pathTo va level))
    have hok := B.map_ok T.inv (T.used _ hp)
    have hleft := B.map_left t (S.addr (pathTo va level))
    have hfailed := B.map_failed t (S.addr (pathTo va level))
    by_cases hc : pathTo va (level + 1) ∈ S.nodes
    · rw [guestMapLevel_present T hl hp hc, if_pos hok]
      exact (ih _ T₁ hR (by omega) hc).congr hleft hfailed
    · rw [guestMapLevel_absent T hl hp hc, if_pos hok]
      rcases hnew : newTable h (h.map t (S.addr (pathTo va level))).2 m with ⟨rc | next, t₂, m₂⟩
      · obtain ⟨hnone, hnone', hfail⟩ := B.newTable_error T₁.inv hnew
        have hmore : S.nodes.card < R.card := Finset.card_lt_card
          ⟨hR, fun hcon => hc (hcon (hpath level (by omega)))⟩
        refine ⟨by dsimp only; omega, Or.inr ⟨(F.newTable_error T₁.inv hnew).2.1, hfail, hnone', ?_⟩⟩
        rw [T.tables]
        exact hmore
      · obtain ⟨hspent, hsame⟩ := B.newTable_ok T₁.inv hnew
        obtain ⟨-, T₂⟩ := T₁.link hp (by simp; omega) hc hnew
        obtain ⟨hinv, -, -, -, -, hkeep⟩ := F.newTable_ok T₁.inv hnew
        have hok₂ := B.map_ok hinv (hkeep _ (T₁.used _ hp)).1
        have hR₂ : (S.insert (pathTo va (level + 1)) next).nodes ⊆ R := fun p hq => by
          rcases Shape.mem_insert_nodes.mp hq with rfl | hq
          · exact hpath level (by omega)
          · exact hR hq
        have C := ih (level + 1) (T₂.map (S.addr (pathTo va level))) hR₂ (by omega) (by simp [pathTo])
        rw [pathTo, Shape.insert_addr_self] at C
        dsimp only
        rw [if_pos hok₂]
        have htotal := C.total
        have hout := C.outcome
        rw [B.map_left] at htotal
        rw [B.map_failed, hsame, hfailed] at hout
        exact ⟨by rw [htotal, ← hleft, hspent]; dsimp only; omega, hout⟩

theorem guestMap_counted (T : Tree F space t m S) (hR : S.nodes ⊆ R) (hva : vaCanonical va = true)
    (hpath : ∀ level < 3, pathTo va (level + 1) ∈ R) :
    Counted B R space t (guestMap h space va pa flags t m) := by
  have hwalk : Counted B R space t (guestMapLevel h va pa flags 3 (S.addr (pathTo va 0)) space t m) :=
    guestMapLevel_counted hpath 3 0 T hR rfl T.rep.root_mem
  rw [pathTo, T.rep.root_addr] at hwalk
  rwa [guestMap, if_pos hva]

theorem guestSpaceCreate_counted (hinv : F.Inv t) (hleft : 0 < B.left t) (m : Mem) :
    ∃ space t' m', guestSpaceCreate h true t m = (.ok space, t', m') ∧ B.left t' + space.tables = B.left t ∧
      (B.failed t' ↔ B.failed t) := by
  rcases hnew : newTable h t m with ⟨rc | pfn, t₁, m₁⟩
  · have := (B.newTable_error hinv hnew).1
    omega
  · obtain ⟨hspent, hsame⟩ := B.newTable_ok hinv hnew
    refine ⟨⟨pfn, 1⟩, t₁, m₁, ?_, hspent.symm, hsame⟩
    simp only [guestSpaceCreate, hnew, if_true]

end MoCoLinux.Arch
