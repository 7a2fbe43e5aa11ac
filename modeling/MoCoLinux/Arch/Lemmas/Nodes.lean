import Mathlib.Algebra.BigOperators.Group.Finset.Basic
import Mathlib.Order.Interval.Finset.Nat
import MoCoLinux.Arch.Lemmas.Walk

/-!
# The tables on the way to a set of pages
-/

namespace MoCoLinux.Arch

def nodeAt : Nat → Nat → List Nat
  | 0, _ => []
  | level + 1, x => x % 512 :: nodeAt level (x / 512)

theorem length_nodeAt (level x : Nat) : (nodeAt level x).length = level := by
  induction level generalizing x with
  | zero => rfl
  | succ level ih => simp [nodeAt, ih]

theorem nodeAt_inj (level : Nat) : ∀ {x y}, x / 512 ^ level = y / 512 ^ level → nodeAt level x = nodeAt level y →
    x = y := by
  induction level with
  | zero => intro x y h _; simpa using h
  | succ level ih =>
    intro x y h he
    rw [nodeAt, nodeAt, List.cons.injEq] at he
    have hrest : x / 512 = y / 512 := by
      refine ih ?_ he.2
      rwa [Nat.div_div_eq_div_mul, Nat.div_div_eq_div_mul, ← Nat.pow_succ']
    omega

def leading (va level : Nat) : Nat := va / 2 ^ (39 - 9 * level)

theorem pathTo_eq_nodeAt (va : Nat) {level : Nat} (h : level < 3) :
    pathTo va (level + 1) = nodeAt (level + 1) (leading va level) := by
  obtain rfl | rfl | rfl : level = 0 ∨ level = 1 ∨ level = 2 := by omega
  all_goals
    simp only [pathTo, spaceIndex, nodeAt, leading, pgdIndex_eq, pudIndex_eq, pmdIndex_eq,
      Nat.div_div_eq_div_mul, Nat.reduceMul, Nat.reduceSub, Nat.reducePow]

theorem pathTo_page (va : Nat) {level : Nat} (h : level < 3) :
    pathTo (va / 4096 * 4096) (level + 1) = pathTo va (level + 1) := by
  rw [pathTo_eq_nodeAt _ h, pathTo_eq_nodeAt _ h, leading, leading]
  obtain rfl | rfl | rfl : level = 0 ∨ level = 1 ∨ level = 2 := by omega
  all_goals
    congr 1
    simp only [Nat.reduceMul, Nat.reduceSub, Nat.reducePow]
    omega

def leadings (ranges : List (Nat × Nat)) (level : Nat) : Finset Nat :=
  ranges.toFinset.biUnion fun r => Finset.Icc (leading r.1 level) (leading r.2 level)

def rangeNodes (ranges : List (Nat × Nat)) : Finset (List Nat) :=
  insert [] ((Finset.range 3).biUnion fun level => (leadings ranges level).image (nodeAt (level + 1)))

variable {ranges : List (Nat × Nat)} {r : Nat × Nat} {va level : Nat}

theorem leading_mono {a b : Nat} (h : a ≤ b) (level : Nat) : leading a level ≤ leading b level :=
  Nat.div_le_div_right h

theorem mem_rangeNodes (hr : r ∈ ranges) (h1 : r.1 ≤ va) (h2 : va ≤ r.2) (hl : level < 3) :
    pathTo va (level + 1) ∈ rangeNodes ranges := by
  rw [pathTo_eq_nodeAt va hl]
  refine Finset.mem_insert_of_mem (Finset.mem_biUnion.mpr ⟨level, Finset.mem_range.mpr hl, ?_⟩)
  refine Finset.mem_image_of_mem _ (Finset.mem_biUnion.mpr ⟨r, List.mem_toFinset.mpr hr, ?_⟩)
  exact Finset.mem_Icc.mpr ⟨leading_mono h1 level, leading_mono h2 level⟩

theorem rangeNodes_subset {N : Finset (List Nat)} (h0 : [] ∈ N) (hle : ∀ r ∈ ranges, r.1 ≤ r.2)
    (h : ∀ r ∈ ranges, ∀ va, r.1 ≤ va → va ≤ r.2 → ∀ level < 3, pathTo va (level + 1) ∈ N) :
    rangeNodes ranges ⊆ N := by
  intro p hp
  rcases Finset.mem_insert.mp hp with rfl | hp
  · exact h0
  obtain ⟨level, hl, hp⟩ := Finset.mem_biUnion.mp hp
  obtain ⟨x, hx, rfl⟩ := Finset.mem_image.mp hp
  obtain ⟨r, hr, hx⟩ := Finset.mem_biUnion.mp hx
  have hl := Finset.mem_range.mp hl
  obtain ⟨hx1, hx2⟩ := Finset.mem_Icc.mp hx
  -- the first address of the range with these leading bits
  have hpos : 0 < 2 ^ (39 - 9 * level) := Nat.two_pow_pos _
  have hva : leading (max r.1 (x * 2 ^ (39 - 9 * level))) level = x := by
    have hself : x * 2 ^ (39 - 9 * level) / 2 ^ (39 - 9 * level) = x := Nat.mul_div_cancel _ hpos
    rcases Nat.le_total r.1 (x * 2 ^ (39 - 9 * level)) with hle' | hle'
    · rw [Nat.max_eq_right hle', leading, hself]
    · rw [Nat.max_eq_left hle']
      refine Nat.le_antisymm hx1 ?_
      rw [leading, ← hself]
      exact Nat.div_le_div_right hle'
  rw [← hva, ← pathTo_eq_nodeAt _ hl]
  refine h r (List.mem_toFinset.mp hr) _ (Nat.le_max_left _ _) (Nat.max_le.mpr ⟨hle r (List.mem_toFinset.mp hr), ?_⟩)
    level hl
  calc x * 2 ^ (39 - 9 * level) ≤ leading r.2 level * 2 ^ (39 - 9 * level) := Nat.mul_le_mul_right _ hx2
    _ ≤ r.2 := Nat.div_mul_le_self _ _

theorem leadings_cons (r : Nat × Nat) (ranges : List (Nat × Nat)) (level : Nat) : leadings (r :: ranges) level =
    Finset.Icc (leading r.1 level) (leading r.2 level) ∪ leadings ranges level := by
  rw [leadings, List.toFinset_cons, Finset.biUnion_insert, leadings]

theorem card_leadings_le (ranges : List (Nat × Nat)) (level : Nat) :
    (leadings ranges level).card ≤ (ranges.map fun r => leading r.2 level + 1 - leading r.1 level).sum := by
  induction ranges with
  | nil => exact le_refl _
  | cons r ranges ih =>
    rw [leadings_cons, List.map_cons, List.sum_cons]
    refine (Finset.card_union_le _ _).trans ?_
    rw [Nat.card_Icc]
    exact Nat.add_le_add_left ih _

theorem card_leadings (h : ranges.Pairwise fun r r' => leading r.2 level < leading r'.1 level) :
    (leadings ranges level).card = (ranges.map fun r => leading r.2 level + 1 - leading r.1 level).sum := by
  induction ranges with
  | nil => rfl
  | cons r ranges ih =>
    obtain ⟨hr, hrest⟩ := List.pairwise_cons.mp h
    rw [leadings_cons, Finset.card_union_of_disjoint, Nat.card_Icc, ih hrest, List.map_cons, List.sum_cons]
    refine Finset.disjoint_left.mpr fun x hx hx' => ?_
    obtain ⟨r', hr', hx'⟩ := Finset.mem_biUnion.mp hx'
    have hlt := hr r' (List.mem_toFinset.mp hr')
    rw [Finset.mem_Icc] at hx hx'
    omega

theorem card_rangeNodes (h : ∀ r ∈ ranges, 2 ^ 64 - 2 ^ 48 ≤ r.1 ∧ r.2 < 2 ^ 64) :
    (rangeNodes ranges).card = 1 + ∑ level ∈ Finset.range 3, (leadings ranges level).card := by
  have htop : ∀ level < 3, ∀ x ∈ leadings ranges level, x / 512 ^ (level + 1) = 2 ^ 16 - 1 := by
    intro level hl x hx
    obtain ⟨r, hr, hx⟩ := Finset.mem_biUnion.mp hx
    obtain ⟨h1, h2⟩ := h r (List.mem_toFinset.mp hr)
    obtain ⟨hx1, hx2⟩ := Finset.mem_Icc.mp hx
    rw [leading] at hx1 hx2
    obtain rfl | rfl | rfl : level = 0 ∨ level = 1 ∨ level = 2 := by omega
    all_goals
      simp only [Nat.reduceMul, Nat.reduceSub, Nat.reduceAdd, Nat.reducePow] at h1 h2 hx1 hx2 ⊢
      omega
  rw [rangeNodes, Finset.card_insert_of_notMem, Finset.card_biUnion, Nat.add_comm]
  · refine congrArg (1 + ·) (Finset.sum_congr rfl fun level hl => Finset.card_image_of_injOn ?_)
    intro x hx y hy he
    have hl := Finset.mem_range.mp hl
    exact nodeAt_inj _ ((htop level hl x hx).trans (htop level hl y hy).symm) he
  · intro i _ j _ hij
    refine Finset.disjoint_left.mpr fun p hp hq => hij ?_
    obtain ⟨x, -, rfl⟩ := Finset.mem_image.mp hp
    obtain ⟨y, -, he⟩ := Finset.mem_image.mp hq
    have := congrArg List.length he
    rw [length_nodeAt, length_nodeAt] at this
    omega
  · intro hp
    obtain ⟨level, -, hp⟩ := Finset.mem_biUnion.mp hp
    obtain ⟨x, -, he⟩ := Finset.mem_image.mp hp
    have := congrArg List.length he
    rw [length_nodeAt] at this
    simp at this

end MoCoLinux.Arch
