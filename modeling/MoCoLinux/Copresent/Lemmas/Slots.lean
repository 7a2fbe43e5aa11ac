import MoCoLinux.Copresent.Channel

/-!
# The slots of the rings
-/

namespace MoCoLinux.Copresent

variable {g : Pages} {d d' : Dir} {p q k j : Nat}

namespace Pages

theorem addr_inj {o o' : Nat} (ho : o < regionPages * pageBytes) (ho' : o' < regionPages * pageBytes)
    (h : g.addr o = g.addr o') : o = o' := by
  have hapart := g.apart
  simp only [addr, pageBytes, regionPages] at *
  have hpage : o / 4096 = 0 ∨ o / 4096 = 1 := by omega
  have hpage' : o' / 4096 = 0 ∨ o' / 4096 = 1 := by omega
  rcases hpage with hp | hp <;> rcases hpage' with hp' | hp' <;> rw [hp, hp'] at h <;> omega

theorem slot_bounds (d : Dir) (p : Nat) :
    slotOffset d p + recordBytes ≤ regionPages * pageBytes ∧
      slotOffset d p % pageBytes + recordBytes ≤ pageBytes := by
  have hlt : p % ringSlots < ringSlots := Nat.mod_lt _ (by decide)
  simp only [slotOffset, ringSlots, recordBytes, regionPages, pageBytes] at *
  cases d <;> simp only [Dir.offset] <;> omega

theorem regionAt_slot (g : Pages) (d : Dir) (p : Nat) :
    g.regionAt (slotOffset d p) recordBytes = some (g.addr (slotOffset d p)) := by
  obtain ⟨hregion, hpage⟩ := slot_bounds d p
  rw [regionAt, if_neg]
  · rfl
  · simp only [recordBytes, regionPages, pageBytes] at *
    omega

theorem addr_word (g : Pages) (d : Dir) (p : Nat) (hk : k < 16) :
    g.addr (slotOffset d p) + 4 * k = g.cell d p k := by
  obtain ⟨-, hpage⟩ := slot_bounds d p
  rw [cell, addr, addr]
  have hdiv : (slotOffset d p + 4 * k) / pageBytes = slotOffset d p / pageBytes := by
    simp only [recordBytes, pageBytes] at *
    omega
  have hmod : (slotOffset d p + 4 * k) % pageBytes = slotOffset d p % pageBytes + 4 * k := by
    simp only [recordBytes, pageBytes] at *
    omega
  rw [hdiv, hmod, Nat.add_assoc]

theorem cell_inside (g : Pages) (d : Dir) (p : Nat) (hk : k < 16) : g.Inside (g.cell d p k) := by
  obtain ⟨hregion, hpage⟩ := slot_bounds d p
  refine ⟨(slotOffset d p + 4 * k) / pageBytes, ?_, ?_, ?_⟩
  · simp only [recordBytes, regionPages, pageBytes] at *
    omega
  · rw [cell, addr]
    exact Nat.le_add_right _ _
  · rw [cell, addr]
    simp only [recordBytes, pageBytes] at *
    omega

theorem cell_lt (d : Dir) (p : Nat) (hk : k < 16) : slotOffset d p + 4 * k < regionPages * pageBytes := by
  have := (slot_bounds d p).1
  simp only [recordBytes] at this
  omega

theorem cell_ne (g : Pages) (d : Dir) (hk : k < 16) (hj : j < 16) (h : p % ringSlots ≠ q % ringSlots ∨ k ≠ j) :
    g.cell d p k ≠ g.cell d q j := by
  intro heq
  have hoff := addr_inj (cell_lt d p hk) (cell_lt d q hj) heq
  simp only [slotOffset, recordBytes] at hoff
  omega

theorem cell_ne_other (g : Pages) (hd : d ≠ d') (p q : Nat) (hk : k < 16) (hj : j < 16) :
    g.cell d p k ≠ g.cell d' q j := by
  intro heq
  have hoff := addr_inj (cell_lt d p hk) (cell_lt d' q hj) heq
  have hp : p % ringSlots < ringSlots := Nat.mod_lt _ (by decide)
  have hq : q % ringSlots < ringSlots := Nat.mod_lt _ (by decide)
  simp only [slotOffset, recordBytes, ringSlots] at *
  cases d <;> cases d' <;> simp only [Dir.offset, ne_eq, not_true_eq_false] at hd hoff <;> omega

end Pages

theorem slotOffset_u32 (d : Dir) (p : Nat) : slotOffset d (u32 p) = slotOffset d p := by
  rw [slotOffset, slotOffset, show u32 p % ringSlots = p % ringSlots from Ring.index_cell (by decide) p]

theorem u32_succ (n : Nat) : u32 (u32 n + 1) = u32 (n + 1) := Nat.mod_add_mod n (2 ^ 32) 1

def Filled (g : Pages) (mem : Nat → Nat) (d : Dir) (p : Nat) (r : Record) (n : Nat) : Prop :=
  ∀ k < n, mem (g.cell d p k) = r.words.getD k 0

/-- `into` is all that was ever put into the ring and `out` all that was taken. The slots between hold the rest. -/
structure Holds (g : Pages) (mem : Nat → Nat) (d : Dir) (head tail : Nat) (into out : List Record) : Prop where
  head : head = u32 into.length
  tail : tail = u32 out.length
  order : out <+: into
  fits : into.length ≤ out.length + ringSlots
  slots : ∀ p r, out.length ≤ p → into[p]? = some r → Filled g mem d p r 16

namespace Holds

variable {mem mem' : Nat → Nat} {head tail n v : Nat} {into out : List Record} {r : Record}

variable (h : Holds g mem d head tail into out)
include h

theorem out_le : out.length ≤ into.length := h.order.length_le

theorem congr
    (hmem : ∀ p, ∀ k < 16, mem' (g.cell d p k) = mem (g.cell d p k)) : Holds g mem' d head tail into out :=
  { h with slots := fun p r hp hr k hk => (hmem p k hk).trans (h.slots p r hp hr k hk) }

theorem store (hroom : into.length < out.length + ringSlots) (hn : n < 16) :
    Holds g (Function.update mem (g.cell d into.length n) v) d head tail into out := by
  refine { h with slots := fun p r hp hr k hk => ?_ }
  have hlt : p < into.length := (List.getElem?_eq_some_iff.mp hr).1
  rw [Function.update_of_ne (g.cell_ne d hk hn (.inl (Ring.cell_ne hlt (by omega))))]
  exact h.slots p r hp hr k hk

theorem publish (hroom : into.length < out.length + ringSlots)
    (hfilled : Filled g mem d into.length r 16) :
    Holds g mem d (u32 (head + 1)) tail (into ++ [r]) out := by
  have hlen : (into ++ [r]).length = into.length + 1 := by simp
  refine { h with head := ?_, order := h.order.trans (List.prefix_append _ _), fits := ?_, slots := ?_ }
  · rw [h.head, u32_succ, hlen]
  · rw [hlen]
    exact hroom
  · intro p r' hp hr'
    rcases Nat.lt_trichotomy p into.length with hlt | rfl | hgt
    · rw [List.getElem?_append_left hlt] at hr'
      exact h.slots p r' hp hr'
    · rw [List.getElem?_concat_length] at hr'
      cases hr'
      exact hfilled
    · rw [List.getElem?_eq_none (by rw [hlen]; omega)] at hr'
      cases hr'

theorem take (hr : into[out.length]? = some r) :
    Holds g mem d head (u32 (tail + 1)) into (out ++ [r]) := by
  have hlen : (out ++ [r]).length = out.length + 1 := by simp
  have hfits := h.fits
  refine { h with tail := ?_, order := ?_, fits := ?_, slots := fun p r' hp hr' => ?_ }
  · rw [h.tail, u32_succ, hlen]
  · obtain ⟨rest, rfl⟩ := h.order
    cases rest with
    | nil => simp at hr
    | cons b rest =>
      simp only [List.getElem?_append_right (Nat.le_refl _), Nat.sub_self, List.getElem?_cons_zero,
        Option.some.injEq] at hr
      exact ⟨rest, by simp [hr]⟩
  · rw [hlen]
    omega
  · rw [hlen] at hp
    exact h.slots p r' (by omega) hr'

end Holds

end MoCoLinux.Copresent
