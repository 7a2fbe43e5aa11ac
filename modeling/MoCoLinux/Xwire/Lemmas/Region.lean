import MoCoLinux.Xwire.Channel

/-!
# Where the bytes of the region are
-/

namespace MoCoLinux.Xwire

variable {r : Region} {d d' : Dir} {off p run i q q' : Nat}

theorem Dir.other_other (d : Dir) : d.other.other = d := by cases d <;> rfl

theorem Dir.other_ne (d : Dir) : d.other ≠ d := by cases d <;> decide

theorem Dir.eq_or_other (d d' : Dir) : d' = d ∨ d' = d.other := by cases d <;> cases d' <;> decide

theorem Side.fills_other (side : Side) : side.fills.other = side.empties := by cases side <;> rfl

theorem Side.empties_other (side : Side) : side.empties.other = side.fills := by cases side <;> rfl

theorem Side.other_fills (side : Side) : side.other.fills = side.empties := by cases side <;> rfl

theorem Side.other_empties (side : Side) : side.other.empties = side.fills := by cases side <;> rfl

theorem Side.eq_or_other (side t : Side) : t = side ∨ t = side.other := by cases side <;> cases t <;> decide

theorem buildRuns_addr (page : Nat → Nat) (left : Nat) : ∀ i j, j < buildRuns page left i →
    page i + j = page (i + j / pageBytes) + j % pageBytes := by
  have hfirst : ∀ i j, j < pageBytes → page i + j = page (i + j / pageBytes) + j % pageBytes := by
    intro i j hj
    rw [Nat.div_eq_of_lt hj, Nat.mod_eq_of_lt hj, Nat.add_zero]
  induction left with
  | zero => exact hfirst
  | succ left ih =>
    intro i j hj
    rw [buildRuns] at hj
    by_cases hlt : j < pageBytes
    · exact hfirst i j hlt
    -- The byte is in a later page, so the two pages are adjacent.
    · split at hj
      case isFalse => exact absurd hj hlt
      case isTrue hnext =>
        have hrest := ih (i + 1) (j - pageBytes) (by omega)
        have hdiv : i + 1 + (j - pageBytes) / pageBytes = i + j / pageBytes := by
          simp only [pageBytes] at hlt ⊢
          omega
        have hmod : (j - pageBytes) % pageBytes = j % pageBytes := by
          simp only [pageBytes] at hlt ⊢
          omega
        rw [hdiv, hmod] at hrest
        omega

theorem buildRuns_le (page : Nat → Nat) (left i : Nat) : buildRuns page left i ≤ (left + 1) * pageBytes := by
  induction left generalizing i with
  | zero => simp [buildRuns]
  | succ left ih =>
    have hrest := ih (i + 1)
    rw [buildRuns, Nat.add_mul (left + 1)]
    split <;> omega

theorem le_buildRuns (page : Nat → Nat) (left i : Nat) : pageBytes ≤ buildRuns page left i := by
  cases left with
  | zero => exact Nat.le_refl _
  | succ left =>
    rw [buildRuns]
    split <;> omega

namespace Chan

variable {c : Chan} {k : Nat}

theorem runlen_eq (c : Chan) (i : Nat) : c.runlen i = buildRuns c.page (c.npages - 1 - i) i := by
  refine Nat.mod_eq_of_lt ?_
  have hle := buildRuns_le c.page (c.npages - 1 - i) i
  have hbound : c.npages ≤ 2100 := c.bound
  have hpos := c.pos
  simp only [pageBytes] at hle
  omega

theorem hostAt_addr (h : c.hostAt off = some (p, run)) (hk : k < run) : c.addr (off + k) = some (p + k) := by
  rw [hostAt] at h
  split at h
  · cases h
  · rename_i hpage
    cases h
    have hle := buildRuns_le c.page (c.npages - 1 - off / pageBytes) (off / pageBytes)
    have hge := le_buildRuns c.page (c.npages - 1 - off / pageBytes) (off / pageBytes)
    have hbound : c.npages ≤ 2100 := c.bound
    have hin : off % pageBytes + k < buildRuns c.page (c.npages - 1 - off / pageBytes) (off / pageBytes) := by
      rw [runlen_eq, u32Sub] at hk
      simp only [pageBytes] at hk hle hge hpage ⊢
      omega
    have haddr := buildRuns_addr c.page _ _ _ hin
    have hdiv : off / pageBytes + (off % pageBytes + k) / pageBytes = (off + k) / pageBytes := by
      simp only [pageBytes]
      omega
    have hmod : (off % pageBytes + k) % pageBytes = (off + k) % pageBytes := by
      simp only [pageBytes]
      omega
    have hlast : (off + k) / pageBytes < c.npages := by
      simp only [pageBytes] at hin hle hpage ⊢
      omega
    rw [hdiv, hmod] at haddr
    rw [addr, if_pos hlast, ← haddr, Nat.add_assoc]

end Chan

namespace Region

theorem hostAt_addr (h : r.chan.hostAt off = some (p, run)) (hi : i < run) : p + i = r.addr (off + i) := by
  have haddr := Chan.hostAt_addr h hi
  rw [Chan.addr] at haddr
  split at haddr
  · exact (Option.some.inj haddr).symm
  · cases haddr

theorem ring_page_lt (d : Dir) (h : i < ringBytes) : (d.off + i) / pageBytes < regionPages := by
  cases d <;> simp only [Dir.off, pageBytes, ringBytes, regionPages] at h ⊢ <;> omega

theorem hostAt_ring (r : Region) (d : Dir) (h : i < ringBytes) :
    ∃ p run, r.host.chan.hostAt (d.off + i) = some (p, run) :=
  ⟨_, _, if_neg (Nat.not_le.mpr (ring_page_lt d h))⟩

theorem addr_inj {off off' : Nat} (h : off / pageBytes < regionPages) (h' : off' / pageBytes < regionPages)
    (heq : r.addr off = r.addr off') : off = off' := by
  have hpos : 0 < pageBytes := by decide
  have hoff := Nat.mod_lt off hpos
  have hoff' := Nat.mod_lt off' hpos
  rw [addr, addr] at heq
  by_cases hpage : off / pageBytes = off' / pageBytes
  · rw [hpage] at heq
    rw [← Nat.div_add_mod off pageBytes, ← Nat.div_add_mod off' pageBytes, hpage]
    omega
  · have := r.apart _ h _ h' hpage
    omega

theorem cell_ne_other (r : Region) (h : d ≠ d') (q q' : Nat) : r.cell d.off q ≠ r.cell d'.off q' := by
  have hpos : 0 < ringBytes := by decide
  have hq := Nat.mod_lt q hpos
  have hq' := Nat.mod_lt q' hpos
  intro heq
  have hoff := addr_inj (ring_page_lt d hq) (ring_page_lt d' hq') heq
  cases d <;> cases d' <;> simp only [Dir.off, ne_eq, not_true_eq_false, pageBytes, ringBytes] at h hoff hq hq' <;>
    omega

theorem cell_ne (r : Region) (d : Dir) (hlt : q < q') (hlap : q' < q + ringBytes) :
    r.cell d.off q ≠ r.cell d.off q' := by
  have hpos : 0 < ringBytes := by decide
  intro heq
  have hoff := addr_inj (ring_page_lt d (Nat.mod_lt q hpos)) (ring_page_lt d (Nat.mod_lt q' hpos)) heq
  exact Ring.cell_ne hlt hlap (by omega)

theorem guest_cell (r : Region) (d : Dir) (h : i < ringBytes - q % ringBytes) :
    r.addr (d.off + q % ringBytes + i) = r.cell d.off (q + i) := by
  rw [cell, Ring.cell_add (by omega), Nat.add_assoc]

theorem host_cell (h : r.chan.hostAt (d.off + q % ringBytes) = some (p, run)) (hi : i < run)
    (hwrap : i < ringBytes - q % ringBytes) : p + i = r.cell d.off (q + i) := by
  rw [hostAt_addr h hi, guest_cell r d hwrap]

end Region

theorem ullong_cell (n : Nat) : ullong n % ringBytes = n % ringBytes := Ring.index_cell (by decide) n

theorem ullong_add (m n : Nat) : ullong (ullong m + n) = ullong (m + n) := Nat.mod_add_mod m (2 ^ 64) n

theorem counter_sub {h t : Nat} (hle : t ≤ h) (hring : h ≤ t + ringBytes) :
    u32 (ullongSub (ullong h) (ullong t)) = h - t := by
  have hdist : ullongSub (ullong h) (ullong t) = h - t := Ring.index_sub hle (by simp only [ringBytes] at hring; omega)
  rw [hdist]
  exact Nat.mod_eq_of_lt (by simp only [ringBytes] at hring; omega)

theorem space_eq {h t : Nat} (hle : t ≤ h) (hring : h ≤ t + ringBytes) :
    space (ullong h) (ullong t) = t + ringBytes - h := by
  rw [space, counter_sub hle hring, u32Sub]
  simp only [ringBytes] at hring ⊢
  omega

end MoCoLinux.Xwire
