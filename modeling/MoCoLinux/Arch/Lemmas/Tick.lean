import MoCoLinux.Arch.Lemmas.Entry
import MoCoLinux.Arch.Tick

/-!
# Transfers through the guest's tables
-/

namespace MoCoLinux.Arch.Tick

variable {b b' b₁ : Bytes} {c : Call} {root va k : Nat}

theorem spaceIndex_page {va va' : Nat} (h : va / 4096 = va' / 4096) (level : Nat) :
    spaceIndex va level = spaceIndex va' level := by
  unfold spaceIndex
  split <;> simp only [pgdIndex_eq, pudIndex_eq, pmdIndex_eq, pteIndex_eq] <;> omega

theorem vaCanonical_page {va va' : Nat} (h : va / 4096 = va' / 4096) : vaCanonical va = vaCanonical va' := by
  rw [Bool.eq_iff_iff, vaCanonical_iff, vaCanonical_iff]
  omega

theorem walk_page (m : Mem) {va va' : Nat} (h : va / 4096 = va' / 4096) (left pfn : Nat) :
    walk m va left pfn = walk m va' left pfn := by
  induction left generalizing pfn with
  | zero => simp only [walk, spaceIndex_page h]
  | succ left ih => simp only [walk, spaceIndex_page h, ih, pageSize, h]

theorem Bytes.translate_page (b : Bytes) (root : Nat) {va va' : Nat} (h : va / 4096 = va' / 4096) :
    b.translate root va = b.translate root va' := by
  rw [translate, translate, vaCanonical_page h, walk_page _ h]

theorem walk_congr {m m' : Mem} {left pfn : Nat} (h : ∀ q ∈ walkTables m va left pfn, m' q = m q) :
    walk m' va left pfn = walk m va left pfn ∧ walkTables m' va left pfn = walkTables m va left pfn ∧
      guestLookupLevel lookupHost va left pfn () m' = guestLookupLevel lookupHost va left pfn () m := by
  induction left generalizing pfn with
  | zero =>
    have hq : m' pfn = m pfn := h pfn (by simp [walkTables])
    simp only [walk, walkTables, guestLookupLevel, lookupHost, hq, and_self]
  | succ left ih =>
    have hq : m' pfn = m pfn := h pfn (by simp [walkTables])
    obtain ⟨e, he⟩ : ∃ e, e = m pfn (spaceIndex va (2 - left)) := ⟨_, rfl⟩
    simp only [walk, walkTables, guestLookupLevel, lookupHost, hq, ← he]
    by_cases hinner : isPresent e = true ∧ isLarge e = false
    · have hbelow : ∀ q ∈ walkTables m va left (entryPfn e), m' q = m q := fun q hmem =>
        h q (by simp [walkTables, ← he, hinner, hmem])
      simpa [hinner, lookupHost] using ih hbelow
    · cases hp : isPresent e <;> simp_all

def SameTables (root : Nat) (b b' : Bytes) (va : Nat) : Prop := ∀ q ∈ b.tables root va, b' q = b q

theorem Bytes.mem_congr {q : Nat} (h : b' q = b q) : b'.mem q = b.mem q := by
  funext i
  simp only [mem, read, h]

namespace SameTables

theorem translate (h : SameTables root b b' va) : b'.translate root va = b.translate root va := by
  rw [Bytes.translate, Bytes.translate]
  split
  · next hva =>
      refine (walk_congr fun q hq => Bytes.mem_congr (h q ?_)).1
      rw [Bytes.tables, if_pos hva]
      exact hq
  · rfl

theorem tables (h : SameTables root b b' va) : b'.tables root va = b.tables root va := by
  rw [Bytes.tables, Bytes.tables]
  split
  · next hva =>
      refine (walk_congr fun q hq => Bytes.mem_congr (h q ?_)).2.1
      rw [Bytes.tables, if_pos hva]
      exact hq
  · rfl

theorem lookup (h : SameTables c.root b b' va) : c.lookup b' va = c.lookup b va := by
  rw [Call.lookup, Call.lookup, guestLookupRoot, guestLookupRoot]
  split
  · next hva =>
      refine congrArg Prod.fst (walk_congr fun q hq => Bytes.mem_congr (h q ?_)).2.2
      rw [Bytes.tables, if_pos hva]
      exact hq
  · rfl

theorem resolve (h : SameTables c.root b b' va) (phase : Phase) (k : Nat) :
    c.resolve phase k b' va = c.resolve phase k b va := by
  simp only [Call.resolve, Call.find, h.lookup]

theorem small (h : SameTables c.root b b' va) (hs : c.Small b va) : c.Small b' va := by
  rw [Call.Small, h.lookup]
  exact hs

end SameTables

theorem walk_of_guestLookupLevel {m : Mem} {left pfn pa : Nat} (hl : left ≤ 3)
    (h : (guestLookupLevel lookupHost va left pfn () m).1 = ⟨.ok, pa, -1⟩) : walk m va left pfn = some (pa >>> 12) := by
  induction left generalizing pfn with
  | zero =>
    simp only [guestLookupLevel, lookupHost] at h
    rw [walk]
    split at h
    · next hpres =>
        cases h
        rw [if_pos hpres, entryPfn]
    · cases h
  | succ left ih =>
    simp only [guestLookupLevel, lookupHost] at h
    rw [walk]
    split at h
    · next hpres =>
        split at h
        · simp only [Lookup.mk.injEq] at h
          omega
        · next hlarge =>
            rw [if_pos hpres, if_neg hlarge]
            exact ih (by omega) h
    · cases h

theorem Call.Small.translate {phase : Phase} {pfn : Nat} (hs : c.Small b va)
    (h : c.resolve phase k b va = some pfn) : b.translate c.root va = some pfn := by
  rw [Call.resolve] at h
  split at h
  · cases h
  · simp only [Call.find] at h
    split at h
    · next hfound =>
        cases h
        have hr : c.lookup b va = ⟨.ok, (c.lookup b va).pa, -1⟩ := by
          rw [← hs hfound.1, ← hfound.1]
        generalize (c.lookup b va).pa = pa at hr ⊢
        rw [Call.lookup, guestLookupRoot] at hr
        split at hr
        · next hva =>
            rw [Bytes.translate, if_pos hva]
            exact walk_of_guestLookupLevel (Nat.le_refl 3) hr
        · cases hr
    · cases h

theorem Bytes.translate_add (b : Bytes) (hva : va < 2 ^ 64) (hk : va % 4096 + k < 4096) :
    b.translate root (ullong (va + k)) = b.translate root va := by
  refine b.translate_page root ?_
  unfold ullong
  omega

theorem Bytes.translate_next (b : Bytes) (hk : 4096 ≤ va % 4096 + k) (hk' : k < 4096) :
    b.translate root (ullong (va + k)) = b.translate root (Call.nextPage va) := by
  refine b.translate_page root ?_
  simp only [ullong, Call.nextPage, pageSize]
  omega

theorem Bytes.store_of_mem {pfn offset o : Nat} {bs : List UInt8} (h : offset ≤ o) (h' : o < offset + bs.length) :
    b.store pfn offset bs pfn o = bs.getD (o - offset) 0 := by
  rw [store, if_pos ⟨rfl, h, h'⟩]

theorem Bytes.store_of_offset {pfn offset q o : Nat} {bs : List UInt8} (h : o < offset ∨ offset + bs.length ≤ o) :
    b.store pfn offset bs q o = b q o := by
  rw [store, if_neg (by omega)]

theorem Bytes.store_of_ne {pfn offset q : Nat} {bs : List UInt8} (h : q ≠ pfn) : b.store pfn offset bs q = b q := by
  funext o
  rw [store, if_neg fun hc => h hc.1]

/-- The first `n` bytes of `bs` were written at `va`, through the translation `T`. -/
structure Wrote (T : Nat → Option Nat) (b b' : Bytes) (va : Nat) (bs : List UInt8) (n : Nat) : Prop where
  mapped : ∀ k < n, (T (ullong (va + k))).isSome = true
  hit : ∀ k < n, ∀ pfn, T (ullong (va + k)) = some pfn → b' pfn ((va + k) % 4096) = bs.getD k 0
  frames : ∀ pfn, (∀ k < n, T (ullong (va + k)) ≠ some pfn) → b' pfn = b pfn
  miss : ∀ pfn o, (∀ k < n, o ≠ (va + k) % 4096) → b' pfn o = b pfn o

namespace Wrote

variable {T T' : Nat → Option Nat} {bs : List UInt8} {n : Nat}

theorem none (T : Nat → Option Nat) (b : Bytes) (va : Nat) (bs : List UInt8) : Wrote T b b va bs 0 where
  mapped k hk := absurd hk (Nat.not_lt_zero k)
  hit k hk := absurd hk (Nat.not_lt_zero k)
  frames _ _ := rfl
  miss _ _ _ := rfl

theorem congr (h : Wrote T b b' va bs n) (hT : ∀ k < n, T' (ullong (va + k)) = T (ullong (va + k))) :
    Wrote T' b b' va bs n where
  mapped k hk := hT k hk ▸ h.mapped k hk
  hit k hk pfn hp := h.hit k hk pfn (hT k hk ▸ hp)
  frames pfn hp := h.frames pfn fun k hk hc => hp k hk ((hT k hk).trans hc)
  miss := h.miss

theorem part {pfn : Nat} (hva : va < 2 ^ 64) (hp : b.translate root va = some pfn) (hn : va % 4096 + n ≤ 4096)
    (hlen : n ≤ bs.length) : Wrote (b.translate root) b (b.store pfn (va % 4096) (bs.take n)) va bs n := by
  have hT : ∀ k < n, b.translate root (ullong (va + k)) = some pfn := fun k hk =>
    (b.translate_add hva (by omega)).trans hp
  have htake : (bs.take n).length = n := by simpa using hlen
  refine ⟨fun k hk => by rw [hT k hk]; rfl, fun k hk q hq => ?_, fun q hq => ?_, fun q o ho => ?_⟩
  · obtain rfl : pfn = q := Option.some.inj ((hT k hk).symm.trans hq)
    rw [Bytes.store_of_mem (by omega) (by omega)]
    have hoff : (va + k) % 4096 - va % 4096 = k := by omega
    rw [hoff]
    simp [List.getD_eq_getElem?_getD, hk]
  · rcases Nat.eq_zero_or_pos n with rfl | hpos
    · funext o
      exact Bytes.store_of_offset (by rw [htake]; omega)
    · refine Bytes.store_of_ne fun hc => hq 0 hpos ?_
      rw [hc]
      exact hT 0 hpos
  · refine Bytes.store_of_offset ?_
    rw [htake]
    by_contra hc
    exact ho (o - va % 4096) (by omega) (by omega)

theorem next {pfn : Nat} (h : Wrote (b.translate root) b b₁ va bs (4096 - va % 4096))
    (hp : b.translate root (Call.nextPage va) = some pfn) (hn : 4096 < va % 4096 + bs.length)
    (hlen : bs.length ≤ 4096) :
    Wrote (b.translate root) b (b₁.store pfn 0 (bs.drop (4096 - va % 4096))) va bs bs.length := by
  have hT : ∀ k, 4096 - va % 4096 ≤ k → k < bs.length → b.translate root (ullong (va + k)) = some pfn :=
    fun k hk hk' => (b.translate_next (by omega) (by omega)).trans hp
  have hdrop : (bs.drop (4096 - va % 4096)).length = bs.length - (4096 - va % 4096) := List.length_drop
  refine ⟨fun k hk => ?_, fun k hk q hq => ?_, fun q hq => ?_, fun q o ho => ?_⟩
  · rcases Nat.lt_or_ge k (4096 - va % 4096) with hlt | hge
    · exact h.mapped k hlt
    · rw [hT k hge hk]
      rfl
  · rcases Nat.lt_or_ge k (4096 - va % 4096) with hlt | hge
    -- the second part ends before the offset the first begins at
    · rw [Bytes.store_of_offset (by omega)]
      exact h.hit k hlt q hq
    · obtain rfl : pfn = q := Option.some.inj ((hT k hge hk).symm.trans hq)
      have hoff : (va + k) % 4096 = k - (4096 - va % 4096) := by omega
      rw [hoff, Bytes.store_of_mem (by omega) (by omega)]
      simp only [List.getD_eq_getElem?_getD, List.getElem?_drop, Nat.sub_zero]
      rw [Nat.add_sub_cancel' hge]
  · have hne : q ≠ pfn := fun hc => hq (4096 - va % 4096) (by omega) (hc ▸ hT _ (Nat.le_refl _) (by omega))
    rw [Bytes.store_of_ne hne]
    exact h.frames q fun k hk => hq k (by omega)
  · have hout : o < 0 ∨ 0 + (bs.drop (4096 - va % 4096)).length ≤ o := by
      by_contra hc
      exact ho (4096 - va % 4096 + o) (by omega) (by omega)
    rw [Bytes.store_of_offset hout]
    exact h.miss q o fun k hk => ho k (by omega)

end Wrote

namespace Call

variable {phase : Phase} {write : Bool} {buf bs : List UInt8} {size : Nat}

theorem xferLoop_nil (fuel k va : Nat) : c.xferLoop phase write fuel k va [] b = (true, [], b) := by
  cases fuel <;> simp [xferLoop]

theorem xferLoop_none {fuel : Nat} (hb : buf ≠ []) (h : c.resolve phase k b va = none) :
    c.xferLoop phase write (fuel + 1) k va buf b = (false, buf, b) := by
  simp [xferLoop, hb, h]

theorem xferLoop_read (fuel part : Nat) {pfn : Nat} (hb : buf ≠ []) (h : c.resolve phase k b va = some pfn)
    (hp : part = min (4096 - va % 4096) buf.length) :
    c.xferLoop phase false (fuel + 1) k va buf b =
      ((c.xferLoop phase false fuel (k + 1) (ullong (va + part)) (buf.drop part) b).1, b.read pfn (va % 4096) part ++
          (c.xferLoop phase false fuel (k + 1) (ullong (va + part)) (buf.drop part) b).2.1,
        (c.xferLoop phase false fuel (k + 1) (ullong (va + part)) (buf.drop part) b).2.2) := by
  simp [xferLoop, hb, h, hp, pageSize]

theorem xferLoop_write (fuel part : Nat) {pfn : Nat} (hb : buf ≠ []) (h : c.resolve phase k b va = some pfn)
    (hp : part = min (4096 - va % 4096) buf.length) :
    (fun r => (r.1, r.2.2)) (c.xferLoop phase true (fuel + 1) k va buf b) =
      (fun r => (r.1, r.2.2)) (c.xferLoop phase true fuel (k + 1) (ullong (va + part)) (buf.drop part)
        (b.store pfn (va % 4096) (buf.take part))) := by
  simp [xferLoop, hb, h, hp, pageSize]

theorem nextPage_mod (va : Nat) : nextPage va % 4096 = 0 := by
  simp only [nextPage, ullong, pageSize]
  omega

theorem read_getElem? (b : Bytes) {pfn offset n i : Nat} (h : i < n) :
    (b.read pfn offset n)[i]? = some (b pfn (offset + i)) := by
  simp [Bytes.read, h]

theorem readCr3_holds (hva : va < 2 ^ 64) (h0 : 0 < size) (hsize : size ≤ 4096)
    (hs : ∀ a ∈ c.walks phase b va size, c.Small b a) (h : c.readCr3 phase b va size = some bs) :
    bs.length = size ∧ c.resolve phase 0 b va ≠ none ∧ b.Holds c.root va bs := by
  have hbuf : List.replicate size (0 : UInt8) ≠ [] := by simp; omega
  obtain ⟨fuel, rfl⟩ : ∃ fuel, size = fuel + 1 := ⟨size - 1, by omega⟩
  simp only [readCr3, xferCr3] at h
  split at h
  · split at h
    · next hc => cases hc
    · cases h
  rw [List.length_replicate] at h
  cases hr : c.resolve phase 0 b va with
  | none =>
    rw [xferLoop_none hbuf hr] at h
    cases h
  | some pfn =>
    have hp := (hs va (by unfold walks; split <;> simp)).translate hr
    have hT : ∀ k, va % 4096 + k < 4096 → b.guestByte c.root (va + k) = some (b pfn (va % 4096 + k)) := by
      intro k hk
      rw [Bytes.guestByte, b.translate_add hva hk, hp]
      have hoff : (va + k) % 4096 = va % 4096 + k := by omega
      simp [pageSize, hoff]
    by_cases hfit : va % 4096 + (fuel + 1) ≤ 4096
    · rw [xferLoop_read _ (fuel + 1) hbuf hr (by simp; omega)] at h
      simp only [List.drop_replicate, Nat.sub_self, List.replicate_zero, xferLoop_nil] at h
      cases h
      simp only [List.append_nil]
      refine ⟨by simp [Bytes.read], by simp, fun k hk => ?_⟩
      have hk' : k < fuel + 1 := by simpa [Bytes.read] using hk
      rw [hT k (by omega), read_getElem? b hk']
    · obtain ⟨part, hpart⟩ : ∃ part, part = 4096 - va % 4096 := ⟨_, rfl⟩
      have hnext : ullong (va + part) = nextPage va := by rw [nextPage, hpart, pageSize]
      have hbuf' : List.replicate (fuel + 1 - part) (0 : UInt8) ≠ [] := by simp; omega
      obtain ⟨fuel', rfl⟩ : ∃ fuel', fuel = fuel' + 1 := ⟨fuel - 1, by omega⟩
      rw [xferLoop_read _ part hbuf hr (by simp; omega), List.drop_replicate, hnext] at h
      cases hr' : c.resolve phase 1 b (nextPage va) with
      | none =>
        rw [xferLoop_none hbuf' hr'] at h
        cases h
      | some pfn' =>
        have hw : nextPage va ∈ c.walks phase b va (fuel' + 1 + 1) := by simp [walks, pageSize, hfit, hr]
        have hp' := (hs _ hw).translate hr'
        rw [xferLoop_read _ (fuel' + 1 + 1 - part) hbuf' hr' (by rw [nextPage_mod]; simp; omega)] at h
        simp only [List.drop_replicate, Nat.sub_self, List.replicate_zero, xferLoop_nil, nextPage_mod,
          List.append_nil, if_true] at h
        cases h
        refine ⟨by simp [Bytes.read]; omega, by simp, fun k hk => ?_⟩
        have hk' : k < fuel' + 1 + 1 := by simp [Bytes.read] at hk; omega
        rcases Nat.lt_or_ge k part with hlt | hge
        · rw [hT k (by omega), List.getElem?_append_left (by simpa [Bytes.read] using hlt), read_getElem? b hlt]
        · have hlen : (b.read pfn (va % 4096) part).length = part := by simp [Bytes.read]
          have hoff : (va + k) % 4096 = k - part := by omega
          rw [Bytes.guestByte, b.translate_next (by omega) (by omega), hp', List.getElem?_append_right (by omega),
            hlen, read_getElem? b (by omega)]
          simp [pageSize, hoff]

theorem writeCr3_wrote (c : Call) (phase : Phase) (bs : List UInt8) (hva : va < 2 ^ 64) (h0 : 0 < bs.length)
    (hlen : bs.length ≤ 4096) (hs : ∀ a ∈ c.walks phase b va bs.length, c.Small b a)
    (hap : 4096 < va % 4096 + bs.length →
      ∀ pfn, b.translate c.root va = some pfn → pfn ∉ b.tables c.root (nextPage va)) :
    Wrote (b.translate c.root) b (c.writeCr3 phase b va bs).2 va bs (c.reach phase b va bs.length) ∧
      ((c.writeCr3 phase b va bs).1 = true ↔ c.reach phase b va bs.length = bs.length) := by
  have hbuf : bs ≠ [] := List.ne_nil_of_length_pos h0
  obtain ⟨fuel, hfuel⟩ : ∃ fuel, bs.length = fuel + 1 := ⟨bs.length - 1, by omega⟩
  simp only [writeCr3, xferCr3]
  by_cases hcr3 : c.cr3 = 0
  · have hreach : c.reach phase b va bs.length = 0 := by simp [reach, hcr3]
    rw [if_pos hcr3, hreach]
    exact ⟨Wrote.none .., by simp; omega⟩
  rw [if_neg hcr3]
  cases hr : c.resolve phase 0 b va with
  | none =>
    have hreach : c.reach phase b va bs.length = 0 := by simp [reach, hr]
    rw [hreach, hfuel, xferLoop_none hbuf hr]
    exact ⟨Wrote.none .., by simp⟩
  | some pfn =>
    have hp := (hs va (by unfold walks; split <;> simp)).translate hr
    by_cases hfit : va % 4096 + bs.length ≤ 4096
    · have hreach : c.reach phase b va bs.length = bs.length := by simp [reach, hcr3, hr, pageSize, hfit]
      have hx := xferLoop_write fuel bs.length hbuf hr (by omega)
      rw [List.drop_length, xferLoop_nil, ← hfuel] at hx
      simp only [Prod.mk.injEq] at hx
      rw [hx.1, hx.2, hreach]
      exact ⟨Wrote.part hva hp hfit (Nat.le_refl _), by simp⟩
    · obtain ⟨part, hpart⟩ : ∃ part, part = 4096 - va % 4096 := ⟨_, rfl⟩
      have hnext : ullong (va + part) = nextPage va := by rw [nextPage, hpart, pageSize]
      have hbuf' : bs.drop part ≠ [] := by
        rw [Ne, List.drop_eq_nil_iff]
        omega
      obtain ⟨fuel', rfl⟩ : ∃ fuel', fuel = fuel' + 1 := ⟨fuel - 1, by omega⟩
      have hx := xferLoop_write (fuel' + 1) part hbuf hr (by omega)
      have hw₁ := Wrote.part (n := part) hva hp (by omega) (by omega : part ≤ bs.length)
      have hsame : SameTables c.root b (b.store pfn (va % 4096) (bs.take part)) (nextPage va) := fun q hq =>
        Bytes.store_of_ne fun hc => hap (by omega) pfn hp (hc ▸ hq)
      rw [hnext, ← hfuel] at hx
      cases hr' : c.resolve phase 1 b (nextPage va) with
      | none =>
        have hreach : c.reach phase b va bs.length = part := by
          simp [reach, hcr3, hr, pageSize, hfit, hr', hpart]
        rw [xferLoop_none hbuf' (by rw [hsame.resolve]; exact hr')] at hx
        simp only [Prod.mk.injEq] at hx
        rw [hx.1, hx.2, hreach]
        exact ⟨hw₁, by simp; omega⟩
      | some pfn' =>
        have hreach : c.reach phase b va bs.length = bs.length := by
          simp [reach, hcr3, hr, pageSize, hfit, hr']
        have hw : nextPage va ∈ c.walks phase b va bs.length := by simp [walks, pageSize, hfit, hr]
        have hp' := (hs _ hw).translate hr'
        rw [xferLoop_write _ (bs.length - part) hbuf' (by rw [hsame.resolve]; exact hr')
          (by rw [nextPage_mod, List.length_drop]; omega), nextPage_mod, List.drop_drop,
          Nat.add_sub_cancel' (by omega), List.drop_length, xferLoop_nil] at hx
        simp only [Prod.mk.injEq] at hx
        have htake : (bs.drop part).take (bs.length - part) = bs.drop part := List.take_of_length_le (by simp)
        rw [hx.1, hx.2, htake, hreach]
        subst hpart
        exact ⟨hw₁.next hp' (by omega) hlen, by simp⟩

end Call

end MoCoLinux.Arch.Tick
