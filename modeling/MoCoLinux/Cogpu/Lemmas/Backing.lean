import MoCoLinux.Cogpu.Lemmas.Slices

/-!
# What requests do to the pin sets
-/

namespace MoCoLinux.Cogpu.Backing

variable {s s' : Backing} {kmap : Kmap} {addr left room resId id : Nat} {r : ResPin} {pc : PinCollect} {b : Build}

theorem resPinsDrop_frame (s : Backing) (resId : Nat) : (s.resPinsDrop resId).slices = s.slices ∧
    (s.resPinsDrop resId).tokens = s.tokens ∧ (s.resPinsDrop resId).held = s.held := by
  rw [resPinsDrop]
  split
  · exact ⟨rfl, rfl, rfl⟩
  · split <;> exact ⟨rfl, rfl, rfl⟩

theorem resId_ne_zero (hr : r ∈ s.pinSets) : r.resId ≠ 0 := by
  have hfree := (SlotTable.mem_used.mp hr).2
  rw [ResPin.isFree, beq_eq_false_iff_ne] at hfree
  exact hfree

theorem Inv.resPinsDrop (h : s.Inv) (resId : Nat) : (s.resPinsDrop resId).Inv ∧
    ∀ r, r ∈ (s.resPinsDrop resId).pinSets ↔ r ∈ s.pinSets ∧ r.resId ≠ resId := by
  rw [Backing.resPinsDrop]
  split
  · rename_i hzero
    exact ⟨h, fun r => ⟨fun hr => ⟨hr, hzero ▸ resId_ne_zero hr⟩, And.left⟩⟩
  · rename_i hid
    split
    · rename_i hnone
      refine ⟨h, fun r => ⟨fun hr => ⟨hr, fun heq => ?_⟩, And.left⟩⟩
      exact List.find?_eq_none.mp hnone r (SlotTable.mem_used.mp hr).1 (beq_iff_eq.mpr heq)
    · rename_i r hfind
      have hsets : s.pinSets.Perm (r :: SlotTable.used ResPin.isFree
          (SlotTable.modifyFirst (fun r => r.resId == resId) (fun _ => ⟨0, []⟩) s.resPins)) := by
        refine SlotTable.used_perm_modifyFirst (fun b hb => ?_) (fun _ => rfl) hfind
        rw [ResPin.isFree, beq_iff_eq.mp hb, beq_eq_false_iff_ne]
        exact hid
      have hr : r.resId = resId := by simpa using List.find?_some hfind
      refine ⟨h.unpinned hsets, fun r' => ?_⟩
      have hnodup := List.nodup_cons.mp ((hsets.map ResPin.resId).nodup_iff.mp h.oneSet)
      rw [hsets.mem_iff, List.mem_cons]
      constructor
      · refine fun hr' => ⟨.inr hr', fun heq => hnodup.1 ?_⟩
        exact List.mem_map.mpr ⟨r', hr', heq.trans hr.symm⟩
      · rintro ⟨rfl | hr', hne⟩
        · exact absurd hr hne
        · exact hr'

theorem placePins_perm {t t' : List ResPin} {grows : Bool} (hr : r.resId ≠ 0) (h : placePins t grows r = some t') :
    (SlotTable.used ResPin.isFree t').Perm (r :: SlotTable.used ResPin.isFree t) := by
  have hused : r.isFree = false := by
    rw [ResPin.isFree, beq_eq_false_iff_ne]
    exact hr
  rw [placePins] at h
  split at h
  · obtain rfl := Option.some.inj h
    exact SlotTable.place_perm hused ‹_›
  · dsimp only at h
    split at h
    · obtain rfl := Option.some.inj h
      have hrest : SlotTable.used ResPin.isFree
          (r :: List.replicate ((if t.length = 0 then 1024 else t.length * 2) - t.length - 1) ⟨0, []⟩) = [r] := by
        rw [SlotTable.used_cons, hused, SlotTable.used_replicate rfl]
        rfl
      rw [SlotTable.used_append, hrest]
      exact List.perm_append_singleton _ _
    · cases h

/-- What `res_pins_commit` does: it refuses at once, it fails after the old pin set is gone, or the resource has the new
pin set. -/
theorem Inv.resPinsCommit (h : s.Inv) (hnodup : pc.slices.Nodup) (hmapped : ∀ id ∈ pc.slices, s.Mapped id)
    (own grows : Bool) (resId : Nat) :
    s.resPinsCommit own grows resId pc = (false, s) ∨
    (own && grows) = false ∧ s.resPinsCommit own grows resId pc = (false, s.resPinsDrop resId) ∨
    ∃ s', s.resPinsCommit own grows resId pc = (true, s') ∧ pc.overflow = false ∧ s'.Inv ∧ s'.held = s.held ∧
      (∀ r ∈ s.pinSets, r.resId ≠ resId → r ∈ s'.pinSets) ∧
      ∀ id ∈ pc.slices, ∃ r ∈ s'.pinSets, r.resId = resId ∧ id ∈ r.slices := by
  obtain ⟨hinv, hsets⟩ := h.resPinsDrop resId
  obtain ⟨hslices, htokens, hheld⟩ := s.resPinsDrop_frame resId
  rw [Backing.resPinsCommit]
  split
  · exact .inl rfl
  · rename_i hok
    obtain ⟨hid, hoverflow⟩ := not_or.mp hok
    have hoverflow : pc.overflow = false := by simpa using hoverflow
    have hkept : ∀ r ∈ s.pinSets, r.resId ≠ resId → r ∈ (s.resPinsDrop resId).pinSets :=
      fun r hr hne => (hsets r).mpr ⟨hr, hne⟩
    dsimp only
    split
    · rename_i hnil
      exact .inr (.inr ⟨_, rfl, hoverflow, hinv, hheld, hkept, by simp [hnil]⟩)
    · cases own with
      | false => exact .inr (.inl ⟨rfl, rfl⟩)
      | true =>
        simp only [Bool.not_true, Bool.false_eq_true, if_false]
        split
        · rename_i hplace
          refine .inr (.inl ⟨?_, rfl⟩)
          cases grows with
          | false => rfl
          | true =>
            rw [placePins] at hplace
            split at hplace <;> simp at hplace
        · rename_i t hplace
          have hperm := placePins_perm (r := ⟨resId, pc.slices⟩) hid hplace
          have hpinned := hinv.pinned hperm hnodup
            (fun id hmem => by rw [Mapped, hslices]; exact hmapped id hmem) fun r hr => ((hsets r).mp hr).2
          refine .inr (.inr ⟨_, rfl, hoverflow, hpinned, hheld, fun r hr hne => ?_, fun id hmem => ?_⟩)
          · exact hperm.mem_iff.mpr (List.mem_cons_of_mem _ (hkept r hr hne))
          · exact ⟨⟨resId, pc.slices⟩, hperm.mem_iff.mpr List.mem_cons_self, rfl, hmem⟩

structure Built (s : Backing) (b : Build) : Prop where
  extended : s.Extends b.s
  nodup : b.pins.slices.Nodup
  mapped : ∀ id ∈ b.pins.slices, b.s.Mapped id
  covered : b.pins.overflow = false → ∀ id ∈ sliceIds b.iov, id ∈ b.pins.slices

theorem Built.looked (h : Built s b) (hext : b.s.Extends s') (bad : Bool) :
    Built s { b with s := s', bad := bad } where
  extended := h.extended.trans hext
  nodup := h.nodup
  mapped := fun id hid => hext.mapped id (h.mapped id hid)
  covered := h.covered

theorem Inv.pinCollectAdd (h : s.Inv) (pc : PinCollect) (gpa : Nat) : s.Extends (s.pinCollectAdd pc gpa).2 := by
  have hfind : s.Looks gpa 1 _ := h.findSlice gpa (by decide)
  rw [Backing.pinCollectAdd]
  rcases heq : s.findSlice gpa 1 with ⟨_ | sl, s₁⟩ <;> rw [heq] at hfind
  · exact hfind.1
  · dsimp only
    split
    · exact hfind.1
    · split <;> exact hfind.1

theorem Inv.pinCollectAdd_slices (h : s.Inv) (gpa : Nat) (hnodup : pc.slices.Nodup)
    (hmapped : ∀ id ∈ pc.slices, s.Mapped id) : (s.pinCollectAdd pc gpa).1.slices.Nodup ∧
    (∀ id ∈ (s.pinCollectAdd pc gpa).1.slices, (s.pinCollectAdd pc gpa).2.Mapped id) ∧
    (∀ id ∈ pc.slices, id ∈ (s.pinCollectAdd pc gpa).1.slices) ∧
    ((s.pinCollectAdd pc gpa).1.overflow = false → pc.overflow = false) := by
  have hfind : s.Looks gpa 1 _ := h.findSlice gpa (by decide)
  rw [Backing.pinCollectAdd]
  rcases heq : s.findSlice gpa 1 with ⟨_ | sl, s₁⟩ <;> rw [heq] at hfind <;> obtain ⟨hext, hfound⟩ := hfind
  · exact ⟨hnodup, fun id hid => hext.mapped id (hmapped id hid), fun _ hid => hid, fun h => h⟩
  · dsimp only
    split
    · exact ⟨hnodup, fun id hid => hext.mapped id (hmapped id hid), fun _ hid => hid, fun h => h⟩
    · rename_i hnew
      split
      · exact ⟨hnodup, fun id hid => hext.mapped id (hmapped id hid), fun _ hid => hid, nofun⟩
      · refine ⟨?_, fun id hid => ?_, fun _ hid => List.mem_append_left _ hid, fun h => h⟩
        · exact List.concat_eq_append ▸ hnodup.concat hnew
        · rcases List.mem_append.mp hid with hid | hid
          · exact hext.mapped id (hmapped id hid)
          · exact ⟨sl, (hfound sl rfl).mem, (List.mem_singleton.mp hid).symm⟩

theorem Found.pinCollectAdd {gpa : Nat} {sl : Slice} (h : s.Found gpa 1 sl)
    (hroom : (s.pinCollectAdd pc gpa).1.overflow = false) : sl.id ∈ (s.pinCollectAdd pc gpa).1.slices := by
  rw [Backing.pinCollectAdd, h.findSlice] at hroom ⊢
  dsimp only at hroom ⊢
  split
  · assumption
  · rename_i hnew
    rw [if_neg hnew] at hroom
    split at hroom
    · cases hroom
    · rename_i hfits
      rw [if_neg hfits]
      exact List.mem_append_right _ List.mem_cons_self

theorem Built.buildEntry (h : Built s b) (hleft : left < 2 ^ 64) (kmap : Kmap) (room addr : Nat) :
    Built s (buildEntry kmap room addr left b) := by
  -- one turn of the loop per iovec
  induction room generalizing addr left b with
  | zero =>
    rw [Backing.buildEntry]
    split
    · exact h
    · have hrun := h.extended.inv.resolveRun kmap addr left
      rcases heq : b.s.resolveRun kmap addr left with ⟨_ | run, s₁⟩ <;> rw [heq] at hrun <;>
        exact h.looked hrun.1 true
  | succ room ih =>
    rw [Backing.buildEntry]
    split
    · exact h
    · have hrun := h.extended.inv.resolveRun kmap addr left
      rcases heq : b.s.resolveRun kmap addr left with ⟨_ | run, s₁⟩ <;> rw [heq] at hrun
      · exact h.looked hrun.1 true
      · obtain ⟨hext, hle⟩ := hrun
        dsimp only at hext hle ⊢
        obtain ⟨hext', hfound⟩ := hext.inv.resolveGpa kmap addr (Nat.lt_of_le_of_lt hle hleft)
        rcases heq : s₁.resolveGpa kmap addr (run + 1) with ⟨_ | target, s₂⟩ <;> rw [heq] at hext' hfound
        · exact h.looked (hext.trans hext') true
        · have hlooked := h.looked (hext.trans hext') b.bad
          obtain ⟨hnodup, hmapped, hkept, hroom⟩ :=
            hext'.inv.pinCollectAdd_slices addr hlooked.nodup hlooked.mapped
          refine ih (b := ⟨(s₂.pinCollectAdd b.pins addr).2, _, _, _⟩) ?_ (by omega) _
          refine ⟨hlooked.extended.trans (hext'.inv.pinCollectAdd b.pins addr), hnodup, hmapped, fun hfits id hid => ?_⟩
          rw [sliceIds, List.filterMap_append, List.mem_append] at hid
          rcases hid with hid | hid
          · exact hkept id (h.covered (hroom hfits) id hid)
          · cases target with
            | view => cases hid
            | slice x =>
              obtain rfl := List.mem_singleton.mp hid
              obtain ⟨sl, rfl, hsl⟩ := hfound (Nat.succ_ne_zero run) _ rfl
              exact hsl.pinCollectAdd hfits

variable {entries : List (Nat × Nat)}

theorem Built.buildEntries (h : Built s b) (hlen : ∀ e ∈ entries, e.2 < 2 ^ 32)
    (kmap : Kmap) : Built s (buildEntries kmap entries b) := by
  induction entries generalizing b with
  | nil => exact h
  | cons e entries ih =>
    obtain ⟨addr, len⟩ := e
    rw [Backing.buildEntries]
    split
    · exact h
    · refine ih (h.buildEntry ?_ kmap _ addr) fun e he => hlen e (List.mem_cons_of_mem _ he)
      exact Nat.lt_trans (hlen (addr, len) List.mem_cons_self) (by decide)

theorem Inv.build (h : s.Inv) (hlen : ∀ e ∈ entries, e.2 < 2 ^ 32) (kmap : Kmap) :
    Built s (s.build kmap entries) :=
  Built.buildEntries ⟨h.refl, List.nodup_nil, by simp, by simp [sliceIds]⟩ hlen kmap

theorem buildEntry_some (kmap : Kmap) (room addr : Nat) (h : left ≠ 0 ∨ b.bad = true ∨ b.iov ≠ []) :
    (buildEntry kmap room addr left b).bad = true ∨ (buildEntry kmap room addr left b).iov ≠ [] := by
  induction room generalizing addr left b with
  | zero =>
    rw [buildEntry]
    split
    · exact h.resolve_left (not_not.mpr ‹_›)
    · split <;> exact .inl rfl
  | succ room ih =>
    rw [buildEntry]
    split
    · exact h.resolve_left (not_not.mpr ‹_›)
    · split
      · exact .inl rfl
      · dsimp only
        split
        · exact .inl rfl
        · exact ih _ (.inr (.inr (by simp)))

theorem buildEntries_some (kmap : Kmap)
    (h : (∃ e ∈ entries, e.2 ≠ 0) ∨ b.bad = true ∨ b.iov ≠ []) :
    (buildEntries kmap entries b).bad = true ∨ (buildEntries kmap entries b).iov ≠ [] := by
  induction entries generalizing b with
  | nil => exact h.resolve_left (by simp)
  | cons e entries ih =>
    obtain ⟨addr, len⟩ := e
    rw [buildEntries]
    split
    · exact .inl ‹_›
    · refine ih ?_
      rcases h with ⟨e, he, hne⟩ | h
      · rcases List.mem_cons.mp he with rfl | he
        · exact .inr (buildEntry_some kmap _ addr (.inl hne))
        · exact .inl ⟨e, he, hne⟩
      · exact .inr (buildEntry_some kmap _ addr (.inr h))

end MoCoLinux.Cogpu.Backing
