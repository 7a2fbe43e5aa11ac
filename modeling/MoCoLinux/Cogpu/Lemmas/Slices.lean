import MoCoLinux.Cogpu.Slices
import Mathlib.Data.List.Nodup

/-!
# Every pin has its owner

The pins of a slice are counted by the pin sets and tokens it is in, whatever requests come and whatever is refused.
A slice without pins is therefore in none of them, and this is the only kind of slice the daemon unmaps.
-/

namespace MoCoLinux.Cogpu.Backing

open Function

variable {s s' : Backing} {kmap : Kmap} {gpa len resId id : Nat} {sl : Slice}

def owners (s : Backing) (id : Nat) : Nat :=
  s.pinSets.countP (fun r => decide (id ∈ r.slices)) + s.tokens.count id

structure Inv (s : Backing) : Prop where
  nodup : (s.slices.map Slice.id).Nodup
  fresh : ∀ sl ∈ s.slices, sl.id < s.mapped
  lastHit : ∀ sl ∈ s.lastHit, sl ∈ s.slices
  setsMapped : ∀ r ∈ s.pinSets, ∀ id ∈ r.slices, s.Mapped id
  setsNodup : ∀ r ∈ s.pinSets, r.slices.Nodup
  oneSet : (s.pinSets.map ResPin.resId).Nodup
  tokensMapped : ∀ id ∈ s.tokens, s.Mapped id
  pins : ∀ sl ∈ s.slices, s.pins sl.id = s.owners sl.id

theorem owners_eq_zero : s.owners id = 0 ↔ (∀ r ∈ s.pinSets, id ∉ r.slices) ∧ id ∉ s.tokens := by
  simp [owners, List.countP_eq_zero, List.count_eq_zero]

theorem Inv.unmapped (h : s.Inv) (hid : ¬ s.Mapped id) : s.owners id = 0 :=
  owners_eq_zero.mpr ⟨fun r hr hmem => hid (h.setsMapped r hr id hmem), fun hmem => hid (h.tokensMapped id hmem)⟩

theorem Inv.mapped_lt (h : s.Inv) (hid : s.Mapped id) : id < s.mapped := by
  obtain ⟨sl, hsl, rfl⟩ := hid
  exact h.fresh sl hsl

structure Extends (s s' : Backing) : Prop where
  inv : s'.Inv
  resPins : s'.resPins = s.resPins
  tokens : s'.tokens = s.tokens
  held : s'.held = s.held
  mapped : ∀ id, s.Mapped id → s'.Mapped id

theorem Inv.refl (h : s.Inv) : s.Extends s := ⟨h, rfl, rfl, rfl, fun _ hid => hid⟩

theorem Extends.trans {s'' : Backing} (h : s.Extends s') (h' : s'.Extends s'') : s.Extends s'' where
  inv := h'.inv
  resPins := h'.resPins.trans h.resPins
  tokens := h'.tokens.trans h.tokens
  held := h'.held.trans h.held
  mapped := fun id hid => h'.mapped id (h.mapped id hid)

theorem Inv.hit (h : s.Inv) (hsl : sl ∈ s.slices) : s.Extends (s.hit sl) where
  inv := { h with lastHit := fun _ heq => Option.some.inj heq ▸ hsl }
  resPins := rfl
  tokens := rfl
  held := rfl
  mapped := fun _ hid => hid

theorem Inv.addSlice (h : s.Inv) (pa bytes : Nat) : s.Extends (s.addSlice pa bytes) := by
  have hmapped : ∀ id, s.Mapped id → (s.addSlice pa bytes).Mapped id := by
    rintro id ⟨sl, hsl, rfl⟩
    exact ⟨sl, List.mem_cons_of_mem _ hsl, rfl⟩
  have hnew : ¬ s.Mapped s.mapped := fun hid => Nat.lt_irrefl _ (h.mapped_lt hid)
  refine ⟨?_, rfl, rfl, rfl, hmapped⟩
  constructor
  case nodup =>
    refine List.nodup_cons.mpr ⟨fun hmem => ?_, h.nodup⟩
    obtain ⟨sl, hsl, heq⟩ := List.mem_map.mp hmem
    exact hnew ⟨sl, hsl, heq⟩
  case fresh =>
    intro sl hsl
    rcases List.mem_cons.mp hsl with rfl | hsl
    · exact Nat.lt_succ_self _
    · exact Nat.lt_succ_of_lt (h.fresh sl hsl)
  case lastHit =>
    rintro sl heq
    obtain rfl := Option.some.inj heq
    exact List.mem_cons_self
  case setsMapped => exact fun r hr id hid => hmapped id (h.setsMapped r hr id hid)
  case setsNodup => exact h.setsNodup
  case oneSet => exact h.oneSet
  case tokensMapped => exact fun id hid => hmapped id (h.tokensMapped id hid)
  case pins =>
    intro sl hsl
    rcases List.mem_cons.mp hsl with rfl | hsl
    · exact (update_self ..).trans (h.unmapped hnew).symm
    · exact (update_of_ne (Nat.ne_of_lt (h.fresh sl hsl)) ..).trans (h.pins sl hsl)

structure Found (s : Backing) (gpa len : Nat) (sl : Slice) : Prop where
  mem : sl ∈ s.slices
  last : s.lastHit = some sl
  spans : sl.Spans gpa (gpa + len)
  bounded : gpa + len < 2 ^ 64

theorem Found.first (h : s.Found gpa len sl) (hlen : len ≠ 0) : s.Found gpa 1 sl where
  mem := h.mem
  last := h.last
  spans := ⟨h.spans.1, by have := h.spans.2; omega⟩
  bounded := by have := h.bounded; omega

def Looks (s : Backing) (gpa len : Nat) (r : Option Slice × Backing) : Prop :=
  s.Extends r.2 ∧ ∀ sl ∈ r.1, r.2.Found gpa len sl

theorem Inv.lookup (h : s.Inv) {fin : Nat} (hsl : s.lookup gpa fin = some sl) : sl ∈ s.slices ∧ sl.Spans gpa fin := by
  rw [Backing.lookup] at hsl
  split at hsl
  · rename_i sl' hlast
    obtain rfl := Option.some.inj hsl
    obtain ⟨hlast, hspans⟩ := Option.filter_eq_some_iff.mp hlast
    exact ⟨h.lastHit sl' hlast, of_decide_eq_true hspans⟩
  · exact ⟨List.mem_of_find?_eq_some hsl, of_decide_eq_true (List.find?_some hsl :)⟩

theorem Inv.findSlice (h : s.Inv) (gpa : Nat) (hlen : len < 2 ^ 64) : s.Looks gpa len (s.findSlice gpa len) := by
  rw [Backing.findSlice]
  split
  · exact ⟨h.refl, nofun⟩
  · rename_i hwrap
    have hfin : gpa + len < 2 ^ 64 := by
      unfold ullong at hwrap
      omega
    rw [show ullong (gpa + len) = gpa + len from Nat.mod_eq_of_lt hfin]
    split
    · rename_i sl hsl
      obtain ⟨hmem, hspans⟩ := h.lookup hsl
      refine ⟨h.hit hmem, fun sl' heq => ?_⟩
      obtain rfl := Option.some.inj heq
      exact ⟨hmem, rfl, hspans, hfin⟩
    · exact ⟨h.refl, nofun⟩

theorem Found.findSlice (h : s.Found gpa 1 sl) : s.findSlice gpa 1 = (some sl, s.hit sl) := by
  have hfin : ullong (gpa + 1) = gpa + 1 := Nat.mod_eq_of_lt h.bounded
  have hlast : (s.lastHit.filter fun sl => decide (sl.Spans gpa (gpa + 1))) = some sl := by
    rw [h.last]
    exact Option.filter_some_pos (decide_eq_true h.spans)
  rw [Backing.findSlice, hfin, if_neg (by omega), Backing.lookup, hlast]

theorem Inv.sliceMapLocked (h : s.Inv) (kmap : Kmap) (gpa : Nat) :
    s.Looks gpa 1 (s.sliceMapLocked kmap gpa) := by
  have hfind : s.Looks gpa 1 _ := h.findSlice gpa (by decide)
  rw [Backing.sliceMapLocked]
  rcases heq : s.findSlice gpa 1 with ⟨_ | sl, s₁⟩ <;> rw [heq] at hfind
  · obtain ⟨hext, -⟩ := hfind
    dsimp only
    split
    · exact ⟨hext, nofun⟩
    · split
      · exact ⟨hext, nofun⟩
      · split
        · exact ⟨hext, nofun⟩
        · rename_i pa bytes _ hrange
          refine ⟨hext.trans (hext.inv.addSlice pa bytes), fun sl heq => ?_⟩
          obtain rfl := Option.some.inj heq
          have hspans : pa ≤ gpa ∧ gpa + 1 ≤ pa + bytes ∧ pa + bytes < 2 ^ 64 := by omega
          exact ⟨List.mem_cons_self, rfl, ⟨hspans.1, hspans.2.1⟩, Nat.lt_of_le_of_lt hspans.2.1 hspans.2.2⟩
  · exact hfind

theorem Inv.mapSlice (h : s.Inv) (kmap : Kmap) (gpa : Nat) : s.Looks gpa 1 (s.mapSlice kmap gpa) := by
  have hfind : s.Looks gpa 1 _ := h.findSlice gpa (by decide)
  rw [Backing.mapSlice]
  rcases heq : s.findSlice gpa 1 with ⟨_ | sl, s₁⟩ <;> rw [heq] at hfind
  · obtain ⟨hext, -⟩ := hfind
    have hmap := hext.inv.sliceMapLocked kmap gpa
    exact ⟨hext.trans hmap.1, hmap.2⟩
  · exact hfind

theorem Inv.resolveRun (h : s.Inv) (kmap : Kmap) (gpa len : Nat) :
    s.Extends (s.resolveRun kmap gpa len).2 ∧ (s.resolveRun kmap gpa len).1 ≤ len := by
  have hmap := h.mapSlice kmap gpa
  rw [Backing.resolveRun]
  split
  · exact ⟨h.refl, Nat.min_le_right ..⟩
  · rcases heq : s.mapSlice kmap gpa with ⟨_ | sl, s₁⟩ <;> rw [heq] at hmap
    · exact ⟨hmap.1, Nat.zero_le _⟩
    · exact ⟨hmap.1, Nat.min_le_right ..⟩

theorem Inv.resolveGpa (h : s.Inv) (kmap : Kmap) (gpa : Nat) (hlen : len < 2 ^ 64) :
    s.Extends (s.resolveGpa kmap gpa len).2 ∧ (len ≠ 0 → ∀ id, (s.resolveGpa kmap gpa len).1 = some (.slice id) →
      ∃ sl, sl.id = id ∧ (s.resolveGpa kmap gpa len).2.Found gpa 1 sl) := by
  rw [Backing.resolveGpa]
  split
  · exact ⟨h.refl, nofun⟩
  · have hfind := h.findSlice gpa hlen
    rcases heq : s.findSlice gpa len with ⟨_ | sl, s₁⟩ <;> rw [heq] at hfind
    · have hmap := hfind.1.inv.mapSlice kmap gpa
      dsimp only
      rcases heq : s₁.mapSlice kmap gpa with ⟨_ | sl, s₂⟩ <;> rw [heq] at hmap
      · exact ⟨hfind.1.trans hmap.1, nofun⟩
      · dsimp only
        split
        · exact ⟨hfind.1.trans hmap.1, nofun⟩
        · refine ⟨hfind.1.trans hmap.1, fun _ id hid => ⟨sl, ?_, hmap.2 sl rfl⟩⟩
          exact Target.slice.inj (Option.some.inj hid)
    · refine ⟨hfind.1, fun hne id hid => ⟨sl, ?_, (hfind.2 sl rfl).first hne⟩⟩
      exact Target.slice.inj (Option.some.inj hid)

theorem Inv.take (h : s.Inv) (hsl : sl ∈ s.slices) (lastUse : Nat → Nat) :
    Inv { s with
      pins := update s.pins sl.id (s.pins sl.id + 1), lastUse := lastUse, tokens := sl.id :: s.tokens } where
  nodup := h.nodup
  fresh := h.fresh
  lastHit := h.lastHit
  setsMapped := h.setsMapped
  setsNodup := h.setsNodup
  oneSet := h.oneSet
  tokensMapped := by
    intro id hid
    rcases List.mem_cons.mp hid with rfl | hid
    · exact ⟨sl, hsl, rfl⟩
    · exact h.tokensMapped id hid
  pins := by
    intro sl' hsl'
    have hpins := h.pins sl' hsl'
    simp only [owners, update_apply, List.count_cons, beq_iff_eq] at hpins ⊢
    by_cases heq : sl'.id = sl.id
    · rw [if_pos heq, if_pos heq.symm, ← heq, hpins]
      rfl
    · rw [if_neg heq, if_neg (Ne.symm heq), hpins]
      rfl

theorem Inv.unpin (h : s.Inv) {token : Nat} (htoken : token ∈ s.tokens) : (s.unpin token).Inv where
  nodup := h.nodup
  fresh := h.fresh
  lastHit := h.lastHit
  setsMapped := h.setsMapped
  setsNodup := h.setsNodup
  oneSet := h.oneSet
  tokensMapped := fun id hid => h.tokensMapped id (List.mem_of_mem_erase hid)
  pins := by
    intro sl hsl
    have hpins := h.pins sl hsl
    have hcount := List.count_pos_iff.mpr htoken
    simp only [owners, Backing.unpin, update_apply] at hpins ⊢
    by_cases heq : sl.id = token
    · subst heq
      rw [if_pos rfl, List.count_erase_self, hpins]
      exact Nat.add_sub_assoc hcount _
    · rw [if_neg heq, List.count_erase_of_ne heq, hpins]
      rfl

theorem Inv.resolveGpaPinned (h : s.Inv) (kmap : Kmap) (gpa len : Nat) : (s.resolveGpaPinned kmap gpa len).Inv ∧
    (s.resolveGpaPinned kmap gpa len).held = s.held ∧ (s.resolveGpaPinned kmap gpa len).resPins = s.resPins := by
  rw [Backing.resolveGpaPinned]
  split
  · exact ⟨h, rfl, rfl⟩
  · have hmap := h.sliceMapLocked kmap gpa
    rcases heq : s.sliceMapLocked kmap gpa with ⟨_ | sl, s₁⟩ <;> rw [heq] at hmap
    · exact ⟨hmap.1.inv, hmap.1.held, hmap.1.resPins⟩
    · dsimp only
      split
      · exact ⟨hmap.1.inv.take (hmap.2 sl rfl).mem _, hmap.1.held, hmap.1.resPins⟩
      · exact ⟨hmap.1.inv, hmap.1.held, hmap.1.resPins⟩

theorem colder_cases (s : Backing) (pick : Option Slice) (sl : Slice) :
    s.colder pick sl = pick ∨ s.pins sl.id = 0 ∧ s.colder pick sl = some sl := by
  unfold colder
  split
  · exact .inl rfl
  · rename_i hpins
    cases pick with
    | none => exact .inr ⟨not_not.mp hpins, rfl⟩
    | some best =>
      dsimp only
      split
      · exact .inr ⟨not_not.mp hpins, rfl⟩
      · exact .inl rfl

theorem foldl_colder {l : List Slice} {pick : Option Slice} (hl : ∀ sl ∈ l, sl ∈ s.slices)
    (hpick : ∀ sl ∈ pick, sl ∈ s.slices ∧ s.pins sl.id = 0) :
    ∀ sl ∈ l.foldl s.colder pick, sl ∈ s.slices ∧ s.pins sl.id = 0 := by
  induction l generalizing pick with
  | nil => exact hpick
  | cons sl l ih =>
    rw [List.foldl_cons]
    refine ih (fun sl' hsl' => hl sl' (List.mem_cons_of_mem _ hsl')) ?_
    rcases s.colder_cases pick sl with heq | ⟨hpins, heq⟩ <;> rw [heq]
    · exact hpick
    · rintro sl' ⟨⟩
      exact ⟨hl sl List.mem_cons_self, hpins⟩

theorem victim_spec {v : Slice} (h : s.victim = some v) : v ∈ s.slices ∧ s.pins v.id = 0 :=
  foldl_colder (fun _ hsl => hsl) (by simp) v h

theorem Inv.evict (h : s.Inv) {v : Slice} (hv : v ∈ s.slices) (hpins : s.pins v.id = 0) : (s.evict v).Inv := by
  obtain ⟨hsets, htokens⟩ := owners_eq_zero.mp ((h.pins v hv).symm.trans hpins)
  have hmapped : ∀ id, s.Mapped id → id ≠ v.id → (s.evict v).Mapped id := by
    rintro id ⟨sl, hsl, rfl⟩ hne
    exact ⟨sl, List.mem_filter.mpr ⟨hsl, decide_eq_true hne⟩, rfl⟩
  constructor
  case nodup => exact h.nodup.sublist (List.filter_sublist.map _)
  case fresh => exact fun sl hsl => h.fresh sl (List.mem_of_mem_filter hsl)
  case lastHit =>
    intro sl hsl
    obtain ⟨hlast, hne⟩ := Option.filter_eq_some_iff.mp hsl
    exact List.mem_filter.mpr ⟨h.lastHit sl hlast, hne⟩
  case setsMapped =>
    exact fun r hr id hid => hmapped id (h.setsMapped r hr id hid) fun heq => hsets r hr (heq ▸ hid)
  case setsNodup => exact h.setsNodup
  case oneSet => exact h.oneSet
  case tokensMapped => exact fun id hid => hmapped id (h.tokensMapped id hid) fun heq => htokens (heq ▸ hid)
  case pins => exact fun sl hsl => h.pins sl (List.mem_of_mem_filter hsl)

theorem Inv.evictLoop (h : s.Inv) (target turns : Nat) : (evictLoop target turns s).Inv ∧
    (evictLoop target turns s).held = s.held ∧ (evictLoop target turns s).resPins = s.resPins := by
  induction turns generalizing s with
  | zero => exact ⟨h, rfl, rfl⟩
  | succ turns ih =>
    rw [Backing.evictLoop]
    split
    · exact ⟨h, rfl, rfl⟩
    · split
      · exact ⟨h, rfl, rfl⟩
      · rename_i v hv
        obtain ⟨hmem, hpins⟩ := victim_spec hv
        exact ih (h.evict hmem hpins)

theorem Inv.ratchet (h : s.Inv) (raised : Option Nat) : (s.ratchet raised).Inv ∧
    (s.ratchet raised).held = s.held ∧ (s.ratchet raised).resPins = s.resPins := by
  cases raised with
  | none => exact ⟨h, rfl, rfl⟩
  | some next => exact ⟨{ h with }, rfl, rfl⟩

theorem Inv.slicesEvict (h : s.Inv) (raised : Option Nat) : (s.slicesEvict raised).Inv ∧
    (s.slicesEvict raised).held = s.held ∧ (s.slicesEvict raised).resPins = s.resPins := by
  obtain ⟨hinv, hheld, hpins⟩ := h.ratchet raised
  rw [Backing.slicesEvict]
  split
  · exact ⟨hinv, hheld, hpins⟩
  · obtain ⟨hinv', hheld', hpins'⟩ := hinv.evictLoop
      (ullong ((s.ratchet raised).capBytes + 2 ^ 64 - evictHeadroom)) (s.ratchet raised).slices.length
    exact ⟨hinv', hheld'.trans hheld, hpins'.trans hpins⟩

theorem foldl_update {f : Nat → Nat} {ids : List Nat} (hnodup : ids.Nodup) (pins : Nat → Nat) (id : Nat) :
    ids.foldl (fun pins id => update pins id (f (pins id))) pins id =
      if id ∈ ids then f (pins id) else pins id := by
  induction ids generalizing pins with
  | nil => rfl
  | cons x ids ih =>
    obtain ⟨hx, hnodup⟩ := List.nodup_cons.mp hnodup
    rw [List.foldl_cons, ih hnodup]
    by_cases heq : id = x
    · subst heq
      simp [hx]
    · simp [heq]

theorem owners_perm {t : Backing} {r : ResPin} (hsets : s.pinSets.Perm (r :: t.pinSets)) (htokens : t.tokens = s.tokens)
    (id : Nat) : s.owners id = t.owners id + if id ∈ r.slices then 1 else 0 := by
  rw [owners, owners, hsets.countP_eq, htokens, List.countP_cons]
  simp only [decide_eq_true_eq]
  omega

theorem Inv.unpinned (h : s.Inv) {r : ResPin} {t : List ResPin}
    (hsets : s.pinSets.Perm (r :: SlotTable.used ResPin.isFree t)) :
    ((s.unpinAll r.slices).setResPins t).Inv := by
  have hmem : ∀ {r'}, r' ∈ SlotTable.used ResPin.isFree t → r' ∈ s.pinSets := fun hr' =>
    hsets.mem_iff.mpr (List.mem_cons_of_mem r hr')
  have hr : r ∈ s.pinSets := hsets.mem_iff.mpr List.mem_cons_self
  constructor
  case nodup => exact h.nodup
  case fresh => exact h.fresh
  case lastHit => exact h.lastHit
  case setsMapped => exact fun r' hr' => h.setsMapped r' (hmem hr')
  case setsNodup => exact fun r' hr' => h.setsNodup r' (hmem hr')
  case oneSet => exact ((hsets.map ResPin.resId).nodup_iff.mp h.oneSet).of_cons
  case tokensMapped => exact h.tokensMapped
  case pins =>
    intro sl hsl
    have howners := owners_perm (t := ((s.unpinAll r.slices).setResPins t)) hsets rfl sl.id
    have hpins : ((s.unpinAll r.slices).setResPins t).pins sl.id =
        if sl.id ∈ r.slices then s.pins sl.id - 1 else s.pins sl.id :=
      foldl_update (f := (· - 1)) (h.setsNodup r hr) s.pins sl.id
    rw [hpins, h.pins sl hsl, howners]
    split
    · exact Nat.add_sub_cancel ..
    · rfl

theorem Inv.pinned (h : s.Inv) {r : ResPin} {t : List ResPin}
    (hsets : (SlotTable.used ResPin.isFree t).Perm (r :: s.pinSets)) (hnodup : r.slices.Nodup)
    (hmapped : ∀ id ∈ r.slices, s.Mapped id) (hnew : ∀ r' ∈ s.pinSets, r'.resId ≠ r.resId) :
    ((s.pinAll r.slices).setResPins t).Inv := by
  have hmem : ∀ {r'}, r' ∈ SlotTable.used ResPin.isFree t → r' = r ∨ r' ∈ s.pinSets := fun hr' =>
    List.mem_cons.mp (hsets.mem_iff.mp hr')
  constructor
  case nodup => exact h.nodup
  case fresh => exact h.fresh
  case lastHit => exact h.lastHit
  case setsMapped =>
    intro r' hr'
    rcases hmem hr' with rfl | hr'
    · exact hmapped
    · exact h.setsMapped r' hr'
  case setsNodup =>
    intro r' hr'
    rcases hmem hr' with rfl | hr'
    · exact hnodup
    · exact h.setsNodup r' hr'
  case oneSet =>
    refine (hsets.map ResPin.resId).nodup_iff.mpr (List.nodup_cons.mpr ⟨fun hin => ?_, h.oneSet⟩)
    obtain ⟨r', hr', heq⟩ := List.mem_map.mp hin
    exact hnew r' hr' heq
  case tokensMapped => exact h.tokensMapped
  case pins =>
    intro sl hsl
    have howners := owners_perm (s := ((s.pinAll r.slices).setResPins t)) (t := s) hsets rfl sl.id
    have hpins : ((s.pinAll r.slices).setResPins t).pins sl.id =
        if sl.id ∈ r.slices then s.pins sl.id + 1 else s.pins sl.id := foldl_update (f := (· + 1)) hnodup s.pins sl.id
    rw [hpins, h.pins sl hsl, howners]
    split <;> rfl

end MoCoLinux.Cogpu.Backing
