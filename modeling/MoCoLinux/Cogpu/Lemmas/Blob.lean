import Mathlib.Data.List.Nodup
import Mathlib.Data.List.Pairwise
import MoCoLinux.Cogpu.Blob

/-!
# The table, the windows and the renderer stay together
-/

namespace MoCoLinux.Cogpu

open Function

/-! ## The table -/

section Table

variable {t t' : List BlobMap} {b : BlobMap} {resId : Nat} {grows : Bool}

theorem blobMapFind_some (h : blobMapFind t resId = some b) :
    b ∈ SlotTable.used BlobMap.isFree t ∧ b.resId = resId := by
  rw [blobMapFind] at h
  split at h
  · cases h
  · rename_i hne
    have hid : b.resId = resId := by simpa using List.find?_some h
    refine ⟨SlotTable.mem_used.mpr ⟨List.mem_of_find?_eq_some h, ?_⟩, hid⟩
    simp [BlobMap.isFree, hid, hne]

theorem blobMapFind_none (h : blobMapFind t resId = none) (hb : b ∈ SlotTable.used BlobMap.isFree t) :
    b.resId ≠ resId := by
  obtain ⟨hmem, hfree⟩ := SlotTable.mem_used.mp hb
  rintro rfl
  have hne : b.resId ≠ 0 := by simpa [BlobMap.isFree] using hfree
  rw [blobMapFind, if_neg hne] at h
  exact absurd (List.find?_eq_none.mp h b hmem) (by simp)

theorem blobMapTrack_perm (hb : b.resId ≠ 0) (h : blobMapTrack t grows b = some t') :
    (SlotTable.used BlobMap.isFree t').Perm (b :: SlotTable.used BlobMap.isFree t) := by
  have hfree : b.isFree = false := by simpa [BlobMap.isFree] using hb
  rw [blobMapTrack] at h
  split at h
  · rename_i t₁ hplace
    cases h
    exact SlotTable.place_perm hfree hplace
  · cases grows with
    | false => cases h
    | true =>
      simp only [if_true, Option.some.injEq] at h
      subst h
      have hempty : BlobMap.isFree ⟨0, 0, 0, 0, 0⟩ = true := rfl
      rw [SlotTable.used_append, SlotTable.used_cons, SlotTable.used_replicate hempty, hfree]
      exact List.perm_append_singleton _ _

theorem mem_eraseP_resId {l : List BlobMap} (h : (l.map BlobMap.resId).Nodup) (b : BlobMap) :
    (b ∈ l.eraseP fun b => b.resId == resId) ↔ b ∈ l ∧ b.resId ≠ resId := by
  induction l with
  | nil => simp
  | cons a l ih =>
    rw [List.map_cons, List.nodup_cons] at h
    by_cases ha : a.resId = resId
    · rw [List.eraseP_cons_of_pos (by simpa using ha), List.mem_cons]
      refine ⟨fun hb => ⟨.inr hb, fun hid => h.1 ?_⟩, ?_⟩
      · rw [ha, ← hid]
        exact List.mem_map_of_mem hb
      · rintro ⟨rfl | hb, hid⟩
        · exact absurd ha hid
        · exact hb
    · rw [List.eraseP_cons_of_neg (by simpa using ha), List.mem_cons, List.mem_cons, ih h.2]
      refine ⟨?_, ?_⟩
      · rintro (rfl | hb)
        · exact ⟨.inl rfl, ha⟩
        · exact ⟨.inr hb.1, hb.2⟩
      · rintro ⟨rfl | hb, hid⟩
        · exact .inl rfl
        · exact .inr ⟨hb, hid⟩

theorem used_blobMapForget (hne : resId ≠ 0) : SlotTable.used BlobMap.isFree (blobMapForget t resId) =
    (SlotTable.used BlobMap.isFree t).eraseP fun b => b.resId == resId := by
  rw [blobMapForget, if_neg hne]
  refine SlotTable.used_modifyFirst (fun b hb => ?_) (fun b => rfl) t
  rw [beq_iff_eq] at hb
  simp [BlobMap.isFree, hb, hne]

end Table

/-! ## The renderer -/

namespace Renderer

variable {r : Renderer} {resId i x : Nat} {ok : Bool}

theorem create_cases (r : Renderer) (ok : Bool) (resId : Nat) : r.create ok resId = (false, r) ∨
    resId ≠ 0 ∧ r.live resId = none ∧ r.create ok resId =
      (true, { r with live := update r.live resId (some r.created), created := r.created + 1 }) := by
  rw [create]
  split
  · rename_i h
    exact .inr ⟨h.2.1, h.2.2, rfl⟩
  · exact .inl rfl

theorem map_cases (r : Renderer) (answer : Option (Nat × Nat)) (resId : Nat) : r.map answer resId = (none, r) ∨
    ∃ x va size, answer = some (va, size) ∧ r.live resId = some x ∧ r.held x = none ∧
      r.map answer resId = (some (va, size), { r with held := update r.held x (some va) }) := by
  unfold map
  split
  · rename_i x va size hlive
    split
    · rename_i hheld
      exact .inr ⟨x, va, size, rfl, hlive, hheld, rfl⟩
    · exact .inl rfl
  · exact .inl rfl

theorem unmap_of_live (h : r.live resId = some x) :
    r.unmap ok resId = { r with held := if ok then update r.held x none else r.held } := by
  rw [unmap, h]
  cases ok <;> rfl

theorem unref_cases (r : Renderer) (resId : Nat) : r.unref resId = r ∨ ∃ x, r.live resId = some x ∧
    r.unref resId =
      { r with live := update r.live resId none, held := update r.held x none } := by
  rw [unref]
  split
  · rename_i x hlive
    exact .inr ⟨x, hlive, rfl⟩
  · exact .inl rfl

end Renderer

namespace Gpu

variable {s : Gpu} {resId : Nat}

def IsBridge (resId : Nat) : Prop := ∃ i < bridgeSlots, resId = bridgeRes i

structure Inv (s : Gpu) : Prop where
  unique : (s.entries.map BlobMap.resId).Nodup
  names : ∀ b ∈ s.entries, window b ∈ s.windows ∧ s.renderer.live b.resId = some b.resource ∧
    s.renderer.held b.resource = some b.hostVa
  foreign : ∀ b ∈ s.entries, ¬ IsBridge b.resId
  window : ∀ w ∈ s.windows, ∃ b ∈ s.entries, window b = w
  size : ∀ w ∈ s.windows, 0 < w.bytes
  apart : s.windows.Pairwise fun w w' => ¬ Overlaps w w'
  zero : s.renderer.live 0 = none
  named : ∀ i j x, s.renderer.live i = some x → s.renderer.live j = some x → i = j
  fresh : ∀ i x, s.renderer.live i = some x → x < s.renderer.created
  reads : ∀ r ∈ s.reads, r.2 = some r.1

theorem initial_inv (base top : Nat) : (initial base top).Inv where
  unique := List.nodup_nil
  names b hb := absurd hb List.not_mem_nil
  foreign b hb := absurd hb List.not_mem_nil
  window w hw := absurd hw List.not_mem_nil
  size w hw := absurd hw List.not_mem_nil
  apart := List.Pairwise.nil
  zero := rfl
  named i j x h := by cases h
  fresh i x h := by cases h
  reads r hr := absurd hr List.not_mem_nil

theorem Inv.exact (h : s.Inv) : s.Exact where
  unique := h.unique
  entry resId := by
    constructor
    · rintro ⟨b, hb, rfl⟩
      obtain ⟨hw, hlive, hheld⟩ := h.names b hb
      exact ⟨b.resource, hlive, by rw [hheld]; rfl, _, hw, rfl⟩
    · rintro ⟨x, hlive, -, w, hw, rfl⟩
      obtain ⟨b, hb, rfl⟩ := h.window w hw
      exact ⟨b, hb, h.named _ _ _ (h.names b hb).2.1 hlive⟩
  names := h.names
  released w hw := by
    obtain ⟨b, hb, rfl⟩ := h.window w hw
    exact ⟨b.resId, (h.names b hb).2.1⟩
  reads := h.reads

/-! ## What each call of the renderer does to it -/

theorem Inv.setHeld (h : s.Inv) {x : Nat} (hx : s.renderer.held x = none) (v : Option Nat) :
    { s with renderer := { s.renderer with held := update s.renderer.held x v } }.Inv where
  unique := h.unique
  names b hb := by
    obtain ⟨hw, hlive, hheld⟩ := h.names b hb
    refine ⟨hw, hlive, ?_⟩
    have hne : b.resource ≠ x := by
      rintro rfl
      rw [hx] at hheld
      cases hheld
    simpa [update_of_ne hne] using hheld
  foreign := h.foreign
  window := h.window
  size := h.size
  apart := h.apart
  zero := h.zero
  named := h.named
  fresh := h.fresh
  reads := h.reads

theorem Inv.create (h : s.Inv) (ok : Bool) (resId : Nat) :
    { s with renderer := (s.renderer.create ok resId).2 }.Inv := by
  rcases s.renderer.create_cases ok resId with hc | ⟨hzero, hnone, hc⟩
  · rw [hc]
    exact h
  · rw [hc]
    have hne : ∀ {i x}, s.renderer.live i = some x → i ≠ resId := by
      rintro i x hlive rfl
      rw [hnone] at hlive
      cases hlive
    -- the new resource has a number no id has
    have hlive : ∀ {i x}, update s.renderer.live resId (some s.renderer.created) i = some x →
        i = resId ∧ x = s.renderer.created ∨ s.renderer.live i = some x := by
      intro i x hi
      by_cases hir : i = resId
      · subst hir
        rw [update_self, Option.some.injEq] at hi
        exact .inl ⟨rfl, hi.symm⟩
      · rw [update_of_ne hir] at hi
        exact .inr hi
    refine ⟨h.unique, fun b hb => ?_, h.foreign, h.window, h.size, h.apart,
      (update_of_ne hzero.symm _ _).trans h.zero, fun i j x hi hj => ?_, fun i x hi => ?_, h.reads⟩
    · obtain ⟨hw, hl, hheld⟩ := h.names b hb
      exact ⟨hw, (update_of_ne (hne hl) _ _).trans hl, hheld⟩
    · rcases hlive hi with ⟨hir, hx⟩ | hold <;> rcases hlive hj with ⟨hjr, hx'⟩ | hold'
      · rw [hir, hjr]
      · exact absurd (h.fresh _ _ hold') (by omega)
      · exact absurd (h.fresh _ _ hold) (by omega)
      · exact h.named _ _ _ hold hold'
    · rcases hlive hi with ⟨rfl, rfl⟩ | hi
      · exact Nat.lt_succ_self _
      · exact Nat.lt_succ_of_lt (h.fresh _ _ hi)

theorem Inv.unref (h : s.Inv) (hfree : ∀ b ∈ s.entries, b.resId ≠ resId) :
    { s with renderer := s.renderer.unref resId }.Inv := by
  rcases s.renderer.unref_cases resId with hu | ⟨x, hx, hu⟩
  · rw [hu]
    exact h
  · rw [hu]
    have hlive : ∀ {i y}, update s.renderer.live resId none i = some y → s.renderer.live i = some y := by
      intro i y hi
      by_cases hir : i = resId
      · subst hir
        rw [update_self] at hi
        cases hi
      · rwa [update_of_ne hir] at hi
    have hzero : update s.renderer.live resId none 0 = none := by
      rw [update_apply, h.zero, ite_self]
    refine ⟨h.unique, fun b hb => ?_, h.foreign, h.window, h.size, h.apart, hzero,
      fun i j y hi hj => h.named i j y (hlive hi) (hlive hj), fun i y hi => h.fresh i y (hlive hi), h.reads⟩
    obtain ⟨hw, hl, hheld⟩ := h.names b hb
    have hne : b.resource ≠ x := by
      rintro rfl
      exact hfree b hb (h.named _ _ _ hl hx)
    exact ⟨hw, (update_of_ne (hfree b hb) _ _).trans hl, (update_of_ne hne _ _).trans hheld⟩

/-! ## Windows -/

theorem eraseP_congr {α : Type} {p q : α → Bool} {l : List α} (h : ∀ a ∈ l, p a = q a) : l.eraseP p = l.eraseP q := by
  induction l with
  | nil => rfl
  | cons a l ih =>
    rw [List.eraseP_cons, List.eraseP_cons, h a List.mem_cons_self, ih fun b hb => h b (List.mem_cons_of_mem a hb)]

theorem Overlaps.self {w : Window} (h : 0 < w.bytes) : Overlaps w w := ⟨by omega, by omega⟩

theorem Inv.window_eq (h : s.Inv) {w w' : Window} (hw : w ∈ s.windows) (hw' : w' ∈ s.windows)
    (hpa : w.pseudoPa = w'.pseudoPa) (hbytes : w.bytes = w'.bytes) : w = w' := by
  by_contra hne
  have hsize := h.size w hw
  have : Std.Symm fun v v' : Window => ¬ Overlaps v v' := ⟨fun v v' hn ho => hn ⟨ho.2, ho.1⟩⟩
  exact h.apart.forall hw hw' hne ⟨by omega, by omega⟩

theorem Inv.mem_kunwindow (h : s.Inv) {v : Window} (hv : v ∈ s.windows) (w : Window) :
    w ∈ (s.kunwindow true v.pseudoPa v.bytes).windows ↔ w ∈ s.windows ∧ w ≠ v := by
  have hnodup : s.windows.Nodup := h.apart.imp_of_mem fun {w w'} hw _ hn heq => by
    subst heq
    exact hn (Overlaps.self (h.size w hw))
  have hp : ∀ w ∈ s.windows, decide (w.pseudoPa = v.pseudoPa ∧ w.bytes = v.bytes) = (v == w) := by
    intro w hw
    rw [Bool.eq_iff_iff, decide_eq_true_iff, beq_iff_eq]
    exact ⟨fun hsame => (h.window_eq hw hv hsame.1 hsame.2).symm, fun heq => by rw [heq]; exact ⟨rfl, rfl⟩⟩
  have herase : (s.kunwindow true v.pseudoPa v.bytes).windows = s.windows.erase v := by
    rw [kunwindow, if_pos rfl, List.erase_eq_eraseP]
    exact eraseP_congr hp
  rw [herase, hnodup.mem_erase_iff, and_comm]

theorem kwindowAt_cases (s : Gpu) (answer : WindowAnswer) (w : Window) : ∃ forwarded,
    s.kwindowAt answer w = (false, { s with forwarded := forwarded }) ∨
    answer = .onlyReported ∧ s.kwindowAt answer w = (true, { s with forwarded := forwarded }) ∨
    0 < w.bytes ∧ (∀ w' ∈ s.windows, ¬ Overlaps w w') ∧
      s.kwindowAt answer w = (true, { s with forwarded := forwarded, windows := w :: s.windows }) := by
  refine ⟨s.forwarded ++ [(w.pseudoPa, w.bytes)], ?_⟩
  rw [kwindowAt]
  split
  · exact .inl rfl
  · rename_i hno
    simp only [not_or, not_exists, not_and] at hno
    obtain ⟨hanswer, hbytes, hclear⟩ := hno
    cases answer with
    | refused => exact absurd rfl hanswer
    | mapped => exact .inr (.inr ⟨Nat.pos_of_ne_zero hbytes, hclear, rfl⟩)
    | onlyReported => exact .inr (.inl ⟨rfl, rfl⟩)

/-! ## The requests -/

theorem Inv.setForwarded (h : s.Inv) (forwarded : List (Nat × Nat)) : { s with forwarded := forwarded }.Inv :=
  { h with }

def mapping (s : Gpu) (x : Nat) (v : Option Nat) : Gpu :=
  { s with renderer := { s.renderer with held := update s.renderer.held x v } }

theorem mapping_resourceUnmap {x va : Nat} (hlive : s.renderer.live resId = some x) (ok : Bool) :
    (s.mapping x (some va)).resourceUnmap ok resId = s.mapping x (if ok then none else some va) := by
  have hlive' : (s.mapping x (some va)).renderer.live resId = some x := hlive
  rw [resourceUnmap, Renderer.unmap_of_live hlive']
  cases ok with
  | false => rfl
  | true => simp [mapping]

theorem Inv.track (h : s.Inv) {x va : Nat} {t : List BlobMap} {grows : Bool} {w : Window}
    (hlive : s.renderer.live resId = some x) (hheld : s.renderer.held x = none)
    (hnew : ∀ b ∈ s.entries, b.resId ≠ resId) (hforeign : ¬ IsBridge resId) (hw : w.resource = x)
    (hbytes : 0 < w.bytes) (hclear : ∀ w' ∈ s.windows, ¬ Overlaps w w')
    (ht : blobMapTrack s.blobMap grows ⟨resId, w.pseudoPa, w.bytes, va, w.resource⟩ = some t) :
    { s.mapping x (some va) with windows := w :: s.windows, blobMap := t }.Inv := by
  have hne : resId ≠ 0 := by
    rintro rfl
    rw [h.zero] at hlive
    cases hlive
  have hperm := blobMapTrack_perm hne ht
  have hmem : ∀ b, b ∈ SlotTable.used BlobMap.isFree t ↔
      b = ⟨resId, w.pseudoPa, w.bytes, va, w.resource⟩ ∨ b ∈ s.entries := fun b => by
    rw [hperm.mem_iff, List.mem_cons, entries]
  have hold := h.setHeld hheld (some va)
  refine ⟨?_, fun b hb => ?_, fun b hb => ?_, fun v hv => ?_, fun v hv => ?_, ?_, h.zero, h.named, h.fresh, h.reads⟩
  · refine ((hperm.map BlobMap.resId).nodup_iff).mpr (List.nodup_cons.mpr ⟨fun hin => ?_, h.unique⟩)
    obtain ⟨b, hb, hid⟩ := List.mem_map.mp hin
    exact hnew b hb hid
  · rcases (hmem b).mp hb with rfl | hb
    · refine ⟨List.mem_cons_self, hw ▸ hlive, ?_⟩
      simp [mapping, hw]
    · obtain ⟨hwin, hl, hh⟩ := hold.names b hb
      exact ⟨List.mem_cons_of_mem _ hwin, hl, hh⟩
  · rcases (hmem b).mp hb with rfl | hb
    · exact hforeign
    · exact h.foreign b hb
  · rcases List.mem_cons.mp hv with rfl | hv
    · exact ⟨_, (hmem _).mpr (.inl rfl), rfl⟩
    · obtain ⟨b, hb, hbv⟩ := h.window v hv
      exact ⟨b, (hmem b).mpr (.inr hb), hbv⟩
  · rcases List.mem_cons.mp hv with rfl | hv
    · exact hbytes
    · exact h.size v hv
  · exact List.pairwise_cons.mpr ⟨hclear, h.apart⟩

theorem Inv.mapWindow (h : s.Inv) {x va : Nat} (hlive : s.renderer.live resId = some x)
    (hheld : s.renderer.held x = none) (hnew : ∀ b ∈ s.entries, b.resId ≠ resId) (hforeign : ¬ IsBridge resId)
    {a : MapAnswers} (hanswer : a.window ≠ .onlyReported) (hunwindow : a.unwindowOk = true) (offset size : Nat) :
    ((s.mapping x (some va)).mapWindow resId offset va size a).2.Inv := by
  have hundone : ∀ ok forwarded, ({ s.mapping x (some va) with forwarded := forwarded }.resourceUnmap ok resId).Inv := by
    intro ok forwarded
    have heq : ({ s.mapping x (some va) with forwarded := forwarded }).resourceUnmap ok resId =
        { s.mapping x (if ok then none else some va) with forwarded := forwarded } := by
      rw [← mapping_resourceUnmap hlive ok]
      rfl
    rw [heq]
    exact (h.setHeld hheld _).setForwarded forwarded
  have hres : ((s.mapping x (some va)).renderer.live resId).getD 0 = x := by
    have hl : (s.mapping x (some va)).renderer.live resId = some x := hlive
    rw [hl, Option.getD_some]
  rw [Gpu.mapWindow, hres]
  split
  · exact hundone a.unmapOk s.forwarded
  · obtain ⟨forwarded, hk⟩ := (s.mapping x (some va)).kwindowAt_cases a.window
      ⟨ullong ((s.mapping x (some va)).windowBase + offset), mappedBytes size, x⟩
    rcases hk with hk | ⟨hreported, -⟩ | ⟨hbytes, hclear, hk⟩
    · rw [hk]
      exact hundone a.unmapOk forwarded
    · exact absurd hreported hanswer
    · rw [hk]
      dsimp only
      split
      · -- the driver's window goes again, being the first that matches
        rw [hunwindow, kunwindow, if_pos rfl]
        dsimp only
        rw [List.eraseP_cons_of_pos (by simp)]
        exact hundone a.unmapOk forwarded
      · rename_i t ht
        exact (h.track hlive hheld hnew hforeign rfl hbytes hclear ht).setForwarded forwarded

theorem Inv.mapBlob (h : s.Inv) (hforeign : ¬ IsBridge resId) {a : MapAnswers} (hanswer : a.window ≠ .onlyReported)
    (hunwindow : a.unwindowOk = true) (offset : Nat) : (s.mapBlob resId offset a).2.Inv := by
  rw [Gpu.mapBlob]
  split
  · exact h
  · rename_i hfind
    have hnew : ∀ b ∈ s.entries, b.resId ≠ resId := fun b hb =>
      blobMapFind_none (by simpa using hfind) hb
    rcases s.renderer.map_cases a.map resId with hmap | ⟨x, va, size, -, hlive, hheld, hmap⟩
    · rw [hmap]
      exact h
    · rw [hmap]
      dsimp only
      split
      · exact h.setHeld hheld (some va)
      · split
        · have hundone : (s.mapping x (some va)).resourceUnmap a.unmapOk resId = _ :=
            mapping_resourceUnmap hlive a.unmapOk
          exact hundone ▸ h.setHeld hheld _
        · exact h.mapWindow hlive hheld hnew hforeign hanswer hunwindow offset size

def without (s : Gpu) (bm : BlobMap) (unmapOk : Bool) : Gpu :=
  { s with
    blobMap := blobMapForget s.blobMap bm.resId
    windows := (s.kunwindow true bm.pseudoPa bm.bytes).windows
    renderer := { s.renderer with
      held := if unmapOk then update s.renderer.held bm.resource none else s.renderer.held } }

theorem Inv.without (h : s.Inv) {bm : BlobMap} (hbm : bm ∈ s.entries) (unmapOk : Bool) :
    (s.without bm unmapOk).Inv := by
  obtain ⟨hwin, hlive, hheld⟩ := h.names bm hbm
  have hne : bm.resId ≠ 0 := by
    intro hzero
    rw [hzero, h.zero] at hlive
    cases hlive
  -- the entries left are those of the other ids
  have hentries : (s.without bm unmapOk).entries = s.entries.eraseP fun b => b.resId == bm.resId :=
    used_blobMapForget hne
  have hmem : ∀ b, b ∈ (s.without bm unmapOk).entries ↔ b ∈ s.entries ∧ b.resId ≠ bm.resId := by
    rw [hentries]
    exact mem_eraseP_resId h.unique
  have hkept : ∀ b ∈ s.entries, b.resId ≠ bm.resId → b.resource ≠ bm.resource := by
    intro b hb hbid heq
    have hl := (h.names b hb).2.1
    rw [heq] at hl
    exact hbid (h.named _ _ _ hl hlive)
  have hwindows : ∀ w, w ∈ (s.without bm unmapOk).windows ↔ w ∈ s.windows ∧ w ≠ Gpu.window bm :=
    h.mem_kunwindow hwin
  refine ⟨?_, fun b hb => ?_, fun b hb => ?_, fun w hw => ?_, fun w hw => ?_, ?_, h.zero, h.named, h.fresh, h.reads⟩
  · rw [hentries]
    exact h.unique.sublist (List.eraseP_sublist.map _)
  · obtain ⟨hold, hbid⟩ := (hmem b).mp hb
    obtain ⟨hw, hl, hh⟩ := h.names b hold
    refine ⟨(hwindows _).mpr ⟨hw, fun heq => hkept b hold hbid (congrArg Window.resource heq)⟩, hl, ?_⟩
    cases unmapOk with
    | false => exact hh
    | true => exact (update_of_ne (hkept b hold hbid) _ _).trans hh
  · exact h.foreign b ((hmem b).mp hb).1
  · obtain ⟨hw, hwne⟩ := (hwindows w).mp hw
    obtain ⟨b, hb, rfl⟩ := h.window w hw
    refine ⟨b, (hmem b).mpr ⟨hb, fun hbid => hwne ?_⟩, rfl⟩
    rw [List.inj_on_of_nodup_map h.unique hb hbm hbid]
  · exact h.size w ((hwindows w).mp hw).1
  · exact h.apart.sublist List.eraseP_sublist

theorem Inv.unmapBlob (h : s.Inv) (resId : Nat) (unmapOk : Bool) : (s.unmapBlob resId true unmapOk).2.Inv := by
  rw [Gpu.unmapBlob]
  split
  · exact h
  · rename_i bm hfind
    obtain ⟨hbm, rfl⟩ := blobMapFind_some hfind
    have hlive : (s.kunwindow true bm.pseudoPa bm.bytes).renderer.live bm.resId = some bm.resource :=
      (h.names bm hbm).2.1
    rw [resourceUnmap, Renderer.unmap_of_live hlive]
    exact h.without hbm unmapOk

/-! ## The daemon's own textures -/

theorem Inv.setBridge (h : s.Inv) (bridge : Nat → BridgeSlot) (clock : Nat) :
    { s with bridge := bridge, bridgeClock := clock }.Inv :=
  { h with }

theorem Inv.dropSlot (h : s.Inv) {i : Nat} (hi : i < bridgeSlots) : (s.dropSlot i).Inv := by
  rw [Gpu.dropSlot]
  split
  · exact h.unref fun b hb hid => h.foreign b hb ⟨i, hi, hid⟩
  · exact h

theorem findSlot_lt {p : BridgeSlot → Bool} {i : Nat} (h : s.findSlot p = some i) : i < bridgeSlots :=
  List.mem_range.mp (List.mem_of_find?_eq_some h)

theorem oldestSlot_lt (s : Gpu) : s.oldestSlot < bridgeSlots := by
  have hfold : ∀ (l : List Nat) (pick : Nat), pick < bridgeSlots → (∀ i ∈ l, i < bridgeSlots) →
      l.foldl (fun pick i => if (s.bridge i).used < (s.bridge pick).used then i else pick) pick < bridgeSlots := by
    intro l
    induction l with
    | nil => exact fun pick hpick _ => hpick
    | cons i l ih =>
      intro pick hpick hl
      have hnext : (if (s.bridge i).used < (s.bridge pick).used then i else pick) < bridgeSlots := by
        split
        · exact hl i List.mem_cons_self
        · exact hpick
      exact ih _ hnext fun j hj => hl j (List.mem_cons_of_mem i hj)
  exact hfold _ 0 (by decide) fun i hi => List.mem_range.mp hi

theorem Inv.pickSlot (h : s.Inv) (xid : Nat) : (s.pickSlot xid).1 < bridgeSlots ∧ (s.pickSlot xid).2.Inv := by
  rw [Gpu.pickSlot]
  split
  · rename_i i hfind
    exact ⟨findSlot_lt hfind, h⟩
  · split
    · rename_i i hfind
      exact ⟨findSlot_lt hfind, h⟩
    · exact ⟨s.oldestSlot_lt, (h.dropSlot s.oldestSlot_lt).setBridge _ _⟩

theorem dropSlot_blobMap (s : Gpu) (i : Nat) : (s.dropSlot i).blobMap = s.blobMap := by
  rw [Gpu.dropSlot]
  split <;> rfl

theorem pickSlot_blobMap (s : Gpu) (xid : Nat) : (s.pickSlot xid).2.blobMap = s.blobMap := by
  rw [Gpu.pickSlot]
  split
  · rfl
  · split
    · rfl
    · exact s.dropSlot_blobMap _

theorem Inv.bridgeResource (h : s.Inv) (ok : Bool) (xid ctxId width height : Nat) :
    (s.bridgeResource ok xid ctxId width height).2.Inv ∧
      (s.bridgeResource ok xid ctxId width height).2.blobMap = s.blobMap := by
  obtain ⟨hpick, hinv⟩ := h.pickSlot xid
  have hmap := s.pickSlot_blobMap xid
  rw [Gpu.bridgeResource]
  rcases hp : s.pickSlot xid with ⟨pick, s₁⟩
  rw [hp] at hpick hinv hmap
  dsimp only at hpick hinv hmap ⊢
  split
  · exact ⟨hinv.setBridge _ _, hmap⟩
  · generalize hs₂ : Gpu.dropSlot _ pick = s₂
    have hinv₂ : s₂.Inv := hs₂ ▸ (hinv.setBridge _ _).dropSlot hpick
    have hmap₂ : s₂.blobMap = s.blobMap := by
      rw [← hs₂, dropSlot_blobMap]
      exact hmap
    have hcreated := hinv₂.create ok (bridgeRes pick)
    rcases hc : s₂.renderer.create ok (bridgeRes pick) with ⟨made, renderer⟩
    rw [hc] at hcreated
    cases made with
    | true => exact ⟨hcreated.setBridge _ _, hmap₂⟩
    | false => exact ⟨hinv₂.setBridge _ _, hmap₂⟩

theorem Inv.present (h : s.Inv) (resId : Nat) (f : Frame) (bridgeOk uploadOk : Bool) :
    (s.present resId f bridgeOk uploadOk).2.Inv := by
  rw [Gpu.present]
  split
  · exact h
  · rename_i bm hfind
    split
    · exact h
    · obtain ⟨hinv, hmap⟩ := h.bridgeResource bridgeOk f.xid f.ctxId f.width f.height
      rcases hb : s.bridgeResource bridgeOk f.xid f.ctxId f.width f.height with ⟨made, s₁⟩
      rw [hb] at hinv hmap
      dsimp only at hinv hmap
      cases made with
      | false => exact hinv
      | true =>
        obtain ⟨hbm, rfl⟩ := blobMapFind_some hfind
        have hbm₁ : bm ∈ s₁.entries := by rwa [entries, hmap]
        obtain ⟨-, hlive, hheld⟩ := hinv.names bm hbm₁
        refine { hinv with reads := fun r hr => ?_ }
        rcases List.mem_cons.mp hr with rfl | hr
        · rw [holding, hlive, Option.bind_some, hheld]
        · exact hinv.reads r hr

end Gpu

end MoCoLinux.Cogpu
