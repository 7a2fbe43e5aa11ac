import MoCoLinux.Arch.Lemmas.Entry
import MoCoLinux.Cogpu.Lemmas.Blob

/-!
# Blobs in the window arena: results
-/

namespace MoCoLinux.Cogpu.Gpu

variable {s : Gpu} {resId offset va size : Nat} {a : MapAnswers}

/-- A resource is released only after its blob was unmapped, no blob has an id of the daemon's own textures, and the
driver tells the truth of a new window and releases every window it is asked to. -/
def Careful (s : Gpu) : Request → Prop
  | .unref resId => blobMapFind s.blobMap resId = none
  | .mapBlob resId _ a => ¬ IsBridge resId ∧ a.window ≠ .onlyReported ∧ a.unwindowOk = true
  | .unmapBlob _ unwindowOk _ => unwindowOk = true
  | .createBlob _ _ => True
  | .present _ _ _ _ => True

theorem Inv.serve (h : s.Inv) {request : Request} (hc : Careful s request) : (s.serve request).2.Inv := by
  cases request with
  | createBlob resId ok =>
    have hcreated := h.create ok resId
    rw [Gpu.serve, Gpu.createBlob]
    split
    · rename_i renderer hc
      rwa [hc] at hcreated
    · exact h
  | mapBlob resId offset a => exact h.mapBlob hc.1 hc.2.1 hc.2.2 offset
  | unmapBlob resId unwindowOk unmapOk =>
    cases hc
    exact h.unmapBlob resId unmapOk
  | present resId f bridgeOk uploadOk => exact h.present resId f bridgeOk uploadOk
  | unref resId => exact h.unref fun b hb => blobMapFind_none hc hb

/-- In every run of careful requests the table has one entry for each id with a window and a mapping of its live
resource, and no other; no window shows a released resource, and MOCO_PRESENT reads through none. -/
theorem blob_table_exact (s : Gpu) (h : Reachable Careful s) : s.Exact := by
  refine (Runs.Reach.invariant (P := Inv) (fun s hs => ?_) (fun s request s' hinv hs => ?_) h).exact
  · obtain ⟨base, top, rfl⟩ := hs
    exact initial_inv base top
  · obtain ⟨hc, rfl⟩ := hs
    exact hinv.serve hc

def wellMapped (va size : Nat) : MapAnswers := ⟨some (va, size), .mapped, true, true, true⟩

def mappedOnce : Gpu :=
  (((initial 0x40000000 0x140000000).serve (.createBlob 5 true)).2.serve
    (.mapBlob 5 0 (wellMapped 0x7f0000000000 0x2000))).2

theorem blob_table_exact_mapped :
    mappedOnce.Exact ∧ mappedOnce.windows = [⟨0x40000000, 0x2000, 0⟩] := by
  have hbridge : ¬ IsBridge 5 := by
    rintro ⟨i, -, hi⟩
    unfold bridgeRes at hi
    omega
  have h₀ : Reachable Careful (initial 0x40000000 0x140000000) := .start ⟨_, _, rfl⟩
  have h₁ := h₀.next (a := Request.createBlob 5 true) ⟨trivial, rfl⟩
  have h₂ := h₁.next (a := Request.mapBlob 5 0 (wellMapped 0x7f0000000000 0x2000))
    ⟨⟨hbridge, by decide, rfl⟩, rfl⟩
  exact ⟨blob_table_exact _ h₂, by decide +kernel⟩

def presentedStale : Gpu :=
  ((mappedOnce.serve (.unref 5)).2.serve (.present 5 ⟨1, 1, 8, 8, 32⟩ true true)).2

/-- After the release of a mapped blob its window and its entry are still there, and MOCO_PRESENT reads through the
entry. -/
theorem unref_keeps_window : Reachable (fun _ _ => True) presentedStale ∧
    presentedStale.windows = [⟨0x40000000, 0x2000, 0⟩] ∧ presentedStale.renderer.live 5 = none ∧
    presentedStale.reads = [(0x7f0000000000, none)] ∧ ¬ presentedStale.Exact := by
  have hreads : presentedStale.reads = [(0x7f0000000000, none)] := by decide +kernel
  refine ⟨?_, by decide +kernel, by decide +kernel, hreads, fun hexact => ?_⟩
  · have h₀ : Reachable (fun _ _ => True) (initial 0x40000000 0x140000000) := .start ⟨_, _, rfl⟩
    have h₁ := h₀.next (a := Request.createBlob 5 true) ⟨trivial, rfl⟩
    have h₂ := h₁.next (a := Request.mapBlob 5 0 (wellMapped 0x7f0000000000 0x2000)) ⟨trivial, rfl⟩
    have h₃ := h₂.next (a := Request.unref 5) ⟨trivial, rfl⟩
    exact h₃.next (a := Request.present 5 ⟨1, 1, 8, 8, 32⟩ true true) ⟨trivial, rfl⟩
  · have hread := hexact.reads (0x7f0000000000, none) (by rw [hreads]; exact List.mem_singleton_self _)
    cases hread

/-- The window of an offset and a size, as a range of natural numbers, lies in the arena. -/
def InArena (s : Gpu) (offset size : Nat) : Prop :=
  s.windowBase + offset + (size + 4095) / 4096 * 4096 ≤ s.windowTop

/-- MAP_BLOB comes as far as the check: the id is not mapped yet, and the renderer maps it on a page boundary. -/
def Checked (s : Gpu) (resId va : Nat) : Prop :=
  blobMapFind s.blobMap resId = none ∧ (∃ x, s.renderer.live resId = some x ∧ s.renderer.held x = none) ∧
    va &&& 0xfff = 0

/-- The end of the window passes 2^64 and comes out below the top of the arena, though its beginning does not pass. -/
def EndWraps (s : Gpu) (offset size : Nat) : Prop :=
  s.windowTop ≠ 0 ∧ s.windowBase + offset < 2 ^ 64 ∧
    2 ^ 64 ≤ s.windowBase + offset + (size + 4095) / 4096 * 4096 ∧
    s.windowBase + offset + (size + 4095) / 4096 * 4096 ≤ 2 ^ 64 + s.windowTop

/-- A request is passed to the driver only for a window in the arena; otherwise it is refused, and the renderer holds
what it held before. -/
def Guarded (s : Gpu) (resId offset size : Nat) (a : MapAnswers) : Prop :=
  ((s.mapBlob resId offset a).2.forwarded ≠ s.forwarded → s.InArena offset size) ∧
    (¬ s.InArena offset size →
      (s.mapBlob resId offset a).1 = .errUnspec ∧ (s.mapBlob resId offset a).2.renderer = s.renderer)

def Outside (s : Gpu) (offset size : Nat) : Prop :=
  s.windowTop = 0 ∨ ullong (s.windowBase + offset) < s.windowBase ∨
    s.windowTop < ullong (ullong (s.windowBase + offset) + mappedBytes size)

theorem mappedBytes_eq (h : size ≤ 2 ^ 63) : mappedBytes size = (size + 4095) / 4096 * 4096 := by
  rw [mappedBytes, ullong_of_lt (by omega), Arch.and_pageMask (by omega)]

theorem not_outside_iff (harena : s.windowBase ≤ s.windowTop) (htop : s.windowTop < 2 ^ 64) (hoffset : offset < 2 ^ 64)
    (hpos : 0 < size) (hsize : size ≤ 2 ^ 63) :
    ¬ s.Outside offset size ↔ s.InArena offset size ∨ s.EndWraps offset size := by
  rw [Outside, mappedBytes_eq hsize, InArena, EndWraps]
  have hround : 0 < (size + 4095) / 4096 * 4096 := by omega
  have hbound : (size + 4095) / 4096 * 4096 ≤ 2 ^ 63 + 4095 := by omega
  generalize (size + 4095) / 4096 * 4096 = round at hround hbound ⊢
  unfold ullong
  omega

theorem mapWindow_outside (h : s.Outside offset size) : s.mapWindow resId offset va size a =
    (.errUnspec, s.resourceUnmap a.unmapOk resId) := if_pos h

theorem mapWindow_forwarded (h : ¬ s.Outside offset size) :
    (s.mapWindow resId offset va size a).2.forwarded =
      s.forwarded ++ [(ullong (s.windowBase + offset), mappedBytes size)] := by
  have hasked : ∀ w, (s.kwindowAt a.window w).2.forwarded = s.forwarded ++ [(w.pseudoPa, w.bytes)] := by
    intro w
    rw [kwindowAt]
    split
    · rfl
    · split <;> rfl
  have hkept : ∀ (s : Gpu) pa bytes, (s.kunwindow a.unwindowOk pa bytes).forwarded = s.forwarded := by
    intro s pa bytes
    rw [kunwindow]
    split <;> rfl
  unfold Outside at h
  rw [mapWindow, if_neg h]
  specialize hasked ⟨ullong (s.windowBase + offset), mappedBytes size, (s.renderer.live resId).getD 0⟩
  rcases hk : s.kwindowAt a.window ⟨ullong (s.windowBase + offset), mappedBytes size,
    (s.renderer.live resId).getD 0⟩ with ⟨reported, s₁⟩
  rw [hk] at hasked
  cases reported with
  | false => exact hasked
  | true =>
    dsimp only
    split
    · exact (hkept s₁ _ _).trans hasked
    · exact hasked

theorem mapping_undone {x : Nat} (hlive : s.renderer.live resId = some x) (hheld : s.renderer.held x = none) :
    ((s.mapping x (some va)).resourceUnmap true resId) = s := by
  rw [mapping_resourceUnmap hlive, if_pos rfl, mapping, ← hheld, Function.update_eq_self]

theorem mapBlob_checked (offset : Nat) (hmap : a.map = some (va, size)) (hva : va ≠ 0) (hpos : 0 < size)
    (h : s.Checked resId va) :
    ∃ x, s.renderer.live resId = some x ∧ s.renderer.held x = none ∧
      s.mapBlob resId offset a = (s.mapping x (some va)).mapWindow resId offset va size a := by
  obtain ⟨hfind, ⟨x, hlive, hheld⟩, halign⟩ := h
  refine ⟨x, hlive, hheld, ?_⟩
  have hmapped : s.renderer.map a.map resId =
      (some (va, size), { s.renderer with held := Function.update s.renderer.held x (some va) }) := by
    unfold Renderer.map
    rw [hlive, hmap]
    exact if_pos hheld
  rw [mapBlob, hfind, hmapped]
  simp only [Option.isSome_none, Bool.false_eq_true, if_false, hva, Nat.ne_of_gt hpos, or_self, halign, ne_eq,
    not_true_eq_false]
  rfl

theorem mapBlob_unchecked (hmap : a.map = some (va, size)) (hva : va ≠ 0) (hpos : 0 < size)
    (hunmap : a.unmapOk = true) (h : ¬ s.Checked resId va) : s.mapBlob resId offset a = (.errUnspec, s) := by
  rw [mapBlob]
  split
  · rfl
  · rename_i hfind
    rcases s.renderer.map_cases a.map resId with hm | ⟨x, va', size', hans, hlive, hheld, hm⟩
    · rw [hm]
    · rw [hmap, Option.some.injEq, Prod.mk.injEq] at hans
      obtain ⟨rfl, rfl⟩ := hans
      have halign : va &&& 0xfff ≠ 0 := fun halign => h ⟨by simpa using hfind, ⟨x, hlive, hheld⟩, halign⟩
      rw [hm]
      dsimp only
      rw [if_neg (by omega), if_pos halign, hunmap]
      exact congrArg _ (mapping_undone hlive hheld)

/-- For every offset, size up to 2^63 and arena: the request is passed on only for a window in the arena, and
otherwise undone, unless it comes to the check and the end of the window wraps around. -/
theorem mapBlob_guarded_iff (s : Gpu) (resId offset va size : Nat) (a : MapAnswers) (hoffset : offset < 2 ^ 64)
    (hpos : 1 ≤ size) (hsize : size ≤ 2 ^ 63) (harena : s.windowBase ≤ s.windowTop) (htop : s.windowTop < 2 ^ 64)
    (hmap : a.map = some (va, size)) (hva : va ≠ 0) (hunmap : a.unmapOk = true) :
    s.Guarded resId offset size a ↔ ¬ (s.Checked resId va ∧ s.EndWraps offset size) := by
  by_cases hchecked : s.Checked resId va
  · obtain ⟨x, hlive, hheld, hrun⟩ := mapBlob_checked offset hmap hva hpos hchecked
    have hcheck := not_outside_iff harena htop hoffset hpos hsize
    rw [Guarded, hrun]
    by_cases hout : s.Outside offset size
    · have hundone : (s.mapping x (some va)).resourceUnmap true resId = s := mapping_undone hlive hheld
      rw [mapWindow_outside (s := s.mapping x (some va)) hout, hunmap, hundone]
      refine ⟨fun _ hwraps => ?_, fun _ => ⟨fun hne => absurd rfl hne, fun _ => ⟨rfl, rfl⟩⟩⟩
      exact (hcheck.mpr (.inr hwraps.2)) hout
    · have hforwarded : ((s.mapping x (some va)).mapWindow resId offset va size a).2.forwarded = _ :=
        mapWindow_forwarded hout
      have hne : ((s.mapping x (some va)).mapWindow resId offset va size a).2.forwarded ≠ s.forwarded := by
        rw [hforwarded]
        exact fun heq => absurd (congrArg List.length heq) (by simp [mapping])
      constructor
      · rintro ⟨hin, -⟩ ⟨-, -, -, hpast, -⟩
        have hin := hin hne
        rw [InArena] at hin
        omega
      · intro hno
        have hin : s.InArena offset size := (hcheck.mp hout).resolve_right fun hw => hno ⟨hchecked, hw⟩
        exact ⟨fun _ => hin, fun hnot => absurd hin hnot⟩
  · rw [Guarded, mapBlob_unchecked hmap hva hpos hunmap hchecked]
    exact ⟨fun _ hw => hchecked hw.1, fun _ => ⟨fun hne => absurd rfl hne, fun _ => ⟨rfl, rfl⟩⟩⟩

def createdOnce : Gpu := ((initial 0x40000000 0x140000000).serve (.createBlob 5 true)).2

theorem mapBlob_guarded_bottom : createdOnce.Guarded 5 0 0x2000 (wellMapped 0x7f0000000000 0x2000) := by
  refine (mapBlob_guarded_iff createdOnce 5 0 0x7f0000000000 0x2000 (wellMapped 0x7f0000000000 0x2000) (by decide)
    (by decide) (by decide) (by decide) (by decide) rfl (by decide) rfl).mpr fun hw => ?_
  exact absurd hw.2.2.2.1 (by decide)

/-- A window that ends at 2^64 is passed on. -/
theorem mapBlob_past_arena :
    (createdOnce.mapBlob 5 (2 ^ 64 - 0x40001000) (wellMapped 0x7f0000000000 0x1000)).2.forwarded =
      [(2 ^ 64 - 0x1000, 0x1000)] ∧
    ¬ createdOnce.Guarded 5 (2 ^ 64 - 0x40001000) 0x1000 (wellMapped 0x7f0000000000 0x1000) := by
  have hforwarded : (createdOnce.mapBlob 5 (2 ^ 64 - 0x40001000) (wellMapped 0x7f0000000000 0x1000)).2.forwarded =
      [(2 ^ 64 - 0x1000, 0x1000)] := by decide +kernel
  refine ⟨hforwarded, fun hguarded => ?_⟩
  have hin := hguarded.1 (by rw [hforwarded]; decide +kernel)
  rw [InArena] at hin
  exact absurd hin (by decide +kernel)

end MoCoLinux.Cogpu.Gpu
