import MoCoLinux.Cogpu.Lemmas.Blob

/-!
# The bridge slots
-/

namespace MoCoLinux.Cogpu

open Function

theorem Renderer.unref_live (r : Renderer) (resId : Nat) : (r.unref resId).live = update r.live resId none := by
  rw [Renderer.unref]
  split
  · rfl
  · rename_i h
    exact (Function.update_eq_self_iff.mpr h.symm).symm

theorem Renderer.unmap_live (r : Renderer) (ok : Bool) (resId : Nat) : (r.unmap ok resId).live = r.live := by
  rw [Renderer.unmap]
  split
  · split <;> rfl
  · rfl

namespace Gpu

variable {g g' g'' : Gpu} {i pick resId : Nat}

theorem bridgeRes_inj (h : bridgeRes i = bridgeRes pick) : i = pick := by
  unfold bridgeRes at h
  omega

structure SameBridge (g g' : Gpu) : Prop where
  bridge : g'.bridge = g.bridge
  clock : g'.bridgeClock = g.bridgeClock
  live : g'.renderer.live = g.renderer.live

theorem SameBridge.refl (g : Gpu) : SameBridge g g := ⟨rfl, rfl, rfl⟩

theorem SameBridge.trans (h : SameBridge g g') (h' : SameBridge g' g'') : SameBridge g g'' :=
  ⟨h'.bridge.trans h.bridge, h'.clock.trans h.clock, h'.live.trans h.live⟩

theorem resourceUnmap_same (g : Gpu) (ok : Bool) (resId : Nat) : SameBridge g (g.resourceUnmap ok resId) :=
  ⟨rfl, rfl, Renderer.unmap_live _ _ _⟩

theorem kunwindow_same (g : Gpu) (ok : Bool) (pseudoPa bytes : Nat) : SameBridge g (g.kunwindow ok pseudoPa bytes) := by
  rw [Gpu.kunwindow]
  split <;> exact ⟨rfl, rfl, rfl⟩

theorem kwindowAt_same (g : Gpu) (answer : WindowAnswer) (w : Window) : SameBridge g (g.kwindowAt answer w).2 := by
  rw [Gpu.kwindowAt]
  dsimp only
  split
  · exact ⟨rfl, rfl, rfl⟩
  · split <;> exact ⟨rfl, rfl, rfl⟩

theorem mapWindow_same (g : Gpu) (resId offset va size : Nat) (a : MapAnswers) :
    SameBridge g (g.mapWindow resId offset va size a).2 := by
  rw [Gpu.mapWindow]
  split
  · exact resourceUnmap_same _ _ _
  · have hwindow := g.kwindowAt_same a.window
      ⟨ullong (g.windowBase + offset), mappedBytes size, (g.renderer.live resId).getD 0⟩
    split
    · rename_i g₁ hk
      rw [hk] at hwindow
      exact hwindow.trans (resourceUnmap_same _ _ _)
    · rename_i g₁ hk
      rw [hk] at hwindow
      split
      · exact hwindow.trans ((kunwindow_same _ _ _ _).trans (resourceUnmap_same _ _ _))
      · exact { hwindow with }

theorem mapBlob_same (g : Gpu) (resId offset : Nat) (a : MapAnswers) : SameBridge g (g.mapBlob resId offset a).2 := by
  rw [Gpu.mapBlob]
  split
  · exact .refl g
  · rcases g.renderer.map_cases a.map resId with hmap | ⟨x, va, size, -, -, -, hmap⟩
    · rw [hmap]
      exact .refl g
    · rw [hmap]
      dsimp only
      have hheld : SameBridge g
          { g with renderer := { g.renderer with held := update g.renderer.held x (some va) } } :=
        ⟨rfl, rfl, rfl⟩
      split
      · exact hheld
      · split
        · exact hheld.trans (resourceUnmap_same _ _ _)
        · exact hheld.trans (mapWindow_same _ _ _ _ _ _)

theorem unmapBlob_same (g : Gpu) (resId : Nat) (unwindowOk unmapOk : Bool) :
    SameBridge g (g.unmapBlob resId unwindowOk unmapOk).2 := by
  rw [Gpu.unmapBlob]
  split
  · exact .refl g
  · rename_i bm hfind
    have hundone := (g.kunwindow_same unwindowOk bm.pseudoPa bm.bytes).trans (resourceUnmap_same _ unmapOk resId)
    exact { hundone with }

theorem createBlob_frame (g : Gpu) (ok : Bool) (resId : Nat) :
    (g.createBlob ok resId).2.bridge = g.bridge ∧ (g.createBlob ok resId).2.bridgeClock = g.bridgeClock ∧
      ∀ id ≠ resId, (g.createBlob ok resId).2.renderer.live id = g.renderer.live id := by
  rw [Gpu.createBlob]
  rcases g.renderer.create_cases ok resId with hc | ⟨-, -, hc⟩
  · rw [hc]
    exact ⟨rfl, rfl, fun _ _ => rfl⟩
  · rw [hc]
    exact ⟨rfl, rfl, fun id hid => update_of_ne hid _ _⟩

def Sized (g : Gpu) (i : Nat) : Prop := g.renderer.live (bridgeRes i) ≠ none → (g.bridge i).width ≠ 0

theorem dropSlot_bridge (g : Gpu) (i : Nat) : (g.dropSlot i).bridge = g.bridge := by
  rw [Gpu.dropSlot]
  split <;> rfl

theorem dropSlot_clock (g : Gpu) (i : Nat) : (g.dropSlot i).bridgeClock = g.bridgeClock := by
  rw [Gpu.dropSlot]
  split <;> rfl

theorem dropSlot_live_of_ne (g : Gpu) (h : resId ≠ bridgeRes i) :
    (g.dropSlot i).renderer.live resId = g.renderer.live resId := by
  rw [Gpu.dropSlot]
  split
  · rw [Renderer.unref_live]
    exact update_of_ne h _ _
  · rfl

theorem dropSlot_live_self (hsized : g.Sized i) : (g.dropSlot i).renderer.live (bridgeRes i) = none := by
  rw [Gpu.dropSlot]
  split
  · rw [Renderer.unref_live]
    exact update_self _ _ _
  · rename_i hwidth
    by_contra hlive
    exact hwidth (hsized hlive)

structure Bridged (g g' : Gpu) (pick xid ctxId : Nat) : Prop where
  lt : pick < bridgeSlots
  others : ∀ i ≠ pick, g'.bridge i = g.bridge i
  xid : (g'.bridge pick).xid = xid
  ctxId : (g'.bridge pick).ctxId = ctxId
  used : (g'.bridge pick).used = g.bridgeClock + 1
  clock : g'.bridgeClock = g.bridgeClock + 1
  live : ∀ id ≠ bridgeRes pick, g'.renderer.live id = g.renderer.live id

theorem pickSlot_frame (g : Gpu) (xid : Nat) :
    (g.pickSlot xid).1 < bridgeSlots ∧ (g.pickSlot xid).2.bridgeClock = g.bridgeClock ∧
      (∀ i ≠ (g.pickSlot xid).1, (g.pickSlot xid).2.bridge i = g.bridge i) ∧
      ∀ id ≠ bridgeRes (g.pickSlot xid).1, (g.pickSlot xid).2.renderer.live id = g.renderer.live id := by
  rw [Gpu.pickSlot]
  split
  · rename_i i hfind
    exact ⟨findSlot_lt hfind, rfl, fun _ _ => rfl, fun _ _ => rfl⟩
  · split
    · rename_i i hfind
      exact ⟨findSlot_lt hfind, rfl, fun _ _ => rfl, fun _ _ => rfl⟩
    · refine ⟨g.oldestSlot_lt, g.dropSlot_clock _, fun i hi => ?_, fun id hid => g.dropSlot_live_of_ne hid⟩
      exact (update_of_ne hi _ _).trans (congrFun (g.dropSlot_bridge _) i)

theorem pickSlot_sized (hsized : ∀ i < bridgeSlots, g.Sized i) (xid : Nat) :
    (g.pickSlot xid).2.Sized (g.pickSlot xid).1 := by
  rw [Gpu.pickSlot]
  split
  · rename_i i hfind
    exact hsized i (findSlot_lt hfind)
  · split
    · rename_i i hfind
      exact hsized i (findSlot_lt hfind)
    · intro hlive
      exact absurd (dropSlot_live_self (hsized _ g.oldestSlot_lt)) hlive

theorem Bridged.of_update {bridge : Nat → BridgeSlot} (slot : BridgeSlot) (hlt : pick < bridgeSlots)
    (hbridge : g'.bridge = update bridge pick slot) (hothers : ∀ i ≠ pick, bridge i = g.bridge i)
    (hused : slot.used = g.bridgeClock + 1) (hclock : g'.bridgeClock = g.bridgeClock + 1)
    (hlive : ∀ id ≠ bridgeRes pick, g'.renderer.live id = g.renderer.live id) :
    Bridged g g' pick slot.xid slot.ctxId := by
  have hself : g'.bridge pick = slot := by rw [hbridge, update_self]
  refine ⟨hlt, fun i hi => ?_, by rw [hself], by rw [hself], by rw [hself, hused], hclock, hlive⟩
  rw [hbridge, update_of_ne hi, hothers i hi]

theorem bridgeResource_bridged (g : Gpu) (ok : Bool) (xid ctxId width height : Nat) :
    Bridged g (g.bridgeResource ok xid ctxId width height).2 (g.pickSlot xid).1 xid ctxId := by
  obtain ⟨hlt, hclock, hothers, hlive⟩ := g.pickSlot_frame xid
  rw [Gpu.bridgeResource]
  rcases hp : g.pickSlot xid with ⟨pick, g₁⟩
  rw [hp] at hlt hclock hothers hlive
  dsimp only at hlt hclock hothers hlive ⊢
  -- the slot is stored before the texture is looked at, and again after it was made anew
  have hstored : ∀ i ≠ pick, update g₁.bridge pick
      { g₁.bridge pick with xid := xid, ctxId := ctxId, used := g₁.bridgeClock + 1 } i = g.bridge i := fun i hi =>
    (update_of_ne hi _ _).trans (hothers i hi)
  have hused : g₁.bridgeClock + 1 = g.bridgeClock + 1 := by rw [hclock]
  split
  · exact .of_update { g₁.bridge pick with xid := xid, ctxId := ctxId, used := g₁.bridgeClock + 1 }
      hlt rfl hothers hused hused hlive
  · generalize hg₂ : Gpu.dropSlot _ pick = g₂
    have hbridge₂ := congrArg Gpu.bridge hg₂
    have hclock₂ := congrArg Gpu.bridgeClock hg₂
    rw [dropSlot_bridge] at hbridge₂
    rw [dropSlot_clock] at hclock₂
    have hothers₂ : ∀ i ≠ pick, g₂.bridge i = g.bridge i := by
      intro i hi
      rw [← hbridge₂]
      exact hstored i hi
    have hlive₂ : ∀ id ≠ bridgeRes pick, g₂.renderer.live id = g.renderer.live id := by
      intro id hid
      rw [← hg₂, dropSlot_live_of_ne _ hid]
      exact hlive id hid
    rcases g₂.renderer.create_cases ok (bridgeRes pick) with hc | ⟨-, -, hc⟩
    · rw [hc]
      exact .of_update ⟨xid, ctxId, 0, 0, g₁.bridgeClock + 1⟩ hlt rfl hothers₂ hused (hclock₂.symm.trans hused)
        hlive₂
    · rw [hc]
      refine .of_update ⟨xid, ctxId, width, height, g₁.bridgeClock + 1⟩ hlt rfl hothers₂ hused
        (hclock₂.symm.trans hused) (fun id hid => ?_)
      exact (update_of_ne hid _ _).trans (hlive₂ id hid)

theorem Sized.store (h : g.Sized i) (xid ctxId used clock : Nat) :
    Sized { g.setSlot i { g.bridge i with xid := xid, ctxId := ctxId, used := used } with bridgeClock := clock } i := by
  intro hlive
  have hself : (g.setSlot i { g.bridge i with xid := xid, ctxId := ctxId, used := used }).bridge i =
      { g.bridge i with xid := xid, ctxId := ctxId, used := used } := update_self _ _ _
  dsimp only
  rw [hself]
  exact h hlive

theorem bridgeResource_sized (hsized : ∀ i < bridgeSlots, g.Sized i) {ok : Bool} {width : Nat}
    (hwidth : ok = true → width ≠ 0) (xid ctxId height : Nat) :
    (g.bridgeResource ok xid ctxId width height).2.Sized (g.pickSlot xid).1 := by
  have hpicked := pickSlot_sized hsized xid
  rw [Gpu.bridgeResource]
  rcases hp : g.pickSlot xid with ⟨pick, g₁⟩
  rw [hp] at hpicked
  dsimp only at hpicked ⊢
  have hstored := hpicked.store xid ctxId (g₁.bridgeClock + 1) (g₁.bridgeClock + 1)
  split
  · exact hstored
  · generalize hg₂ : Gpu.dropSlot _ pick = g₂
    have hdropped : g₂.renderer.live (bridgeRes pick) = none := by
      rw [← hg₂]
      exact dropSlot_live_self hstored
    have hset : ∀ (slot : BridgeSlot) renderer, ({ g₂.setSlot pick slot with renderer := renderer }.bridge pick) = slot :=
      fun slot renderer => update_self _ _ _
    by_cases hok : ok = true
    · rcases g₂.renderer.create_cases ok (bridgeRes pick) with hc | ⟨-, -, hc⟩
      · rw [hc]
        exact fun hlive => absurd hdropped hlive
      · rw [hc]
        intro _
        rw [hset]
        exact hwidth hok
    · have hc : g₂.renderer.create ok (bridgeRes pick) = (false, g₂.renderer) := by
        rw [Renderer.create, if_neg (fun h => hok h.1)]
      rw [hc]
      exact fun hlive => absurd hdropped hlive

theorem present_cases (g : Gpu) (resId : Nat) (f : Frame) (bridgeOk uploadOk : Bool) :
    g.present resId f bridgeOk uploadOk = (.errUnspec, g) ∨
      ∃ resp reads, g.present resId f bridgeOk uploadOk =
        (resp, { (g.bridgeResource bridgeOk f.xid f.ctxId f.width f.height).2 with reads := reads }) := by
  rw [Gpu.present]
  split
  · exact .inl rfl
  · split
    · exact .inl rfl
    · right
      rcases g.bridgeResource bridgeOk f.xid f.ctxId f.width f.height with ⟨made, g'⟩
      cases made with
      | false => exact ⟨_, g'.reads, rfl⟩
      | true => exact ⟨_, _, rfl⟩

end Gpu

end MoCoLinux.Cogpu
