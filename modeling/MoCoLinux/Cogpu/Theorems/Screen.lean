import MoCoLinux.Cogpu.Lemmas.Contexts

/-!
# Contexts and the screen: results
-/

namespace MoCoLinux.Cogpu.Screen

variable {s : Screen} {e : Event}

/-- CTX_CREATE is not refused for an id with a recorded capset, and does not end a context that has bridge slots. -/
def Orderly (s : Screen) : Event → Prop
  | .ctxCreate ctxId _ ok => (ok = false → s.ctxCapset ctxId = 0) ∧
      ((s.contexts ctxId).isSome → ∀ i < Gpu.bridgeSlots, s.Unowned ctxId i)
  | _ => True

theorem initial_contextInv (base top : Nat) (enabled : Bool) : (initial base top enabled).ContextInv where
  recorded _ _ := rfl
  positive _ h := by cases h
  past _ _ h := by cases h
  owned _ _ hne := absurd rfl hne

theorem ContextInv.step (h : s.ContextInv) (he : Orderly s e) : (s.step e).ContextInv := by
  cases e with
  | create resId ok =>
    obtain ⟨hbridge, hclock, -⟩ := s.gpu.createBlob_frame ok resId
    exact h.gpu hbridge hclock
  | mapBlob resId offset a =>
    have hsame := s.gpu.mapBlob_same resId offset a
    exact h.gpu hsame.bridge hsame.clock
  | unmapBlob resId unwindowOk unmapOk =>
    have hsame := s.gpu.unmapBlob_same resId unwindowOk unmapOk
    exact h.gpu hsame.bridge hsame.clock
  | present resId f bridgeOk uploadOk info d => exact h.present resId f bridgeOk uploadOk info d
  | unref resId => exact (h.redraws (s.unref_redraws resId)).gpu rfl rfl
  | ctxCreate ctxId ctxInit ok => exact h.ctxCreate he.1 he.2
  | ctxDestroy ctxId => exact h.ctxDestroy ctxId
  | stream resId xid width height info d => exact h.redraws (stream_redraws s resId xid width height info d)
  | bind r info => exact h.redraws (bind_redraws s r info)
  | r2Present r d => exact h.redraws (r2Present_redraws s r d)
  | unbind r => exact h.redraws (unbind_redraws (P := fun _ => False) s r)
  | reset generation => exact h.redraws (reset_redraws (P := fun _ => False) s generation)
  | poll d => exact h.redraws (poll_redraws (P := fun _ => False) s d)

/-- In every run in which CTX_CREATE is orderly: the recorded capsets are those of the renderer's contexts, and no
bridge slot in use belongs to a context that ended after the slot was last presented to. -/
theorem contexts_recorded (s : Screen) (h : Reachable Orderly s) : s.CapsetsRecorded ∧ s.BridgesOwned := by
  have hinv : s.ContextInv := by
    refine Runs.Reach.invariant (P := ContextInv) (fun s hs => ?_) (fun s e s' hinv hs => ?_) h
    · obtain ⟨base, top, enabled, rfl⟩ := hs
      exact initial_contextInv base top enabled
    · obtain ⟨he, rfl⟩ := hs
      exact hinv.step he
  exact ⟨hinv.capsets, hinv.owned⟩

def started : Screen := initial 0x40000000 0x140000000 true

def recreated : Screen := ((started.step (.ctxCreate 3 4 true)).step (.ctxDestroy 3)).step (.ctxCreate 3 0 true)

theorem contexts_recorded_again : recreated.CapsetsRecorded ∧ recreated.BridgesOwned ∧ recreated.ctxCapset 3 = 2 := by
  have h₀ : Reachable Orderly started := .start ⟨_, _, _, rfl⟩
  have h₁ := h₀.next (a := Event.ctxCreate 3 4 true) ⟨⟨fun h => (by cases h), fun h => (by cases h)⟩, rfl⟩
  have h₂ := h₁.next (a := Event.ctxDestroy 3) ⟨trivial, rfl⟩
  have h₃ := h₂.next (a := Event.ctxCreate 3 0 true)
    ⟨⟨fun h => (by cases h), fun h => absurd h (by decide +kernel)⟩, rfl⟩
  obtain ⟨hcapsets, howned⟩ := contexts_recorded _ h₃
  exact ⟨hcapsets, howned, by decide +kernel⟩

def refused : Screen := (started.step (.ctxCreate 3 4 true)).step (.ctxCreate 3 2 false)

def plainDesk (now : Nat) : Desk := ⟨now, true, false, true, .made, .visible, true⟩

def plainInfo : Info := ⟨64, 64, true⟩

def presented : Screen :=
  (((started.step (.ctxCreate 3 4 true)).step (.create 5 true)).step
    (.mapBlob 5 0 ⟨some (0x7f0000000000, 0x4000), .mapped, true, true, true⟩)).step
    (.present 5 ⟨1, 3, 64, 64, 256⟩ true true (some plainInfo) (plainDesk 100))

def reused : Screen := presented.step (.ctxCreate 3 2 true)

/-- After the refusal the id has a capset and no context. After the id was used again, a bridge slot still belongs to
the context that ended. -/
theorem contexts_stale :
    (Reachable (fun _ _ => True) refused ∧ refused.ctxCapset 3 = 4 ∧ refused.contexts 3 = none ∧
      ¬ refused.CapsetsRecorded) ∧
    Reachable (fun _ _ => True) reused ∧ ¬ reused.BridgesOwned := by
  have h₀ : Reachable (fun _ _ => True) started := .start ⟨_, _, _, rfl⟩
  have h₁ := h₀.next (a := Event.ctxCreate 3 4 true) ⟨trivial, rfl⟩
  have h₂ := h₁.next (a := Event.create 5 true) ⟨trivial, rfl⟩
  have h₃ := h₂.next (a := Event.mapBlob 5 0 ⟨some (0x7f0000000000, 0x4000), .mapped, true, true, true⟩) ⟨trivial, rfl⟩
  have h₄ := h₃.next (a := Event.present 5 ⟨1, 3, 64, 64, 256⟩ true true (some plainInfo) (plainDesk 100))
    ⟨trivial, rfl⟩
  refine ⟨⟨h₁.next (a := Event.ctxCreate 3 2 false) ⟨trivial, rfl⟩, by decide +kernel, by decide +kernel, fun h => ?_⟩,
    h₄.next (a := Event.ctxCreate 3 2 true) ⟨trivial, rfl⟩, fun h => ?_⟩
  · have hsome := (h 3 (by decide)).1.mp (by decide +kernel)
    exact absurd hsome (by decide +kernel)
  · have hlate := h 0 (by decide) (by decide +kernel) 1 (by decide +kernel)
    exact absurd hlate (by decide +kernel)

/-- The guest kernel gives its resources none of the ids of the daemon's own textures. -/
def Foreign : Event → Prop
  | .create resId _ => ¬ Gpu.IsBridge resId
  | _ => True

/-- A resource that is released is shown by no other presenter than the selected one, MOCO_PRESENT names a window, and
the renderer makes no texture without width. -/
def Selected (s : Screen) : Event → Prop
  | .unref resId => ∀ j < maxPresenters, (s.presenters j).Shows resId → j = s.current
  | .ctxDestroy ctxId => ∀ i < Gpu.bridgeSlots, ¬ s.Unowned ctxId i →
      ∀ j < maxPresenters, (s.presenters j).Shows (Gpu.bridgeRes i) → j = s.current
  | .present _ f bridgeOk _ _ _ => f.xid ≠ 0 ∧ (bridgeOk = true → f.width ≠ 0)
  | _ => True

theorem initial_screenInv (base top : Nat) (enabled : Bool) : (initial base top enabled).ScreenInv where
  clear _ _ _ := ⟨rfl, fun _ _ => Presenter.not_shows_empty _, fun _ _ => rfl⟩
  sized _ _ hne := absurd rfl hne
  owner _ _ hne := absurd rfl hne

theorem ScreenInv.present (h : s.ScreenInv) {f : Gpu.Frame} {bridgeOk : Bool} (hxid : f.xid ≠ 0)
    (hwidth : bridgeOk = true → f.width ≠ 0) (resId : Nat) (uploadOk : Bool) (info : Option Info) (d : Desk) :
    (s.present resId f bridgeOk uploadOk info d).ScreenInv := by
  have hafter : ScreenInv { s with
      gpu := (s.gpu.present resId f bridgeOk uploadOk).2
      presentedBy := if (s.gpu.present resId f bridgeOk uploadOk).2.bridgeClock = s.gpu.bridgeClock then s.presentedBy
        else Function.update s.presentedBy (s.gpu.pickSlot f.xid).1 (some f.ctxId) } := by
    rcases s.gpu.present_cases resId f bridgeOk uploadOk with hp | ⟨resp, reads, hp⟩
    · rw [hp, if_pos rfl]
      exact h
    · have hb := s.gpu.bridgeResource_bridged bridgeOk f.xid f.ctxId f.width f.height
      have hsized := Gpu.bridgeResource_sized h.sized hwidth f.xid f.ctxId f.height
      rw [hp]
      dsimp only
      rw [if_neg (by rw [hb.clock]; omega)]
      exact (h.bridged hb hxid hsized).gpu rfl fun _ _ hne => hne
  rw [Screen.present]
  split
  · exact hafter.redraws (stream_redraws _ _ _ _ _ _ _) fun i hi hp => hafter.of_live hi hp.2
  · exact hafter

theorem ScreenInv.unref (h : s.ScreenInv) (resId : Nat) : (s.unref resId).ScreenInv := by
  refine (h.erases (s.unref_redraws resId)).gpu rfl fun i hi hne hnone => hne ?_
  rw [Gpu.resourceUnref, Renderer.unref_live]
  by_cases hid : Gpu.bridgeRes i = resId
  · rw [hid, Function.update_self]
  · rw [Function.update_of_ne hid]
    exact hnone

theorem ScreenInv.releaseCtx (h : s.ScreenInv) {ctxId : Nat} (he : Selected s (.ctxDestroy ctxId)) :
    (s.releaseCtx ctxId).ScreenInv ∧ ∀ i < Gpu.bridgeSlots, (s.releaseCtx ctxId).Unowned ctxId i := by
  obtain ⟨hinv, -, hfree⟩ := releaseCtx_induct ctxId h fun s₁ i hi hr h₁ => by
    refine h₁.releaseSlot hi fun howned j hj hshows => ?_
    rw [hr.current]
    exact he i hi (fun hbefore => howned (hbefore.releases hr)) j hj (hr.shows j _ hshows)
  exact ⟨hinv, hfree⟩

theorem ScreenInv.ctxDestroy (h : s.ScreenInv) {ctxId : Nat} (he : Selected s (.ctxDestroy ctxId)) :
    (s.ctxDestroy ctxId).ScreenInv ∧ ∀ i < Gpu.bridgeSlots, (s.ctxDestroy ctxId).Unowned ctxId i := by
  obtain ⟨hinv, hfree⟩ := h.releaseCtx he
  rw [Screen.ctxDestroy]
  generalize s.releaseCtx ctxId = s₁ at hinv hfree
  exact ⟨hinv.same rfl rfl rfl rfl, hfree⟩

theorem ScreenInv.step (h : s.ScreenInv) (hforeign : Foreign e) (he : Selected s e) : (s.step e).ScreenInv := by
  cases e with
  | create resId ok =>
    obtain ⟨hbridge, -, hlive⟩ := s.gpu.createBlob_frame ok resId
    refine h.gpu hbridge fun i hi hne => ?_
    rwa [hlive _ fun hid => hforeign ⟨i, hi, hid.symm⟩] at hne
  | mapBlob resId offset a =>
    have hsame := s.gpu.mapBlob_same resId offset a
    refine h.gpu hsame.bridge fun i hi hne => ?_
    rwa [hsame.live] at hne
  | unmapBlob resId unwindowOk unmapOk =>
    have hsame := s.gpu.unmapBlob_same resId unwindowOk unmapOk
    refine h.gpu hsame.bridge fun i hi hne => ?_
    rwa [hsame.live] at hne
  | present resId f bridgeOk uploadOk info d => exact h.present he.1 he.2 resId uploadOk info d
  | unref resId => exact h.unref resId
  | ctxCreate ctxId ctxInit ok => cases ok <;> exact h.same rfl rfl rfl rfl
  | ctxDestroy ctxId => exact (h.ctxDestroy he).1
  | stream resId xid width height info d =>
    exact h.redraws (stream_redraws s resId xid width height info d) fun i hi hp => h.of_live hi hp.2
  | bind r info => exact h.redraws (bind_redraws s r info) fun i hi hp => h.of_live hi hp.2
  | r2Present r d => exact h.redraws (r2Present_redraws s r d) fun i hi hp => h.of_names hi hp
  | unbind r => exact h.erases (unbind_redraws s r)
  | reset generation => exact h.erases (reset_redraws s generation)
  | poll d => exact h.erases (poll_redraws s d)

theorem ScreenInv.released (h : s.ScreenInv) {ctxId : Nat} (hfree : ∀ i < Gpu.bridgeSlots, s.Unowned ctxId i) :
    s.Released (.ctxDestroy ctxId) := by
  intro i hi hby
  have hzero : (s.gpu.bridge i).xid = 0 := by
    by_contra hne
    rcases hfree i hi with hzero | hother
    · exact hne hzero
    · exact hother (Option.some.inj ((h.owner i hi hne).symm.trans hby))
  have hclear := h.clear i hi hzero
  exact ⟨hclear.gone.shown, hclear.live⟩

/-- In every run whose steps meet the condition: after RESOURCE_UNREF no presenter shows the resource and no binding
names it, and after CTX_DESTROY no presenter shows, and the renderer does not have, a texture of a slot the context
presented to last. -/
theorem screen_released (s : Screen) (h : Reachable (fun s e => Foreign e ∧ Selected s e) s) (e : Event)
    (he : Selected s e) : (s.step e).Released e := by
  have hinv : s.ScreenInv := by
    refine Runs.Reach.invariant (P := ScreenInv) (fun s hs => ?_) (fun s e s' hinv hs => ?_) h
    · obtain ⟨base, top, enabled, rfl⟩ := hs
      exact initial_screenInv base top enabled
    · obtain ⟨⟨hforeign, he⟩, rfl⟩ := hs
      exact hinv.step hforeign he
  cases e with
  | unref resId =>
    have hgone := unref_gone he
    exact ⟨hgone.shown, hgone.bound⟩
  | ctxDestroy ctxId =>
    obtain ⟨hafter, hfree⟩ := hinv.ctxDestroy he
    exact hafter.released hfree
  | _ => exact trivial

theorem screen_released_bridge :
    (presented.presenters 0).Shows (Gpu.bridgeRes 0) ∧ (presented.step (.ctxDestroy 3)).Released (.ctxDestroy 3) := by
  have hforeign : ¬ Gpu.IsBridge 5 := by
    rintro ⟨i, -, hi⟩
    unfold Gpu.bridgeRes at hi
    omega
  have h₀ : Reachable (fun s e => Foreign e ∧ Selected s e) started := .start ⟨_, _, _, rfl⟩
  have h₁ := h₀.next (a := Event.ctxCreate 3 4 true) ⟨⟨trivial, trivial⟩, rfl⟩
  have h₂ := h₁.next (a := Event.create 5 true) ⟨⟨hforeign, trivial⟩, rfl⟩
  have h₃ := h₂.next (a := Event.mapBlob 5 0 ⟨some (0x7f0000000000, 0x4000), .mapped, true, true, true⟩)
    ⟨⟨trivial, trivial⟩, rfl⟩
  have h₄ := h₃.next (a := Event.present 5 ⟨1, 3, 64, 64, 256⟩ true true (some plainInfo) (plainDesk 100))
    ⟨⟨trivial, by decide, fun _ => by decide⟩, rfl⟩
  have hselected : ∀ i < Gpu.bridgeSlots, ¬ presented.Unowned 3 i →
      ∀ j < maxPresenters, (presented.presenters j).Shows (Gpu.bridgeRes i) → j = presented.current := by
    decide +kernel
  exact ⟨by decide +kernel, screen_released _ h₄ (.ctxDestroy 3) hselected⟩

def twoWindows : Screen :=
  (((started.step (.create 10 true)).step (.create 11 true)).step
    (.stream 10 1 64 64 (some plainInfo) (plainDesk 100))).step (.stream 11 2 64 64 (some plainInfo) (plainDesk 200))

/-- After the release of resource 10 its target is still there and shows it. -/
theorem release_misses_window : Reachable (fun _ e => Foreign e) twoWindows ∧
    (twoWindows.step (.unref 10)).presenters 0 = ⟨true, 1, 10, 2, 100⟩ ∧
    (twoWindows.step (.unref 10)).gpu.renderer.live 10 = none ∧
    ¬ (twoWindows.step (.unref 10)).Released (.unref 10) := by
  have hforeign : ∀ id < 100, ¬ Gpu.IsBridge id := by
    rintro id hid ⟨i, -, hi⟩
    unfold Gpu.bridgeRes at hi
    omega
  have h₀ : Reachable (fun _ e => Foreign e) started := .start ⟨_, _, _, rfl⟩
  have h₁ := h₀.next (a := Event.create 10 true) ⟨hforeign 10 (by decide), rfl⟩
  have h₂ := h₁.next (a := Event.create 11 true) ⟨hforeign 11 (by decide), rfl⟩
  have h₃ := h₂.next (a := Event.stream 10 1 64 64 (some plainInfo) (plainDesk 100)) ⟨trivial, rfl⟩
  refine ⟨h₃.next (a := Event.stream 11 2 64 64 (some plainInfo) (plainDesk 200)) ⟨trivial, rfl⟩, by decide +kernel,
    by decide +kernel, fun h => ?_⟩
  exact h.shown 0 (by decide) (by decide +kernel)

end MoCoLinux.Cogpu.Screen
