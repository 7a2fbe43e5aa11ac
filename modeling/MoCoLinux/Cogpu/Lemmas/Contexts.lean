import MoCoLinux.Cogpu.Lemmas.Screen

/-!
# Contexts and their bridges
-/

namespace MoCoLinux.Cogpu.Screen

open Function

variable {s s' : Screen} {ctxId resId i : Nat}

structure Releases (s s' : Screen) : Prop where
  ctxCapset : s'.ctxCapset = s.ctxCapset
  contexts : s'.contexts = s.contexts
  presentedBy : s'.presentedBy = s.presentedBy
  destroyed : s'.destroyed = s.destroyed
  current : s'.current = s.current
  clock : s'.gpu.bridgeClock = s.gpu.bridgeClock
  slots : ∀ i, s'.gpu.bridge i = s.gpu.bridge i ∨ (s'.gpu.bridge i).xid = 0
  shows : ∀ j id, (s'.presenters j).Shows id → (s.presenters j).Shows id

theorem Releases.refl (s : Screen) : Releases s s where
  ctxCapset := rfl
  contexts := rfl
  presentedBy := rfl
  destroyed := rfl
  current := rfl
  clock := rfl
  slots _ := .inl rfl
  shows _ _ h := h

theorem Releases.trans {s'' : Screen} (h : Releases s s') (h' : Releases s' s'') : Releases s s'' where
  ctxCapset := h'.ctxCapset.trans h.ctxCapset
  contexts := h'.contexts.trans h.contexts
  presentedBy := h'.presentedBy.trans h.presentedBy
  destroyed := h'.destroyed.trans h.destroyed
  current := h'.current.trans h.current
  clock := h'.clock.trans h.clock
  slots i := by
    rcases h'.slots i with hsame | hfree
    · rw [hsame]
      exact h.slots i
    · exact .inr hfree
  shows j id hshows := h.shows j id (h'.shows j id hshows)

def Unowned (s : Screen) (ctxId i : Nat) : Prop := (s.gpu.bridge i).xid = 0 ∨ (s.gpu.bridge i).ctxId ≠ ctxId

instance (s : Screen) (ctxId i : Nat) : Decidable (s.Unowned ctxId i) := inferInstanceAs (Decidable (_ ∨ _))

theorem Unowned.releases (h : s.Unowned ctxId i) (hr : Releases s s') : s'.Unowned ctxId i := by
  rcases hr.slots i with hsame | hfree
  · rw [Unowned, hsame]
    exact h
  · exact .inl hfree

theorem unref_redraws (s : Screen) (resId : Nat) :
    Redraws (fun _ => False) s ((s.r1Unref resId).r2Unref resId) :=
  (r1Unref_redraws s resId).trans (r2Unref_redraws _ resId)

theorem unref_current (s : Screen) (resId : Nat) : ((s.r1Unref resId).r2Unref resId).current = s.current :=
  (r2Unref_current _ resId).trans (r1Unref_current s resId)

theorem setSlot_xid (g : Gpu) (i : Nat) : ((g.setSlot i ⟨0, 0, 0, 0, 0⟩).bridge i).xid = 0 := by
  simp only [Gpu.setSlot, update_self]

theorem releaseSlot_releases (s : Screen) (ctxId i : Nat) : Releases s (s.releaseSlot ctxId i) := by
  rw [Screen.releaseSlot]
  split
  · exact .refl s
  · have hr := s.unref_redraws (Gpu.bridgeRes i)
    have hcurrent := s.unref_current (Gpu.bridgeRes i)
    generalize (s.r1Unref (Gpu.bridgeRes i)).r2Unref (Gpu.bridgeRes i) = s₁ at hr hcurrent
    refine { hr with current := hcurrent, clock := ?_, slots := fun k => ?_, shows := fun j id hshows => ?_ }
    · exact (s₁.gpu.dropSlot_clock i).trans (congrArg Gpu.bridgeClock hr.gpu)
    · by_cases hk : k = i
      · right
        rw [hk]
        exact setSlot_xid _ i
      · left
        refine (update_of_ne hk _ _).trans ?_
        rw [s₁.gpu.dropSlot_bridge i, hr.gpu]
    · exact (hr.shows j id hshows).resolve_right not_false

theorem releaseSlot_unowned (s : Screen) (ctxId i : Nat) : (s.releaseSlot ctxId i).Unowned ctxId i := by
  rw [Screen.releaseSlot]
  split
  · rename_i h
    exact h
  · exact .inl (setSlot_xid _ i)

theorem releaseCtx_induct (ctxId : Nat) {Q : Screen → Prop} (h : Q s)
    (hturn : ∀ s₁ i, i < Gpu.bridgeSlots → Releases s s₁ → Q s₁ → Q (s₁.releaseSlot ctxId i)) :
    Q (s.releaseCtx ctxId) ∧ Releases s (s.releaseCtx ctxId) ∧
      ∀ i < Gpu.bridgeSlots, (s.releaseCtx ctxId).Unowned ctxId i := by
  have hfold : ∀ (l : List Nat) (s₁ : Screen), (∀ i ∈ l, i < Gpu.bridgeSlots) → Releases s s₁ → Q s₁ →
      Q (l.foldl (fun s i => s.releaseSlot ctxId i) s₁) ∧
        Releases s₁ (l.foldl (fun s i => s.releaseSlot ctxId i) s₁) ∧
        Releases s (l.foldl (fun s i => s.releaseSlot ctxId i) s₁) ∧
        ∀ i ∈ l, (l.foldl (fun s i => s.releaseSlot ctxId i) s₁).Unowned ctxId i := by
    intro l
    induction l with
    | nil => exact fun s₁ _ hr hq => ⟨hq, .refl s₁, hr, fun i hi => absurd hi List.not_mem_nil⟩
    | cons k l ih =>
      intro s₁ hl hr hq
      have hk := releaseSlot_releases s₁ ctxId k
      obtain ⟨hq', hrest, hall, hdone⟩ := ih (s₁.releaseSlot ctxId k) (fun i hi => hl i (List.mem_cons_of_mem k hi))
        (hr.trans hk) (hturn s₁ k (hl k List.mem_cons_self) hr hq)
      refine ⟨hq', hk.trans hrest, hall, fun i hi => ?_⟩
      rcases List.mem_cons.mp hi with rfl | hi
      · exact (releaseSlot_unowned s₁ ctxId i).releases hrest
      · exact hdone i hi
  obtain ⟨hq, hr, -, hdone⟩ := hfold (List.range Gpu.bridgeSlots) s (fun i hi => List.mem_range.mp hi) (.refl s) h
  exact ⟨hq, hr, fun i hi => hdone i (List.mem_range.mpr hi)⟩

structure ContextInv (s : Screen) : Prop where
  recorded : ∀ ctxId < maxCtx, s.ctxCapset ctxId = (s.contexts ctxId).getD 0
  positive : ∀ ctxId, s.contexts ctxId ≠ some 0
  past : ∀ ctxId time, s.destroyed ctxId = some time → time ≤ s.gpu.bridgeClock
  owned : s.BridgesOwned

theorem ContextInv.capsets (h : s.ContextInv) : s.CapsetsRecorded := by
  intro ctxId hid
  rw [h.recorded ctxId hid]
  cases hc : s.contexts ctxId with
  | none => exact ⟨by simp, fun capset hcapset => by cases hcapset⟩
  | some capset =>
    have hpos : capset ≠ 0 := fun hzero => h.positive ctxId (by rw [hc, hzero])
    exact ⟨by simpa using hpos, fun capset' hcapset => Option.some.inj hcapset⟩

theorem ContextInv.same (h : s.ContextInv) (hbridge : s'.gpu.bridge = s.gpu.bridge)
    (hclock : s'.gpu.bridgeClock = s.gpu.bridgeClock) (hcapset : s'.ctxCapset = s.ctxCapset)
    (hcontexts : s'.contexts = s.contexts) (hdestroyed : s'.destroyed = s.destroyed) : s'.ContextInv where
  recorded := by
    rw [hcapset, hcontexts]
    exact h.recorded
  positive := by
    rw [hcontexts]
    exact h.positive
  past := by
    rw [hclock, hdestroyed]
    exact h.past
  owned := by
    rw [BridgesOwned, hbridge, hdestroyed]
    exact h.owned

theorem ContextInv.redraws {P : Nat → Prop} (h : s.ContextInv) (hr : Redraws P s s') : s'.ContextInv :=
  h.same (by rw [hr.gpu]) (by rw [hr.gpu]) hr.ctxCapset hr.contexts hr.destroyed

theorem ContextInv.gpu (h : s.ContextInv) {g : Gpu} (hbridge : g.bridge = s.gpu.bridge)
    (hclock : g.bridgeClock = s.gpu.bridgeClock) : ContextInv { s with gpu := g } :=
  h.same hbridge hclock rfl rfl rfl

theorem ContextInv.bridged (h : s.ContextInv) {g : Gpu} {pick xid : Nat} (hb : Gpu.Bridged s.gpu g pick xid ctxId)
    (presentedBy : Nat → Option Nat) : ContextInv { s with gpu := g, presentedBy := presentedBy } where
  recorded := h.recorded
  positive := h.positive
  past id time htime := by
    have hle := h.past id time htime
    dsimp only
    rw [hb.clock]
    omega
  owned i hi hxid time htime := by
    dsimp only at hxid htime ⊢
    by_cases hpick : i = pick
    · subst hpick
      have hle := h.past _ time htime
      rw [hb.used]
      omega
    · rw [hb.others i hpick] at hxid htime ⊢
      exact h.owned i hi hxid time htime

theorem record_of_ne {table : Nat → Nat} {value id : Nat} (h : id ≠ ctxId) : record table ctxId value id = table id := by
  rw [record]
  split
  · exact update_of_ne h _ _
  · rfl

theorem record_self {table : Nat → Nat} {value : Nat} (h : ctxId < maxCtx) :
    record table ctxId value ctxId = value := by
  rw [record, if_pos h, update_self]

theorem capsetOf_ne_zero (ctxInit : Nat) : capsetOf ctxInit ≠ 0 := by
  rw [capsetOf]
  split <;> omega

theorem BridgesOwned.endContext (h : s.BridgesOwned)
    (hfree : (s.contexts ctxId).isSome → ∀ i < Gpu.bridgeSlots, s.Unowned ctxId i) : (s.endContext ctxId).BridgesOwned := by
  intro i hi hxid time htime
  dsimp only [Screen.endContext] at hxid htime ⊢
  split at htime
  · rename_i hsome
    rcases hfree hsome i hi with hzero | hne
    · exact absurd hzero hxid
    · rw [update_of_ne hne] at htime
      exact h i hi hxid time htime
  · exact h i hi hxid time htime

theorem ContextInv.past_endContext (h : s.ContextInv) (ctxId : Nat) :
    ∀ id time, (s.endContext ctxId).destroyed id = some time → time ≤ s.gpu.bridgeClock := by
  intro id time htime
  dsimp only [Screen.endContext] at htime
  split at htime
  · by_cases hid : id = ctxId
    · rw [hid, update_self] at htime
      exact Nat.le_of_eq (Option.some.inj htime).symm
    · rw [update_of_ne hid] at htime
      exact h.past id time htime
  · exact h.past id time htime

theorem ctxCreate_contexts (s : Screen) (ctxId ctxInit : Nat) (ok : Bool) :
    (s.ctxCreate ctxId ctxInit ok).contexts =
      update s.contexts ctxId (if ok then some (capsetOf ctxInit) else none) := by
  cases ok with
  | false => rfl
  | true => exact Function.update_idem _ _ _

theorem ctxCreate_capset_self (h : ctxId < maxCtx) (ctxInit : Nat) (ok : Bool) :
    (s.ctxCreate ctxId ctxInit ok).ctxCapset ctxId = if ok then capsetOf ctxInit else s.ctxCapset ctxId := by
  cases ok with
  | false => rfl
  | true => exact (record_self h).trans (record_self h)

theorem ctxCreate_capset_of_ne {id : Nat} (h : id ≠ ctxId) (ctxInit : Nat) (ok : Bool) :
    (s.ctxCreate ctxId ctxInit ok).ctxCapset id = s.ctxCapset id := by
  cases ok with
  | false => rfl
  | true => exact record_of_ne h

theorem ctxCreate_ends (s : Screen) (ctxId ctxInit : Nat) (ok : Bool) :
    (s.ctxCreate ctxId ctxInit ok).gpu = s.gpu ∧
      (s.ctxCreate ctxId ctxInit ok).destroyed = (s.endContext ctxId).destroyed := by
  cases ok <;> exact ⟨rfl, rfl⟩

theorem ContextInv.ctxCreate (h : s.ContextInv) {ctxInit : Nat} {ok : Bool} (hok : ok = false → s.ctxCapset ctxId = 0)
    (hfree : (s.contexts ctxId).isSome → ∀ i < Gpu.bridgeSlots, s.Unowned ctxId i) :
    (s.ctxCreate ctxId ctxInit ok).ContextInv := by
  obtain ⟨hgpu, hdestroyed⟩ := s.ctxCreate_ends ctxId ctxInit ok
  refine ⟨fun id hid => ?_, fun id => ?_, ?_, ?_⟩
  · rw [ctxCreate_contexts]
    by_cases hc : id = ctxId
    · subst hc
      rw [ctxCreate_capset_self hid, update_self]
      cases ok with
      | false => exact hok rfl
      | true => rfl
    · rw [ctxCreate_capset_of_ne hc, update_of_ne hc]
      exact h.recorded id hid
  · rw [ctxCreate_contexts]
    by_cases hc : id = ctxId
    · subst hc
      rw [update_self]
      split
      · exact fun hzero => capsetOf_ne_zero ctxInit (Option.some.inj hzero)
      · exact fun hnone => (by cases hnone)
    · rw [update_of_ne hc]
      exact h.positive id
  · rw [hgpu, hdestroyed]
    exact h.past_endContext ctxId
  · rw [BridgesOwned, hgpu, hdestroyed]
    exact h.owned.endContext hfree

theorem ContextInv.releases (h : s.ContextInv) (hr : Releases s s') : s'.ContextInv where
  recorded := by
    rw [hr.ctxCapset, hr.contexts]
    exact h.recorded
  positive := by
    rw [hr.contexts]
    exact h.positive
  past := by
    rw [hr.destroyed, hr.clock]
    exact h.past
  owned i hi hxid time htime := by
    rcases hr.slots i with hsame | hzero
    · rw [hsame] at hxid ⊢
      rw [hsame, hr.destroyed] at htime
      exact h.owned i hi hxid time htime
    · exact absurd hzero hxid

theorem ContextInv.ctxDestroy (h : s.ContextInv) (ctxId : Nat) : (s.ctxDestroy ctxId).ContextInv := by
  obtain ⟨-, hr, hfree⟩ := releaseCtx_induct (s := s) ctxId (Q := fun _ => True) trivial
    fun _ _ _ _ _ => trivial
  have h₁ := h.releases hr
  rw [Screen.ctxDestroy]
  generalize s.releaseCtx ctxId = s₁ at h₁ hfree
  refine ⟨fun id hid => ?_, fun id => ?_, h₁.past_endContext ctxId, h₁.owned.endContext fun _ => hfree⟩
  · dsimp only [Screen.endContext]
    by_cases hc : id = ctxId
    · subst hc
      rw [update_self]
      exact record_self hid
    · rw [update_of_ne hc]
      exact (record_of_ne hc).trans (h₁.recorded id hid)
  · dsimp only [Screen.endContext]
    by_cases hc : id = ctxId
    · rw [hc, update_self]
      exact fun hnone => by cases hnone
    · rw [update_of_ne hc]
      exact h₁.positive id

theorem ContextInv.present (h : s.ContextInv) (resId : Nat) (f : Gpu.Frame) (bridgeOk uploadOk : Bool)
    (info : Option Info) (d : Desk) : (s.present resId f bridgeOk uploadOk info d).ContextInv := by
  have hafter : ∀ presentedBy, ContextInv
      { s with gpu := (s.gpu.present resId f bridgeOk uploadOk).2, presentedBy := presentedBy } := by
    intro presentedBy
    rcases s.gpu.present_cases resId f bridgeOk uploadOk with hp | ⟨resp, reads, hp⟩
    · rw [hp]
      exact h.same rfl rfl rfl rfl rfl
    · rw [hp]
      exact (h.bridged (s.gpu.bridgeResource_bridged bridgeOk f.xid f.ctxId f.width f.height) presentedBy).gpu rfl rfl
  rw [Screen.present]
  split
  · exact (hafter _).redraws (stream_redraws _ _ _ _ _ _ _)
  · exact hafter _

structure Clear (s : Screen) (i : Nat) : Prop where
  live : s.gpu.renderer.live (Gpu.bridgeRes i) = none
  gone : s.Gone (Gpu.bridgeRes i)

structure ScreenInv (s : Screen) : Prop where
  clear : ∀ i < Gpu.bridgeSlots, (s.gpu.bridge i).xid = 0 → s.Clear i
  sized : ∀ i < Gpu.bridgeSlots, s.gpu.Sized i
  owner : ∀ i < Gpu.bridgeSlots, (s.gpu.bridge i).xid ≠ 0 → s.presentedBy i = some (s.gpu.bridge i).ctxId

section

variable (h : s.ScreenInv)
include h

theorem ScreenInv.of_live (hi : i < Gpu.bridgeSlots)
    (hlive : s.gpu.renderer.live (Gpu.bridgeRes i) ≠ none) : (s.gpu.bridge i).xid ≠ 0 :=
  fun hzero => hlive (h.clear i hi hzero).live

theorem ScreenInv.of_names (hi : i < Gpu.bridgeSlots)
    (hnames : ∃ k < maxBindings, s.names (Gpu.bridgeRes i) k = true) : (s.gpu.bridge i).xid ≠ 0 := by
  intro hzero
  obtain ⟨k, hk, hk'⟩ := hnames
  rw [(h.clear i hi hzero).gone.bound k hk] at hk'
  cases hk'

theorem ScreenInv.redraws {P : Nat → Prop} (hr : Redraws P s s')
    (hP : ∀ i < Gpu.bridgeSlots, P (Gpu.bridgeRes i) → (s.gpu.bridge i).xid ≠ 0) : s'.ScreenInv where
  clear i hi hzero := by
    rw [hr.gpu] at hzero
    have hclear := h.clear i hi hzero
    have hnew : ¬ P (Gpu.bridgeRes i) := fun hp => hP i hi hp hzero
    refine ⟨by rw [hr.gpu]; exact hclear.live, fun j hj hshows => ?_, fun k hk => ?_⟩
    · exact hclear.gone.shown j hj ((hr.shows j _ hshows).resolve_right hnew)
    · rw [Bool.eq_false_iff]
      intro hnames
      have hbefore := (hr.names k _ hnames).resolve_right hnew
      rw [hclear.gone.bound k hk] at hbefore
      cases hbefore
  sized := by
    rw [hr.gpu]
    exact h.sized
  owner := by
    rw [hr.gpu, hr.presentedBy]
    exact h.owner

theorem ScreenInv.erases (hr : Redraws (fun _ => False) s s') : s'.ScreenInv :=
  h.redraws hr fun _ _ hp => hp.elim

theorem ScreenInv.gpu {g : Gpu} (hbridge : g.bridge = s.gpu.bridge)
    (hlive : ∀ i < Gpu.bridgeSlots, g.renderer.live (Gpu.bridgeRes i) ≠ none →
      s.gpu.renderer.live (Gpu.bridgeRes i) ≠ none) : ScreenInv { s with gpu := g } where
  clear i hi hzero := by
    dsimp only at hzero
    rw [hbridge] at hzero
    have hclear := h.clear i hi hzero
    exact ⟨by_contra fun hne => hlive i hi hne hclear.live, hclear.gone.shown, hclear.gone.bound⟩
  sized i hi hne := by
    dsimp only at hne ⊢
    rw [hbridge]
    exact h.sized i hi (hlive i hi hne)
  owner := by
    dsimp only
    rw [hbridge]
    exact h.owner

theorem ScreenInv.same (hgpu : s'.gpu = s.gpu) (hby : s'.presentedBy = s.presentedBy)
    (hpresenters : s'.presenters = s.presenters) (hbindings : s'.bindings = s.bindings) : s'.ScreenInv := by
  have hr : Redraws (fun _ => False) { s with ctxCapset := s'.ctxCapset, contexts := s'.contexts, destroyed := s'.destroyed }
      s' := by
    refine ⟨hgpu, rfl, rfl, hby, rfl, fun j id hshows => ?_, fun k id hnames => ?_⟩
    · rw [hpresenters] at hshows
      exact .inl hshows
    · rw [Screen.names, hbindings] at hnames
      exact .inl hnames
  have h' : ScreenInv { s with ctxCapset := s'.ctxCapset, contexts := s'.contexts, destroyed := s'.destroyed } :=
    ⟨fun i hi hzero => ⟨(h.clear i hi hzero).live, (h.clear i hi hzero).gone.shown, (h.clear i hi hzero).gone.bound⟩,
      h.sized, h.owner⟩
  exact h'.erases hr

theorem ScreenInv.bridged {g : Gpu} {pick xid : Nat} (hb : Gpu.Bridged s.gpu g pick xid ctxId)
    (hxid : xid ≠ 0) (hsized : g.Sized pick) :
    ScreenInv { s with gpu := g, presentedBy := update s.presentedBy pick (some ctxId) } where
  clear i hi hzero := by
    dsimp only at hzero
    by_cases hpick : i = pick
    · rw [hpick, hb.xid] at hzero
      exact absurd hzero hxid
    · rw [hb.others i hpick] at hzero
      have hclear := h.clear i hi hzero
      refine ⟨?_, hclear.gone.shown, hclear.gone.bound⟩
      exact (hb.live _ fun he => hpick (Gpu.bridgeRes_inj he)).trans hclear.live
  sized i hi := by
    by_cases hpick : i = pick
    · rw [hpick]
      exact hsized
    · intro hne
      dsimp only at hne ⊢
      rw [hb.live _ fun he => hpick (Gpu.bridgeRes_inj he)] at hne
      rw [hb.others i hpick]
      exact h.sized i hi hne
  owner i hi hne := by
    dsimp only at hne ⊢
    by_cases hpick : i = pick
    · rw [hpick, update_self, hb.ctxId]
    · rw [update_of_ne hpick, hb.others i hpick]
      rw [hb.others i hpick] at hne
      exact h.owner i hi hne

theorem ScreenInv.releaseSlot (hi : i < Gpu.bridgeSlots)
    (hcurrent : ¬ s.Unowned ctxId i → ∀ j < maxPresenters, (s.presenters j).Shows (Gpu.bridgeRes i) → j = s.current) :
    (s.releaseSlot ctxId i).ScreenInv := by
  rw [Screen.releaseSlot]
  split
  · exact h
  · rename_i howned
    have hgone := unref_gone (hcurrent howned)
    have h₁ := h.erases (s.unref_redraws (Gpu.bridgeRes i))
    generalize (s.r1Unref (Gpu.bridgeRes i)).r2Unref (Gpu.bridgeRes i) = s₁ at h₁ hgone
    have hdropped : (s₁.gpu.dropSlot i).renderer.live (Gpu.bridgeRes i) = none := Gpu.dropSlot_live_self (h₁.sized i hi)
    have hother : ∀ k ≠ i, ((s₁.gpu.dropSlot i).setSlot i ⟨0, 0, 0, 0, 0⟩).bridge k = s₁.gpu.bridge k := fun k hk =>
      (update_of_ne hk _ _).trans (congrFun (s₁.gpu.dropSlot_bridge i) k)
    have hlive : ∀ k ≠ i, (s₁.gpu.dropSlot i).renderer.live (Gpu.bridgeRes k) = s₁.gpu.renderer.live (Gpu.bridgeRes k) :=
      fun k hk => s₁.gpu.dropSlot_live_of_ne fun he => hk (Gpu.bridgeRes_inj he)
    refine ⟨fun k hk hzero => ?_, fun k hk hne => ?_, fun k hk hne => ?_⟩
    · by_cases hki : k = i
      · rw [hki]
        exact ⟨hdropped, hgone.shown, hgone.bound⟩
      · dsimp only at hzero
        rw [hother k hki] at hzero
        have hclear := h₁.clear k hk hzero
        exact ⟨(hlive k hki).trans hclear.live, hclear.gone.shown, hclear.gone.bound⟩
    · by_cases hki : k = i
      · rw [hki] at hne
        exact absurd hdropped hne
      · have hwidth := h₁.sized k hk (fun hnone => hne ((hlive k hki).trans hnone))
        dsimp only
        rwa [hother k hki]
    · by_cases hki : k = i
      · rw [hki] at hne
        exact absurd (setSlot_xid _ i) hne
      · dsimp only at hne ⊢
        rw [hother k hki] at hne ⊢
        exact h₁.owner k hk hne

end

end MoCoLinux.Cogpu.Screen
