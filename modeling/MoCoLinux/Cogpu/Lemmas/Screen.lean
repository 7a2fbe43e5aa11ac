import MoCoLinux.Cogpu.Lemmas.Bridge
import MoCoLinux.Cogpu.Screen

/-!
# What the operations on the screen change
-/

namespace MoCoLinux.Cogpu.Screen

open Function

variable {P Q : Nat → Prop} {s s' s'' : Screen} {resId : Nat}

structure Redraws (P : Nat → Prop) (s s' : Screen) : Prop where
  gpu : s'.gpu = s.gpu
  ctxCapset : s'.ctxCapset = s.ctxCapset
  contexts : s'.contexts = s.contexts
  presentedBy : s'.presentedBy = s.presentedBy
  destroyed : s'.destroyed = s.destroyed
  shows : ∀ j id, (s'.presenters j).Shows id → (s.presenters j).Shows id ∨ P id
  names : ∀ k id, s'.names id k = true → s.names id k = true ∨ P id

theorem Redraws.refl (s : Screen) : Redraws P s s where
  gpu := rfl
  ctxCapset := rfl
  contexts := rfl
  presentedBy := rfl
  destroyed := rfl
  shows _ _ h := .inl h
  names _ _ h := .inl h

theorem Redraws.trans (h : Redraws P s s') (h' : Redraws P s' s'') : Redraws P s s'' where
  gpu := h'.gpu.trans h.gpu
  ctxCapset := h'.ctxCapset.trans h.ctxCapset
  contexts := h'.contexts.trans h.contexts
  presentedBy := h'.presentedBy.trans h.presentedBy
  destroyed := h'.destroyed.trans h.destroyed
  shows j id hshows := by
    rcases h'.shows j id hshows with hshows | hnew
    · exact h.shows j id hshows
    · exact .inr hnew
  names k id hnames := by
    rcases h'.names k id hnames with hnames | hnew
    · exact h.names k id hnames
    · exact .inr hnew

theorem Redraws.mono (h : Redraws P s s') (hP : ∀ id, P id → Q id) : Redraws Q s s' :=
  { h with
    shows := fun j id hshows => (h.shows j id hshows).imp_right (hP id)
    names := fun k id hnames => (h.names k id hnames).imp_right (hP id) }

theorem Presenter.not_shows_empty (id : Nat) : ¬ Presenter.empty.Shows id := fun h => h.2 h.1.symm

theorem setCurrent_r1 (s : Screen) (p : Presenter) : (s.setCurrent p).r1 = p := update_self _ _ _

theorem setCurrent_redraws {p : Presenter} (h : ∀ id, p.Shows id → s.r1.Shows id ∨ P id) :
    Redraws P s (s.setCurrent p) :=
  { Redraws.refl (P := P) s with
    shows := by
      intro j id hshows
      by_cases hj : j = s.current
      · subst hj
        simp only [setCurrent, update_self] at hshows
        exact h id hshows
      · simp only [setCurrent, update_of_ne hj] at hshows
        exact .inl hshows }

theorem dropTarget_redraws (s : Screen) : Redraws P s s.dropTarget :=
  setCurrent_redraws fun id h => absurd h (Presenter.not_shows_empty id)

theorem current_redraws (s : Screen) (i : Nat) : Redraws P s { s with current := i } :=
  { Redraws.refl (P := P) s with }

theorem select_redraws (s : Screen) (xid : Nat) : Redraws P s (s.select xid) := by
  rw [Screen.select]
  split
  · exact current_redraws s _
  · split
    · exact current_redraws s _
    · dsimp only
      split
      · exact (current_redraws s _).trans (dropTarget_redraws _)
      · exact current_redraws s _

theorem leaveRung_redraws (s : Screen) : Redraws P s s.leaveRung := by
  rw [Screen.leaveRung]
  split
  · exact dropTarget_redraws s
  · exact .refl s

theorem surfacePoll_redraws (s : Screen) (d : Desk) : Redraws P s (s.surfacePoll d).2 := by
  have hpolled : Redraws P s (s.setCurrent { s.r1 with lastPoll := d.now }) := setCurrent_redraws fun _ h => .inl h
  rw [Screen.surfacePoll]
  split
  · exact .refl s
  · dsimp only
    split
    · exact hpolled
    · split
      · exact hpolled
      · split
        · exact hpolled.trans (dropTarget_redraws _)
        · exact hpolled

theorem ensureTarget_redraws (s : Screen) (xid : Nat) (d : Desk) : Redraws P s (s.ensureTarget xid d).2 := by
  rw [Screen.ensureTarget]
  split
  · exact .refl s
  · split
    · exact .refl s
    · exact .refl s
    · exact .refl s
    · exact dropTarget_redraws s
    · exact setCurrent_redraws fun _ h => .inl h

theorem drawOn_redraws (resId : Nat) (d : Desk) (p : Option Status × Screen) :
    Redraws (· = resId) p.2 (drawOn resId d p).2 := by
  rcases p with ⟨_ | status, s₁⟩
  · rw [Screen.drawOn]
    split
    · exact .refl s₁
    · exact .refl s₁
    · exact setCurrent_redraws fun id h => .inr h.1.symm
  · exact .refl s₁

theorem showPolled_redraws (xid resId : Nat) (d : Desk) (p : Bool × Screen) :
    Redraws (· = resId) p.2 (showPolled xid resId d p).2 := by
  rcases p with ⟨_ | _, s₁⟩
  · exact .refl s₁
  · exact (ensureTarget_redraws s₁ xid d).trans (drawOn_redraws resId d _)

theorem showOn_redraws (s : Screen) (xid resId : Nat) (d : Desk) : Redraws (· = resId) s (s.showOn xid resId d).2 :=
  ((select_redraws s xid).trans (leaveRung_redraws _)).trans
    ((surfacePoll_redraws _ d).trans (showPolled_redraws xid resId d _))

theorem poll_redraws (s : Screen) (d : Desk) : Redraws P s (s.poll d) := by
  rw [Screen.poll]
  split
  · exact surfacePoll_redraws s d
  · exact .refl s

theorem stream_redraws (s : Screen) (resId xid width height : Nat) (info : Option Info) (d : Desk) :
    Redraws (fun id => id = resId ∧ s.gpu.renderer.live id ≠ none) s (s.stream resId xid width height info d) := by
  rw [Screen.stream]
  split
  · exact .refl s
  · split
    · exact .refl s
    · rename_i info' hinfo
      obtain ⟨x, hlive, -⟩ := Option.bind_eq_some_iff.mp hinfo
      have hne : s.gpu.renderer.live resId ≠ none := by
        rw [hlive]
        exact Option.some_ne_none x
      split
      · exact (showOn_redraws s xid resId d).mono fun id hid => ⟨hid, hid ▸ hne⟩
      · exact .refl s

theorem r1Unref_redraws (s : Screen) (resId : Nat) : Redraws P s (s.r1Unref resId) := by
  rw [Screen.r1Unref]
  split
  · exact .refl s
  · exact dropTarget_redraws s

theorem setBindings_redraws {bindings : Nat → Option Binding} (generation : Nat)
    (h : ∀ k id, ((bindings k).any fun b => b.resourceId == id) = true → s.names id k = true ∨ P id) :
    Redraws P s { s with bindings := bindings, generation := generation } :=
  { Redraws.refl (P := P) s with names := h }

theorem clearBindings_redraws (s : Screen) (p : Nat → Bool) (generation : Nat) :
    Redraws P s { s with bindings := fun k => if p k then none else s.bindings k, generation := generation } := by
  apply setBindings_redraws
  intro k id hnames
  split at hnames
  · cases hnames
  · exact .inl hnames

theorem rebind_redraws (s : Screen) (k : Nat) : Redraws P s (s.rebind k) := by
  rw [Screen.rebind]
  split
  · split
    · exact dropTarget_redraws s
    · exact .refl s
  · exact .refl s

theorem bind_redraws (s : Screen) (r : Record) (info : Option Info) :
    Redraws (fun id => id = r.resourceId ∧ s.gpu.renderer.live id ≠ none) s (s.bind r info).2 := by
  rw [Screen.bind]
  split
  · exact .refl s
  · rename_i info' hinfo
    obtain ⟨x, hlive, -⟩ := Option.bind_eq_some_iff.mp hinfo
    split
    · exact .refl s
    · split
      · exact .refl s
      · split
        · exact .refl s
        · rename_i k hk
          refine (rebind_redraws s k).trans (setBindings_redraws _ fun k' id hnames => ?_)
          by_cases hk' : k' = k
          · subst hk'
            rw [update_self] at hnames
            have hid : r.resourceId = id := by simpa using hnames
            right
            rw [← hid, hlive]
            exact ⟨rfl, Option.some_ne_none x⟩
          · rw [update_of_ne hk'] at hnames
            exact .inl hnames

theorem bindingOf_names {r : Record} {b : Binding} (h : s.bindingOf r = some b) :
    ∃ k < maxBindings, s.names b.resourceId k = true := by
  obtain ⟨k, hfind, hk⟩ := Option.bind_eq_some_iff.mp h
  refine ⟨k, List.mem_range.mp (List.mem_of_find?_eq_some hfind), ?_⟩
  rw [Screen.names, hk, Option.any_some]
  exact beq_self_eq_true b.resourceId

theorem r2Present_redraws (s : Screen) (r : Record) (d : Desk) :
    Redraws (fun id => ∃ k < maxBindings, s.names id k = true) s (s.r2Present r d).2 := by
  rw [Screen.r2Present]
  split
  · exact .refl s
  · split
    · exact .refl s
    · rename_i b hb
      split
      · exact .refl s
      · refine (showOn_redraws s _ _ d).mono fun id hid => ?_
        rw [hid]
        exact bindingOf_names hb

theorem dropShowing_redraws (s : Screen) (resId : Nat) : Redraws P s (s.dropShowing resId) :=
  { Redraws.refl (P := P) s with
    shows := by
      intro j id hshows
      dsimp only [Screen.dropShowing] at hshows
      split at hshows
      · exact absurd hshows (Presenter.not_shows_empty id)
      · exact .inl hshows }

theorem unbind_redraws (s : Screen) (r : Record) : Redraws P s (s.unbind r).2 := by
  rw [Screen.unbind]
  split
  · exact .refl s
  · rename_i k hk
    split
    · exact .refl s
    · refine (dropShowing_redraws s _).trans (setBindings_redraws _ fun k' id hnames => ?_)
      by_cases hk' : k' = k
      · subst hk'
        rw [update_self] at hnames
        cases hnames
      · rw [update_of_ne hk'] at hnames
        exact .inl hnames

theorem r2Unref_redraws (s : Screen) (resId : Nat) : Redraws P s (s.r2Unref resId) := by
  have hcleared := clearBindings_redraws (P := P) s (s.names resId) s.generation
  rw [Screen.r2Unref]
  split
  · split
    · exact hcleared.trans (dropTarget_redraws _)
    · exact hcleared
  · exact .refl s

theorem reset_redraws (s : Screen) (generation : Nat) : Redraws P s (s.reset generation) := by
  rw [Screen.reset]
  split
  · refine (dropTarget_redraws s).trans (setBindings_redraws _ fun k id hnames => ?_)
    cases hnames
  · refine setBindings_redraws _ fun k id hnames => ?_
    cases hnames

theorem r1Unref_current (s : Screen) (resId : Nat) : (s.r1Unref resId).current = s.current := by
  rw [Screen.r1Unref]
  split <;> rfl

theorem r2Unref_current (s : Screen) (resId : Nat) : (s.r2Unref resId).current = s.current := by
  rw [Screen.r2Unref]
  split
  · split <;> rfl
  · rfl

theorem r1Unref_r1 (s : Screen) (resId : Nat) : ¬ (s.r1Unref resId).r1.Shows resId := by
  rw [Screen.r1Unref]
  split
  · rename_i hne
    exact fun h => hne h.1
  · rw [Screen.dropTarget, setCurrent_r1]
    exact Presenter.not_shows_empty resId

theorem r2Unref_names (s : Screen) (resId : Nat) : ∀ k < maxBindings, (s.r2Unref resId).names resId k = false := by
  intro k hk
  have hcleared : (if s.names resId k then none else s.bindings k).any (fun b => b.resourceId == resId) = false := by
    split
    · rfl
    · rename_i hnames
      exact Bool.eq_false_iff.mpr hnames
  rw [Screen.r2Unref]
  split
  · split
    · exact hcleared
    · exact hcleared
  · rename_i hfound
    rw [Bool.not_eq_true, List.any_eq_false] at hfound
    exact Bool.eq_false_iff.mpr (hfound k (List.mem_range.mpr hk))

theorem unref_gone (h : ∀ j < maxPresenters, (s.presenters j).Shows resId → j = s.current) :
    ((s.r1Unref resId).r2Unref resId).Gone resId := by
  refine ⟨fun j hj hshows => ?_, r2Unref_names _ _⟩
  rcases (r2Unref_redraws (P := fun _ => False) _ _).shows j resId hshows with hshows | hfalse
  · rcases (r1Unref_redraws (P := fun _ => False) s _).shows j resId hshows with hbefore | hfalse
    · have hcurrent := h j hj hbefore
      rw [hcurrent, ← r1Unref_current s resId] at hshows
      exact r1Unref_r1 s resId hshows
    · exact hfalse
  · exact hfalse

end MoCoLinux.Cogpu.Screen
