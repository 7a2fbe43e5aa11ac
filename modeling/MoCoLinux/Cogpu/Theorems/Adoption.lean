import MoCoLinux.Cogpu.Theorems.Fences

/-!
# A second daemon on the queues of a first: results
-/

namespace MoCoLinux.Cogpu

variable {v : Vq} {desc : Nat → Nat → Desc} {resolve : Nat → Nat → Option Nat}

namespace Vq

theorem Inv.pop_at (h : v.Inv) (hnum : v.vr.num ≤ 2 ^ 15) (hwf : v.WellFormed desc resolve) {k : Nat} (used : Nat)
    (hout : v.published.length ≤ k) (hk : k < v.offered.length) :
    ∃ chain, (Vring.pop ⟨v.vr.num, u16 (v.base + k), used⟩ (v.view desc resolve)).1 = some chain ∧
      v.offered[k]? = some chain.head := by
  have hfits := h.window.fits
  have hat := h.ring_at hout hk
  have hhead := h.head_lt hat
  have hword : u16 (v.ring ((v.base + k) % v.vr.num)) = v.ring ((v.base + k) % v.vr.num) :=
    Nat.mod_eq_of_lt (Nat.lt_of_lt_of_le hhead (Nat.le_trans hnum (by decide)))
  have hsub : u16Sub (u16 (v.base + v.offered.length)) (u16 (v.base + k)) = v.offered.length - k := by
    have hdist := Ring.index_sub (W := 2 ^ 16) (t := v.base + k) (h := v.base + v.offered.length) (by omega) (by omega)
    rw [u16Sub, u16, u16, hdist]
    omega
  have hnew : u16 (v.base + v.offered.length) ≠ u16 (v.base + k) := by
    intro heq
    rw [heq, u16Sub, u16] at hsub
    omega
  have hbehind : ¬ v.vr.num < v.offered.length - k := by omega
  have havail : u16 v.availIdx = u16 (v.base + v.offered.length) := by
    rw [h.avail]
    exact Nat.mod_mod ..
  obtain ⟨chain, hchain⟩ := Option.isSome_iff_exists.mp (hwf _ (List.mem_of_getElem? hat))
  refine ⟨chain, ?_, ?_⟩
  · have hin : ¬ v.vr.num ≤ v.ring ((v.base + k) % v.vr.num) := Nat.not_le.mpr hhead
    rw [Vring.pop]
    simp only [Vq.view, havail, hnew, hsub, hbehind, if_false, h.cell, hword, hin]
    exact hchain
  · rw [Vring.walk_head hchain]
    exact hat

theorem Inv.popAll (h : v.Inv) (hnum : v.vr.num ≤ 2 ^ 15) (hwf : v.WellFormed desc resolve) {k used turns : Nat}
    (hout : v.published.length ≤ k) (hle : k ≤ v.offered.length) (hturns : v.offered.length - k < turns) :
    popAll (v.view desc resolve) turns ⟨v.vr.num, u16 (v.base + k), used⟩ = v.offered.drop k := by
  induction turns generalizing k with
  | zero => omega
  | succ turns ih =>
    rw [Vq.popAll]
    rcases Nat.lt_or_eq_of_le hle with hlt | rfl
    · obtain ⟨chain, hpop, hhead⟩ := h.pop_at hnum hwf used hout hlt
      have hnext : u16 (u16 (v.base + k) + 1) = u16 (v.base + (k + 1)) := by
        unfold u16
        omega
      have hrest := ih (k := k + 1) (by omega) hlt (by omega)
      obtain ⟨_, hfirst⟩ := List.getElem?_eq_some_iff.mp hhead
      rw [hpop, Vring.popped]
      dsimp only
      rw [hnext, hrest, List.drop_eq_getElem_cons hlt, hfirst]
    · have hempty : (Vring.pop ⟨v.vr.num, u16 (v.base + v.offered.length), used⟩ (v.view desc resolve)).1 = none := by
        have havail : u16 v.availIdx = u16 (v.base + v.offered.length) := by
          rw [h.avail]
          exact Nat.mod_mod ..
        simp [Vring.pop, Vq.view, havail]
      rw [hempty, List.drop_length]

theorem Inv.servedNext (h : v.Inv) (hnum : v.vr.num ≤ 2 ^ 15) (hwf : v.WellFormed desc resolve) :
    v.servedNext desc resolve = v.offered.drop v.published.length := by
  have hfits := h.window.fits
  have hle := Nat.le_trans h.published_le h.pops
  have hjoin : u16 v.usedIdx = u16 (v.base + v.published.length) := by
    rw [h.idx, h.used]
    exact Nat.mod_mod ..
  rw [Vq.servedNext, rejoin, hjoin]
  exact h.popAll hnum hwf (Nat.le_refl _) hle (by omega)

/-- Completions were published in the order in which their chains were made available. -/
def PublishedInOrder (v : Vq) : Prop := ∀ k ∈ v.published, ∀ j < k, j ∈ v.published

theorem Inv.mem_published_iff (h : v.Inv) (horder : v.PublishedInOrder) {k : Nat} :
    k ∈ v.published ↔ k < v.published.length := by
  have hbelow : ∀ k ∈ v.published, k < v.published.length := by
    intro k hk
    have hsub : List.range (k + 1) ⊆ v.published := by
      intro j hj
      rcases Nat.lt_succ_iff_lt_or_eq.mp (List.mem_range.mp hj) with hlt | rfl
      · exact horder k hk j hlt
      · exact hk
    have hle := (List.subperm_of_subset List.nodup_range hsub).length_le
    rwa [List.length_range] at hle
  refine ⟨hbelow k, fun hk => ?_⟩
  have hperm : v.published.Perm (List.range v.published.length) :=
    (List.subperm_of_subset h.once fun k hk => List.mem_range.mpr (hbelow k hk)).perm_of_length_le (by simp)
  exact hperm.mem_iff.mpr (List.mem_range.mpr hk)

theorem Inv.resumes_iff (h : v.Inv) : v.Resumes (v.offered.drop v.published.length) ↔ v.PublishedInOrder := by
  have hle := Nat.le_trans h.published_le h.pops
  constructor
  · rintro ⟨numbers, hnodup, hnumbers, heads⟩
    -- no chain that stands before the place of joining is left
    have hbehind : ∀ j < v.published.length, j ∈ v.published := by
      intro j hj
      by_contra hout
      have hmem : v.offered[j]? ∈ numbers.map fun k => v.offered[k]? :=
        List.mem_map.mpr ⟨j, (hnumbers j).mpr ⟨by omega, hout⟩, rfl⟩
      rw [← heads, List.mem_map] at hmem
      obtain ⟨head, hhead, heq⟩ := hmem
      obtain ⟨i, hi⟩ := List.mem_iff_getElem?.mp hhead
      rw [List.getElem?_drop] at hi
      exact hout (h.reused j (v.published.length + i) head (by omega) heq.symm hi)
    intro k hk j hjk
    have hperm : (List.range v.published.length).Perm v.published :=
      (List.subperm_of_subset List.nodup_range fun j hj => hbehind j (List.mem_range.mp hj)).perm_of_length_le (by simp)
    have hlt := List.mem_range.mp (hperm.mem_iff.mpr hk)
    exact hbehind j (by omega)
  · intro horder
    refine ⟨List.range' v.published.length (v.offered.length - v.published.length), List.nodup_range', fun k => ?_, ?_⟩
    · rw [List.mem_range'_1, h.mem_published_iff horder]
      omega
    · refine List.ext_getElem (by simp) fun i hi _ => ?_
      simp only [List.length_map, List.length_drop] at hi
      simp only [List.getElem_map, List.getElem_drop, List.getElem_range', Nat.one_mul]
      exact (List.getElem?_eq_getElem (by omega)).symm

end Vq

namespace Loop

variable {nums : List Nat} {s : Loop}

theorem Reachable.chains {ok : Loop → Event → Prop} (h : Reachable nums ok s) (hsized : Sized nums) :
    s.Chains nums [] := by
  refine Runs.Reach.invariant (P := Chains nums []) (fun s hs => hs.chains hsized) (fun s event s' hinv hs => ?_) h
  obtain ⟨he, -, rfl⟩ := hs
  exact hinv.step he

/-- For every history of queues served by one daemon: a second daemon serves exactly the chains that were made
available and not published if and only if the first one published in order. -/
theorem second_resumes_iff (nums : List Nat) (hsized : Sized nums) (s : Loop) (h : Reachable nums (fun _ _ => True) s)
    (q : Nat) (hq : q < nums.length) (desc : Nat → Nat → Desc) (resolve : Nat → Nat → Option Nat)
    (hwf : (s.queue q).WellFormed desc resolve) :
    (s.queue q).Resumes ((s.queue q).servedNext desc resolve) ↔ (s.queue q).PublishedInOrder := by
  have hkeeps := (h.chains hsized).queues q _ (List.getElem?_eq_getElem hq)
  obtain ⟨k, hk, heq⟩ := hsized _ (List.getElem_mem hq)
  have hle : (s.queue q).vr.num ≤ 2 ^ 15 := by
    rw [hkeeps.size, heq]
    exact Nat.pow_le_pow_right (by decide) hk
  rw [hkeeps.inv.servedNext hle hwf]
  exact hkeeps.inv.resumes_iff

theorem oneQueue_sized : Sized [2] := by
  intro n hn
  exact ⟨1, by decide, List.mem_singleton.mp hn⟩

def offeredTwice : Loop := (oneQueue.step (.offer 0 0)).step (.offer 0 1)

theorem offeredTwice_reachable : Reachable [2] (fun _ _ => True) offeredTwice := by
  have hfirst : Reachable [2] (fun _ _ => True) (oneQueue.step (.offer 0 0)) := by
    refine Reachable.step (.start oneQueue_start) (.offer 0 0) ⟨by decide, by decide, ?_⟩ trivial
    intro k hk
    cases hk
  refine hfirst.step (.offer 0 1) ⟨by decide, by decide, fun k hk => ?_⟩ trivial
  have hmem : 1 ∈ [0] := List.mem_of_getElem? hk
  simp at hmem

def emptyDesc : Nat → Nat → Desc := fun _ _ => ⟨0, 0, 0, 0⟩

def answeredOnce : Loop := (offeredTwice.step (popEmpty 0)).step (.finish 24)

theorem second_resumes_answered :
    (answeredOnce.queue 0).Resumes ((answeredOnce.queue 0).servedNext emptyDesc fun _ _ => none) := by
  have hidle : offeredTwice.stage = .idle := by decide +kernel
  have hpopped := offeredTwice_reachable.step (popEmpty 0) ⟨by decide, hidle⟩ trivial
  have hbusy : (offeredTwice.step (popEmpty 0)).stage ≠ .idle := by decide +kernel
  have hanswered := hpopped.step (.finish 24) hbusy trivial
  have hpublished : (answeredOnce.queue 0).published = [0] := by decide +kernel
  refine (second_resumes_iff [2] oneQueue_sized answeredOnce hanswered 0 (by decide) emptyDesc (fun _ _ => none)
    (by rw [Vq.WellFormed]; decide +kernel)).mpr ?_
  rw [Vq.PublishedInOrder, hpublished]
  decide

def overtaken : Loop :=
  ((((offeredTwice.step (popEmpty 0)).step (.fence ⟨3, 1, 7⟩)).step (.finish 24)).step (popEmpty 0)).step (.finish 24)

/-- The second daemon serves the second chain again, and never the first. -/
theorem second_serves_again : Reachable [2] (fun _ _ => True) overtaken ∧
    (overtaken.queue 0).published = [1] ∧ (overtaken.queue 0).servedNext emptyDesc (fun _ _ => none) = [1] ∧
    ¬ (overtaken.queue 0).Resumes [1] := by
  have hidle : offeredTwice.stage = .idle := by decide +kernel
  have hpopped := offeredTwice_reachable.step (popEmpty 0) ⟨by decide, hidle⟩ trivial
  have hserving : (offeredTwice.step (popEmpty 0)).stage = .serving ⟨0, 0, 0⟩ none := by decide +kernel
  have hfenced := hpopped.step (.fence ⟨3, 1, 7⟩) ⟨⟨0, 0, 0⟩, hserving⟩ trivial
  have hbusy : ((offeredTwice.step (popEmpty 0)).step (.fence ⟨3, 1, 7⟩)).stage ≠ .idle := by decide +kernel
  have hparked := hfenced.step (.finish 24) hbusy trivial
  have hidle : (((offeredTwice.step (popEmpty 0)).step (.fence ⟨3, 1, 7⟩)).step (.finish 24)).stage = .idle := by
    decide +kernel
  have hagain := hparked.step (popEmpty 0) ⟨by decide, hidle⟩ trivial
  have hbusy : ((((offeredTwice.step (popEmpty 0)).step (.fence ⟨3, 1, 7⟩)).step (.finish 24)).step
      (popEmpty 0)).stage ≠ .idle := by decide +kernel
  have hpublished : (overtaken.queue 0).published = [1] := by decide +kernel
  have hoffered : (overtaken.queue 0).offered = [0, 1] := by decide +kernel
  refine ⟨hagain.step (.finish 24) hbusy trivial, hpublished, by decide +kernel, ?_⟩
  rintro ⟨numbers, -, hnumbers, heads⟩
  rw [hpublished, hoffered] at hnumbers
  have hleft : 0 ∈ numbers := (hnumbers 0).mpr ⟨by decide, by decide⟩
  have hmem : (overtaken.queue 0).offered[0]? ∈ numbers.map fun k => (overtaken.queue 0).offered[k]? :=
    List.mem_map.mpr ⟨0, hleft, rfl⟩
  rw [← heads, hoffered] at hmem
  simp at hmem

end Loop

end MoCoLinux.Cogpu
