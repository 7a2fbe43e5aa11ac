import MoCoLinux.Kload.Lemmas.Begin
import MoCoLinux.Kload.Theorems.Ram

/-!
# A load that cannot begin: results
-/

namespace MoCoLinux.Loader

open Arch (Mem kernelMap)
open Kload

variable {host : Host} {puts minVa maxVa ramBytes ramUserVa ramUserBytes : Nat} {l l' : Loader} {m m' : Mem} {rc : Rc}

/-- The state a begin starts from, with nothing of a run in it. A teardown that outlasts the wait stays deferred. -/
def emptied (puts : Nat) (k : Kload) : Kload :=
  match k.free.waitForDeferredFree puts with
  | (true, k) => k.releasePages
  | (false, k) => k

/-- A failed begin leaves nothing of its arguments: the state depends on the state before and on the mappings dropped
during the wait alone, and a run that offers no view is backed by the pool. -/
structure LeavesEmpty (puts : Nat) (l l' : Loader) : Prop where
  state : l'.k = emptied puts l.k
  pool : ∀ host puts minVa maxVa ramBytes ramUserVa ramUserBytes m l'' m'', ¬ ViewUsable ramUserVa ramUserBytes →
    begin host puts minVa maxVa ramBytes ramUserVa ramUserBytes l' m = some (.ok, l'', m'') → l''.k.userRamVa = 0

/-- The calls of `co_kload_begin` whose failure leaves nothing: those that wait in vain for a deferred teardown, those
refused without a view on an empty loader, and those that fail after the arrays are allocated. -/
def FailsClean (host : Host) (puts minVa maxVa ramBytes ramUserVa ramUserBytes : Nat) (k : Kload) : Prop :=
  match k.free.waitForDeferredFree puts with
  | (false, _) => True
  | (true, k) =>
    BeginRefused minVa maxVa ramBytes ∧ ¬ ViewUsable ramUserVa ramUserBytes ∧ k.releasePages = k ∨
      ¬ BeginRefused minVa maxVa ramBytes ∧ host.p2mOk = true ∧ host.m2pOk = true

theorem beginArrays_userRamVa {capacity : Nat} (hsp : l.k.space = none)
    (h : beginArrays host capacity minVa maxVa l m = some (.ok, l', m')) : l'.k.userRamVa = l.k.userRamVa := by
  rcases beginArrays_outcomes hsp h with ⟨_, -, hne, -⟩ |
    ⟨k, ok, l₁, m₁, halloc, hgrow, ⟨hne, -⟩ | ⟨-, -, l₂, space, htop, rfl⟩⟩
  · exact absurd rfl hne
  · exact absurd rfl hne
  · obtain ⟨slots, -, -, -, -, -, rfl⟩ := translationAlloc_ok halloc
    obtain ⟨_, _, _, _, hk⟩ := (growTo_onlyGrown hgrow).k
    obtain ⟨_, _, _, rfl⟩ := htop
    simp only [hk]

theorem begin_pool {puts' : Nat} {k : Kload} (hl : l.k = emptied puts' k) (hview : ¬ ViewUsable ramUserVa ramUserBytes)
    (h : begin host puts minVa maxVa ramBytes ramUserVa ramUserBytes l m = some (.ok, l', m')) :
    l'.k.userRamVa = 0 := by
  rcases begin_outcomes h with ⟨-, hne, -⟩ | ⟨hwaited, ⟨-, hne, -⟩ | ⟨-, harrays⟩⟩
  · cases hne
  · cases hne
  · have hspace : l.k.free.space = none := l.k.free_space
    have hpool : (l.k.free.waitForDeferredFree puts).2.userRamVa = 0 := by
      rcases waitForDeferredFree_true hwaited with ⟨hnot, heq⟩ | heq
      · rw [heq]
        rw [emptied] at hl
        split at hl
        next k' hwait =>
          have hsp : k'.space = none := by
            have := waitForDeferredFree_space k.free_space puts'
            rwa [hwait] at this
          rw [hl, free_releasePages hsp]
          rfl
        next k' hwait =>
          -- the teardown was still deferred, and `co_kload_free` leaves it so
          have hpending := waitForDeferredFree_fst k.free puts'
          rw [hwait] at hpending
          rw [hl, free_pendingFree (by simpa using hpending)] at hnot
          cases hnot
      · rw [heq]
        rfl
    rw [withView_of_not_usable hview] at harrays
    have hsp : ((l.k.free.waitForDeferredFree puts).2.withLayout maxVa ramBytes).space = none := by
      rw [withLayout_space]
      exact waitForDeferredFree_space hspace puts
    rw [beginArrays_userRamVa hsp harrays]
    exact (withLayout_userRamVa _).trans hpool

theorem arrays_fail (A : Accepted minVa maxVa ramBytes) {k k' : Kload} {p2mOk m2pOk : Bool}
    (h : (k.withLayout maxVa ramBytes).translationAlloc (capacityPages maxVa ramBytes) p2mOk m2pOk = (rc, k'))
    (hrc : rc ≠ .ok) : ¬ (p2mOk = true ∧ m2pOk = true) ∧ k'.windowBasePages ≠ 0 := by
  have hbase : (k.withLayout maxVa ramBytes).windowBasePages ≠ 0 := by
    have hr := A.ramEnd_bounds.1
    have hi := A.imageHi_bounds.1
    rw [A.windowBasePages_eq, pagesUpTo]
    omega
  refine ⟨?_, ?_⟩
  · rintro ⟨rfl, rfl⟩
    obtain ⟨h0, hcap⟩ := A.capacityPages_bounds
    rw [translationAlloc_eq h0 hcap] at h
    exact hrc (Prod.mk.inj h).1.symm
  · obtain ⟨_, _, _, _, _, _, -, -, rfl⟩ := translationAlloc_fail h hrc
    exact hbase

theorem withView_empty_iff {k : Kload} :
    k.withView ramUserVa ramUserBytes = k.releasePages ↔ ¬ ViewUsable ramUserVa ramUserBytes ∧ k.releasePages = k := by
  constructor
  · intro hstate
    have hview : ¬ ViewUsable ramUserVa ramUserBytes := fun hu => by
      have hva : (k.withView ramUserVa ramUserBytes).userRamVa = 0 := by rw [hstate]; rfl
      exact hu.1 ((withView_of_usable hu k).symm.trans hva)
    rw [withView_of_not_usable hview] at hstate
    exact ⟨hview, hstate.symm⟩
  · rintro ⟨hview, hclean⟩
    rw [hclean]
    exact withView_of_not_usable hview _

/-- Once the arguments are accepted, a failed call is undone if both arrays were allocated. -/
theorem beginArrays_empty_iff {k : Kload} (hspace : k.space = none) (A : Accepted minVa maxVa ramBytes)
    (h : beginArrays host (capacityPages maxVa ramBytes) minVa maxVa
      { l with k := (k.withView ramUserVa ramUserBytes).withLayout maxVa ramBytes } m = some (rc, l', m'))
    (hrc : rc ≠ .ok) : l'.k = k.releasePages ↔ host.p2mOk = true ∧ host.m2pOk = true := by
  have hsp : ((k.withView ramUserVa ramUserBytes).withLayout maxVa ramBytes).space = none := by
    rw [withLayout_space, withView_space]
    exact hspace
  rcases beginArrays_outcomes (l := { l with k := (k.withView ramUserVa ramUserBytes).withLayout maxVa ramBytes })
      hsp h with ⟨k₁, halloc, -, rfl⟩ | ⟨k₁, ok, l₁, m₁, halloc, hgrow, ⟨-, hk⟩ | ⟨rfl, -⟩⟩
  · obtain ⟨hfail, hbase⟩ := arrays_fail A halloc hrc
    refine iff_of_false (fun hstate => hbase ?_) hfail
    rw [show k₁ = _ from hstate]
    rfl
  · obtain ⟨slots, -, hmemory, -⟩ := translationAlloc_ok halloc
    refine iff_of_true ?_ hmemory
    rw [hk, (growTo_onlyGrown hgrow).release, translationAlloc_release halloc, withLayout_release, withView_release]
  · exact absurd rfl hrc

/-- A failed begin leaves an empty loader exactly under this condition. -/
theorem begin_failure_iff (hword : maxVa < 2 ^ 64)
    (h : begin host puts minVa maxVa ramBytes ramUserVa ramUserBytes l m = some (rc, l', m')) (hrc : rc ≠ .ok) :
    LeavesEmpty puts l l' ↔ FailsClean host puts minVa maxVa ramBytes ramUserVa ramUserBytes l.k := by
  have hiff : LeavesEmpty puts l l' ↔ l'.k = emptied puts l.k :=
    ⟨LeavesEmpty.state, fun hstate => ⟨hstate, fun _ _ _ _ _ _ _ _ _ _ hview hok => begin_pool hstate hview hok⟩⟩
  have houtcomes := begin_outcomes h
  have hspace := waitForDeferredFree_space l.k.free_space puts
  rw [hiff, emptied, FailsClean]
  generalize l.k.free.waitForDeferredFree puts = waited at houtcomes hspace ⊢
  obtain ⟨_ | _, k⟩ := waited
  all_goals dsimp only at houtcomes hspace ⊢
  · obtain ⟨-, -, rfl⟩ | ⟨htrue, -⟩ := houtcomes
    · exact iff_of_true rfl trivial
    · cases htrue
  · rcases houtcomes with ⟨hfalse, -⟩ | ⟨-, ⟨hrefused, -, rfl⟩ | ⟨haccepted, harrays⟩⟩
    · cases hfalse
    · simp only [hrefused, true_and, not_true, false_and, or_false]
      exact withView_empty_iff
    · simp only [haccepted, false_and, not_false_iff, true_and, false_or]
      exact beginArrays_empty_iff hspace (accepted_of_not_refused haccepted hword) harrays hrc

def poorHost : Host := { freshHost with pages := fun _ => none }

/-- The image and the tables cannot be backed. -/
theorem begin_failure_noMemory : ∃ l' m', begin poorHost 0 (kernelMap + 0x1000000) (kernelMap + 0x2000000) (2 ^ 30)
    4096 (2 ^ 30) unloaded (fun _ _ => 0) = some (.outOfMemory, l', m') ∧ LeavesEmpty 0 unloaded l' := by
  have hrun : (begin poorHost 0 (kernelMap + 0x1000000) (kernelMap + 0x2000000) (2 ^ 30) 4096 (2 ^ 30) unloaded
      fun _ _ => 0).map Prod.fst = some .outOfMemory := by decide +kernel
  obtain ⟨⟨rc, l', m'⟩, hbegin, rfl⟩ := Option.map_eq_some_iff.mp hrun
  exact ⟨l', m', hbegin, (begin_failure_iff (by decide) hbegin (by decide)).mpr
    (Or.inr ⟨by decide +kernel, rfl, rfl⟩)⟩

/-- The view of a call that is refused is used by the next run, which offers none; and the layout of a call that
gets no m2p stays. -/
theorem begin_keeps_arguments :
    (∃ l₁ m₁ l₂ m₂,
      begin freshHost 0 0 0 0 4096 (sectionBytes (2 ^ 30)) unloaded (fun _ _ => 0) = some (.invalidParameter, l₁, m₁) ∧
      begin freshHost 0 (kernelMap + 0x1000000) (kernelMap + 0x2000000) (2 ^ 30) 0 0 l₁ m₁ = some (.ok, l₂, m₂) ∧
      l₂.k.userRamVa = 4096 ∧ ¬ LeavesEmpty 0 unloaded l₁) ∧
    ∃ l₁ m₁, begin { freshHost with m2pOk := false } 0 (kernelMap + 0x1000000) (kernelMap + 0x2000000) (2 ^ 30) 0 0
      unloaded (fun _ _ => 0) = some (.outOfMemory, l₁, m₁) ∧ ¬ LeavesEmpty 0 unloaded l₁ := by
  constructor
  · have hacc : ¬ BeginRefused (kernelMap + 0x1000000) (kernelMap + 0x2000000) (2 ^ 30) := by decide +kernel
    have A := accepted_of_not_refused hacc (by decide)
    have hview := withView_section A unloaded.k.free 4096 (by decide) (by decide)
    have hidle : Idle { unloaded with k := unloaded.k.free.withView 4096 (sectionBytes (2 ^ 30)) } :=
      ⟨rfl, rfl, rfl, rfl, rfl⟩
    have hfit : Fits ((unloaded.k.free.withView 4096 (sectionBytes (2 ^ 30))).free.withView 0 0)
        (kernelMap + 0x2000000) (2 ^ 30) := section_fits A (by decide +kernel) hview.2
    obtain ⟨l₂, m₂, S, hbegin, hbegun⟩ := begin_ok freshHost_answers hidle hacc A hfit 0 fun _ _ => 0
    refine ⟨_, _, l₂, m₂, rfl, hbegin, hbegun.userRamVa, fun hleaves => ?_⟩
    have hva : (4096 : Nat) = 0 := congrArg Kload.userRamVa hleaves.state
    omega
  · have hrun : (begin { freshHost with m2pOk := false } 0 (kernelMap + 0x1000000) (kernelMap + 0x2000000) (2 ^ 30) 0 0
        unloaded fun _ _ => 0).map (fun r => (r.1, r.2.1.k.windowBasePages)) = some (.outOfMemory, 0x40400) := by
      decide +kernel
    obtain ⟨⟨rc, l₁, m₁⟩, hbegin, hr⟩ := Option.map_eq_some_iff.mp hrun
    simp only [Prod.mk.injEq] at hr
    obtain ⟨rfl, hbase⟩ := hr
    refine ⟨l₁, m₁, hbegin, fun hleaves => ?_⟩
    have hzero : l₁.k.windowBasePages = 0 := congrArg Kload.windowBasePages hleaves.state
    omega

end MoCoLinux.Loader
