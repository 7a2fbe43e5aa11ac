import MoCoLinux.Guest.Lemmas.IpiCalls

/-!
# Posted vectors: results
-/

namespace MoCoLinux.Ipi

open Threads (Config)

variable {allowed : Thread → State → State → Prop} {c c' : Config State Thread} {v : Vcpu} {level : Nat} {x : Vec}

theorem dispatches_of_taken (G : Threads.Good allowed (Inv False) (contract False) c)
    (h : (c.shared.own (.guest v level)).taken = some x) : Dispatches allowed c v level x := by
  refine ⟨h, fun c' hs => ?_⟩
  cases hs with
  | call => exact .inl rfl
  | done => exact .inl rfl
  | run hp hn hok =>
    obtain ⟨-, hg | heq⟩ := (G.busy _ _ hp).next (contract_lawful False _) G.shared hn hok
    · exact hg.dispatches v level x rfl h
    · exact .inl heq

/-- In every interleaving of posts and drains. -/
theorem posts_kept (c : Config State Thread) (h : Reachable (fun _ _ _ => True) c) :
    PostsKept (fun _ _ _ => True) c ∧ AnyTold c.shared := by
  have good := (sound (G := False) fun hG => hG.elim).reach h
  constructor
  · intro before v x after hist
    refine (good.shared.kept before v x after hist).imp id (Or.imp id ?_)
    rintro ⟨level, hl⟩
    exact ⟨level, dispatches_of_taken good hl⟩
  · rintro ⟨v, x, hp⟩ hposts hscans
    rcases good.shared.seen with hany | hcover
    · exact hany
    · rcases hcover v x hp with ⟨t, ht⟩ | ⟨t, k, hk, -⟩
      · exact absurd ht (hposts t)
      · rw [hscans t] at hk
        cases hk

def fresh : State := ⟨fun _ _ => false, false, fun _ => true, fun _ => false, fun _ => {}, fun _ => {}, fun _ _ => false, []⟩

theorem fresh_start : Fresh fresh :=
  ⟨fun _ _ => rfl, rfl, fun _ => rfl, fun _ => rfl, fun _ => rfl, rfl⟩

/-- Processor 0 posts vector 65 to processor 1, which drains. -/
theorem posts_kept_once : ∃ c, Reachable (fun _ _ _ => True) c ∧
    c.shared.history = [.post 1 65, .dispatch 1 65] ∧ PostsKept (fun _ _ _ => True) c ∧ AnyTold c.shared := by
  obtain ⟨c, hc, hout⟩ : ∃ c, Reachable (fun _ _ _ => True) c ∧ c.shared.history = [.post 1 65, .dispatch 1 65] :=
    Threads.played (fun _ _ _ => true) (fun _ _ _ _ => trivial)
      [.free (.guest 0 0) _ (.send 0 0 1 65) [0, 0, 0, 0, 0], .free (.guest 1 0) _ (.drain 1 0) (List.replicate 26 2)]
      fresh_start (by decide +kernel)
  exact ⟨c, hc, hout, posts_kept _ hc⟩

/-- In every run in which a processor crosses to the host with no bit that it posted to itself and no doorbell stands
for. -/
theorem idle_woken (c : Config State Thread) (h : Reachable (fun t s s' => OnProcessor t s s' ∧ Rung t s s') c) :
    Woken c.shared := by
  have good := (sound (G := True) fun _ _ _ _ h => h).reach h
  have awake := good.shared.awake trivial
  intro v hwait hposts
  obtain ⟨hout, hnone⟩ := awake.parked v hwait
  by_cases hw : c.shared.wake v = true
  · exact .inr hw
  · left
    intro x
    by_contra hp
    rw [Bool.not_eq_false] at hp
    cases hq : c.shared.quiet v x with
    | true => exact hw (awake.still v hout hnone x hp hq)
    | false =>
      rcases awake.rung v x hp hq with hwake | ⟨t, ht⟩ | ⟨k, hk, -⟩
      · exact hw hwake
      · exact hposts t (ht.elim (fun h => ⟨_, h⟩) fun h => ⟨_, h⟩)
      · rw [hnone] at hk
        cases hk

/-- Processor 1 posts to processor 0, which then idles: the wait ends at once. -/
theorem idle_woken_posted : ∃ c, Reachable (fun t s s' => OnProcessor t s s' ∧ Rung t s s') c ∧
    (c.shared.park 0).waiting = true ∧ c.shared.pending 0 65 = true ∧ Woken c.shared := by
  obtain ⟨c, hc, hout⟩ : ∃ c, Reachable (fun t s s' => OnProcessor t s s' ∧ Rung t s s') c ∧
      ((c.shared.park 0).waiting, c.shared.pending 0 65) = (true, true) :=
    Threads.played (fun t s s' => decide (OnProcessor t s s' ∧ Rung t s s')) (fun _ _ _ => of_decide_eq_true)
      [.free (.guest 1 0) _ (.send 1 0 0 65) [0, 0, 0, 0, 0], .free (.guest 0 0) _ (.idle 0) [0, 1, 0]]
      fresh_start (by decide +kernel)
  exact ⟨c, hc, congrArg Prod.fst hout, congrArg Prod.snd hout, idle_woken _ hc⟩

/-- Processor 0 posts a vector to itself and idles: it waits although the vector is pending, nobody posts and its event
is not signalled. -/
theorem idle_with_vector : ∃ c, Reachable OnProcessor c ∧ (c.shared.park 0).waiting = true ∧
    (∀ t, (c.shared.own t).posting = none) ∧ c.shared.pending 0 246 = true ∧ c.shared.wake 0 = false := by
  have hstart : Reachable OnProcessor ⟨fresh, fun _ => none⟩ := .start ⟨fresh_start, fun _ => rfl⟩
  have hreach := Threads.Reachable.play (fun _ _ _ => of_decide_eq_true) hstart
    (rfl : Threads.play (fun t s s' => decide (OnProcessor t s s'))
      [.free (.guest 0 0) _ (.sendSelf 0 0 246) [0, 0], .free (.guest 0 0) _ (.idle 0) [0, 1, 0]] _ = some _)
  refine ⟨_, hreach, rfl, fun t => ?_, rfl, rfl⟩
  rcases (fresh.setBitSelf (.guest 0 0) 0 246).setOwn_cases (.guest 0 0) {} t with ⟨-, heq⟩ | ⟨hne, heq⟩
  · exact congrArg Local.posting heq
  · have hfresh : ((fresh.setBitSelf (.guest 0 0) 0 246).own t) = {} := State.own_setOwn_of_ne hne
    exact congrArg Local.posting (heq.trans hfresh)

end MoCoLinux.Ipi
