import MoCoLinux.Arch.Lemmas.RunCalls

/-!
# The lifecycle of a run: results
-/

namespace MoCoLinux.Arch.Lifecycle

open Threads (Prog Config)

theorem Inv.orderly {strict : Bool} {s : Lifecycle} (h : Inv strict s) : Orderly s where
  oneRun := by
    by_cases hnil : s.booting = []
    · simp [hnil]
    · obtain ⟨t, hone, -⟩ := h.gate.booting hnil
      simp [hone]
  apart hne := by
    obtain ⟨t, -, hholder⟩ := h.gate.booting hne
    exact h.gate.no_tests (h.gate.held.mp (by rw [hholder]; nofun))
  counted := h.gate.counted
  oneOwner := h.slots.oneOwner
  joined v t hmem := (h.slots.joined v t hmem).2.2

/-- In every interleaving in which fewer than 2^28 lanes of TEST_SMP are inside. -/
theorem lifecycle_orderly (c : Config Lifecycle Nat) (h : Reachable Countable c) : Orderly c.shared := h.inv.orderly

theorem start_reachable (allowed : Nat → Lifecycle → Lifecycle → Prop) :
    Reachable allowed ⟨initial, fun _ => none⟩ := .start ⟨rfl, fun _ => rfl⟩

/-- Two TEST_SMP lanes own slots 0 and 1, and KBOOT is refused. -/
theorem lifecycle_orderly_two_lanes : ∃ c, Reachable Countable c ∧ c.shared.testing = [1, 0] ∧
    c.shared.owners 0 = [(0, .test)] ∧ c.shared.owners 1 = [(1, .test)] ∧ Orderly c.shared := by
  obtain ⟨c, hc, hout⟩ : ∃ c, Reachable Countable c ∧
      (c.shared.testing, c.shared.owners 0, c.shared.owners 1) = ([1, 0], [(0, .test)], [(1, .test)]) :=
    Threads.played (Countable · · ·) (fun _ _ _ => of_decide_eq_true)
      [.free 0 _ (fun _ => .test 0) (List.replicate 13 1), .free 1 _ (fun _ => .test 1) (List.replicate 10 1),
        .free 2 _ (fun _ => .run .boot) [1]] rfl (by decide +kernel)
  simp only [Prod.mk.injEq] at hout
  exact ⟨c, hc, hout.1, hout.2.1, hout.2.2, lifecycle_orderly _ hc⟩

theorem testLane_enters (n : Nat) {s : Lifecycle} (hstate : s.gate.state = .testing) :
    ∃ p, (testLane n 0).advance (fun _ _ => true) [1, 1, 1, 1] s = some (p, enter n { s with gate := s.gate.add 1 }) := by
  simp [Prog.advance, Prog.next, testLane, maxVcpus, Prog.pick, testEnter, Prog.loop, Prog.retry, testEnterRound,
    Prog.read, cas, Prog.bind, hstate]

def crowded (n : Nat) : Lifecycle :=
  { initial with gate := ⟨.testing, Int.bmod n (2 ^ 29)⟩, testing := (List.range n).reverse }

theorem crowded_gate (n : Nat) : (crowded n).gate.add 1 = (crowded (n + 1)).gate := by
  simp only [crowded, Word.add, Int.bmod_add_bmod, Int.natCast_add, Int.natCast_one]

theorem crowded_succ (n : Nat) : enter n { crowded n with gate := (crowded n).gate.add 1 } = crowded (n + 1) := by
  rw [crowded_gate]
  simp only [enter, crowded, List.range_succ, List.reverse_append, List.reverse_singleton, List.singleton_append]

theorem enters_reachable {n : Nat} {c : Config Lifecycle Nat} {p : Threads.Prog Lifecycle Unit} {s : Lifecycle}
    (picks : List Nat) (h : Reachable (fun _ _ _ => True) c) (hidle : c.thread n = none)
    (hrun : (testLane n 0).advance (fun _ _ => true) picks c.shared = some (p, s)) :
    ∃ c', Reachable (fun _ _ _ => True) c' ∧ c'.shared = s ∧ ∀ j, j ≠ n → c'.thread j = c.thread j := by
  have hgo : c.go (fun _ _ _ => true) n picks (testLane n 0) = some ⟨s, Function.update c.thread n p.rest⟩ := by
    rw [Config.go, hrun, Option.map_some]
  exact ⟨_, Threads.Reachable.call (fun _ _ _ _ => trivial) picks h hidle (.test 0) hgo, rfl,
    fun j hj => Function.update_of_ne hj _ _⟩

theorem crowded_reachable (n : Nat) : ∃ c, Reachable (fun _ _ _ => True) c ∧ c.shared = crowded (n + 1) ∧
    ∀ j, n < j → c.thread j = none := by
  induction n with
  | zero =>
    obtain ⟨p, hrun⟩ : ∃ p, (testLane 0 0).advance (fun _ _ => true) (List.replicate 7 1) initial =
        some (p, crowded 1) := ⟨_, rfl⟩
    obtain ⟨c, hreach, hshared, hidle⟩ := enters_reachable _ (start_reachable _) rfl hrun
    exact ⟨c, hreach, hshared, fun j hj => hidle j (Nat.ne_of_gt hj)⟩
  | succ n ih =>
    obtain ⟨c, hc, hshared, hidle⟩ := ih
    obtain ⟨p, hrun⟩ := testLane_enters (n + 1) (s := crowded (n + 1)) rfl
    rw [crowded_succ, ← hshared] at hrun
    obtain ⟨c', hreach, hshared', hothers⟩ := enters_reachable _ hc (hidle _ (Nat.lt_succ_self n)) hrun
    exact ⟨c', hreach, hshared', fun j hj => (hothers j (Nat.ne_of_gt hj)).trans (hidle j (Nat.lt_of_succ_lt hj))⟩

/-- With 2^28 lanes inside, the references in the gate are negative. -/
theorem references_wrap : ∃ c, Reachable (fun _ _ _ => True) c ∧ c.shared.testing.length = 2 ^ 28 ∧
    c.shared.gate.refs = -2 ^ 28 ∧ ¬ Orderly c.shared := by
  obtain ⟨c, hc, hshared, -⟩ := crowded_reachable (2 ^ 28 - 1)
  have hlength : c.shared.testing.length = 2 ^ 28 := by simp [hshared, crowded]
  have hrefs : c.shared.gate.refs = -2 ^ 28 := by
    rw [hshared]
    decide +kernel
  refine ⟨c, hc, hlength, hrefs, fun h => ?_⟩
  have hcounted := h.counted
  omega

theorem Inv.attributed {s : Lifecycle} (h : Inv true s) : Attributed s where
  told hlooping hflag := h.flag.stops (h.flag.told rfl (h.gate.begun (h.gate.looping hlooping)) hflag)
  kept hholder t hstop hended := ((h.flag.ended t s.serial hended).2 rfl hholder).2 rfl hstop

/-- In every interleaving in which no store of the flag comes late and no clear of it does. -/
theorem stops_attributed (c : Config Lifecycle Nat) (h : RunReachable Timely c) : Attributed c.shared :=
  h.inv.attributed

def seen (s : Lifecycle) : Bool × Bool × Nat × List (Nat × Nat) := (s.looping, s.abortAll, s.serial, s.stops)

def boots : Threads.Move fun i (_ : Lifecycle) p => RunCalls i p := .free 0 _ (fun _ => .boot) (List.replicate 10 1)

/-- A KSTOP stops the first run. -/
theorem stops_attributed_first_run : ∃ c, RunReachable Timely c ∧
    seen c.shared = (true, true, 1, [(1, 1)]) ∧ Attributed c.shared := by
  obtain ⟨c, hc, hseen⟩ : ∃ c, RunReachable Timely c ∧ seen c.shared = (true, true, 1, [(1, 1)]) :=
    Threads.played (Timely · · ·) (fun _ _ _ => of_decide_eq_true)
      [boots, .free 1 _ (fun _ => .kstop) (List.replicate 7 1)] rfl (by decide +kernel)
  exact ⟨c, hc, hseen, stops_attributed _ hc⟩

/-- A KSTOP sees the first run RUNNING. That run ends by itself; the abort finds the gate IDLE, and its flag stops the
second run. -/
theorem late_stop : ∃ c, RunReachable (fun _ _ _ => True) c ∧ c.shared.looping = true ∧ c.shared.abortAll = true ∧
    ∀ i, (i, c.shared.serial) ∉ c.shared.stops := by
  obtain ⟨c, hc, hseen⟩ : ∃ c, RunReachable (fun _ _ _ => True) c ∧ seen c.shared = (true, true, 2, [(0, 1)]) :=
    Threads.played (fun _ _ _ => true) (fun _ _ _ _ => trivial)
      [boots, .free 1 _ (fun _ => .kstop) [1], .resume 0 (0 :: List.replicate 23 1), .resume 1 (List.replicate 4 1),
        boots, .resume 1 [1]] rfl (by decide +kernel)
  simp only [seen, Prod.mk.injEq] at hseen
  obtain ⟨hlooping, hflag, hserial, hstops⟩ := hseen
  exact ⟨c, hc, hlooping, hflag, fun i => by simp [hserial, hstops]⟩

theorem cleared_stop : ∃ c, RunReachable (fun _ _ _ => True) c ∧ c.shared.holder = some 0 ∧
    (1, c.shared.serial) ∈ c.shared.stops ∧ (1, c.shared.serial) ∈ c.shared.ended ∧ c.shared.abortAll = false := by
  obtain ⟨c, hc, hout⟩ : ∃ c, RunReachable (fun _ _ _ => True) c ∧ (c.shared.holder, c.shared.abortAll,
      decide ((1, c.shared.serial) ∈ c.shared.stops), decide ((1, c.shared.serial) ∈ c.shared.ended)) =
      (some 0, false, true, true) :=
    Threads.played (fun _ _ _ => true) (fun _ _ _ _ => trivial)
      [.free 0 _ (fun _ => .boot) [1], .free 1 _ (fun _ => .kstop) (List.replicate 7 1), .resume 0 [1]]
      rfl (by decide +kernel)
  simp only [Prod.mk.injEq, decide_eq_true_eq] at hout
  obtain ⟨hholder, hflag, hstop, hended⟩ := hout
  exact ⟨c, hc, hholder, hstop, hended, hflag⟩

theorem stops_misattributed : (∃ c, RunReachable (fun _ _ _ => True) c ∧
      c.shared.looping = true ∧ c.shared.abortAll = true ∧ ∀ i, (i, c.shared.serial) ∉ c.shared.stops) ∧
    ∃ c, RunReachable (fun _ _ _ => True) c ∧ c.shared.holder = some 0 ∧
      (1, c.shared.serial) ∈ c.shared.stops ∧ (1, c.shared.serial) ∈ c.shared.ended ∧ c.shared.abortAll = false :=
  ⟨late_stop, cleared_stop⟩

end MoCoLinux.Arch.Lifecycle
