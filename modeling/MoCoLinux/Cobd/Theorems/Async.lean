import MoCoLinux.Cobd.Lemmas.Monitor
import MoCoLinux.Cobd.Lemmas.Submit
import MoCoLinux.Cobd.Lemmas.Worker

/-!
# The block workers: results
-/

namespace MoCoLinux.Cobd.Async

open Threads (Config)

theorem Start.inv {s : Async} (h : Start s) : s.Inv := by
  have hserved : ∀ u, Served s u := fun u =>
    ⟨by rw [h.transferred, h.accepted]; rfl, by rw [h.completed, h.transferred]; rfl⟩
  refine ⟨fun hb => ?_, ?_, fun u ha => ?_, fun hne => absurd h.inCall hne, fun hp => ?_, fun u hs => ?_, fun u => ?_,
    fun u hu => ?_, fun _ => ⟨h.built, fun u _ _ => hserved u⟩⟩
  · exact absurd (h.built.symm.trans hb) Bool.false_ne_true
  · rw [h.workerCount]
    exact Nat.zero_le _
  · exact absurd ((h.alive u).symm.trans ha) Bool.false_ne_true
  · exact absurd (h.phase.symm.trans hp) nofun
  · exact absurd ((h.sleepy u).symm.trans hs) Bool.false_ne_true
  · refine ⟨?_, ?_, ?_⟩
    · rw [h.completed]
      exact List.nil_prefix
    · rw [h.transferred]
      exact List.nil_prefix
    · rw [h.popped]
      exact List.nil_prefix
  · rw [h.workerCount] at hu
    exact absurd hu (Nat.not_lt_zero u)

theorem sound : Threads.Sound Start Calls (fun _ _ _ => True) Inv contract where
  lawful := lawful
  fits hpq hinv h := fits hpq hinv h
  start {s} h := by
    refine ⟨h.inv, fun p => ?_⟩
    cases p with
    | monitor => trivial
    | worker u => exact fun ha => absurd ((h.alive u).symm.trans ha) Bool.false_ne_true
    | vcpu n => exact ⟨by rw [h.inCall]; rfl, h.signaller n⟩
  call {p s prog} _ hidle hcall := by
    cases p with
    | monitor =>
      obtain ⟨va, rfl⟩ := hcall
      exact run_safe va
    | worker u =>
      obtain ⟨ha, rfl⟩ := hcall
      exact turn_safe ha hidle
    | vcpu n =>
      obtain ⟨r, rfl⟩ := hcall
      exact vcpu_safe hidle

/-- In every interleaving: while the lists are set up, the nodes are partitioned; the requests of a unit are
transferred and passed to `co_cobd_complete` in the order of submission, once each; a worker about to sleep over a
queue that is not empty has its event signalled, or a vCPU is about to signal it; and when the stop has returned,
every unit whose worker has seen the last of its requests is served. -/
theorem workers_serve (c : Config Async Party) (h : Reachable c) :
    (c.shared.built = true → c.shared.Partitioned) ∧ (c.shared.phase = .running → c.shared.built = true) ∧
    (∀ u, (c.shared.transferred u).map Prod.fst <+: c.shared.accepted u ∧
      c.shared.completed u <+: (c.shared.transferred u).map report) ∧
    (∀ u < maxUnits, c.shared.built = true → c.shared.sleepy u = true → c.shared.fifoHead u ≠ none →
      c.shared.subWait u = true ∨ ∃ n, c.shared.signaller n = some u) ∧
    (c.shared.phase = .stopped → ∀ u < maxUnits, c.shared.late u = false → Served c.shared u) := by
  have hinv := (sound.reach h).shared
  refine ⟨fun hb => (hinv.lists hb).partitioned, hinv.running, fun u => ?_, fun u hu hb hs hne => ?_,
    fun hp => (hinv.stopped hp).2⟩
  · have hordered := hinv.ordered u
    exact ⟨hordered.transferred.trans hordered.popped, hordered.completed⟩
  · refine hinv.wake u hs fun hnil => hne ?_
    have hqueue := (hinv.lists hb).queue u hu
    rw [hnil] at hqueue
    exact hqueue.chain

def loaded : Async where
  next := fun _ => none
  req := fun _ => ⟨0, 0, 0, 0, false, 0⟩
  freeList := none
  fifoHead := fun _ => none
  fifoTail := fun _ => none
  subWait := fun _ => false
  ioVa := 0
  stopping := false
  errors := 0
  workerCount := 0
  alive := fun _ => false
  phase := .stopped
  inCall := []
  built := false
  free := []
  queue := fun _ => []
  held := fun _ => none
  accepted := fun _ => []
  popped := fun _ => []
  transferred := fun _ => []
  completed := fun _ => []
  late := fun _ => false
  sleepy := fun _ => false
  signaller := fun _ => none

theorem loaded_start : Start loaded :=
  ⟨rfl, rfl, rfl, fun _ => rfl, rfl, fun _ => rfl, fun _ => rfl, fun _ => rfl, fun _ => rfl, fun _ => rfl, fun _ => rfl⟩

def read : Request := ⟨0, 0, 0x1000, 1, false, 5⟩

def starts : Threads.Move Calls :=
  .free .monitor (run 0x1000 true maxUnits) (fun _ => ⟨_, rfl⟩) (List.replicate 136 1)

def reads (picks : List Nat) : Threads.Move Calls := .free (.vcpu 0) (vcpu 0 read) (fun _ => ⟨_, rfl⟩) picks

def turns (u : Nat) (picks : List Nat) : Threads.Move Calls :=
  .call (.worker u) (turn u) (·.alive u) (fun _ h => ⟨h, rfl⟩) picks

theorem workers_serve_oneRead : ∃ c, Reachable c ∧ c.shared.completed 0 = [(0, 5, 0)] ∧
    c.shared.built = true ∧ c.shared.Partitioned := by
  obtain ⟨c, hc, hout⟩ : ∃ c, Reachable c ∧ (c.shared.built, c.shared.completed 0) = (true, [(0, 5, 0)]) :=
    Threads.played (fun _ _ _ => true) (fun _ _ _ _ => trivial)
      [starts, reads [1, 1, 1, 1], turns 0 [1, 1, 1, 1, 1]] loaded_start (by decide +kernel)
  rw [Prod.mk.injEq] at hout
  exact ⟨c, hc, hout.2, hout.1, (workers_serve _ hc).1 hout.1⟩

theorem not_partitioned {s : Async} (hfree : s.freeList = none) (hqueue : ∀ u < maxUnits, s.fifoHead u = none)
    (hheld : ∀ u < maxUnits, s.held u = none) : ¬ s.Partitioned := by
  rintro ⟨free, queue, hchain, hqueues, hparts⟩
  rw [hfree] at hchain
  have hnil : ∀ u ∈ List.range maxUnits, queue u = [] := by
    intro u hu
    have hq := (hqueues u (List.mem_range.mp hu)).chain
    rw [hqueue u (List.mem_range.mp hu)] at hq
    exact hq.eq_nil
  have hnone : ∀ u ∈ List.range maxUnits, (s.held u).toList = [] := by
    intro u hu
    rw [hheld u (List.mem_range.mp hu), Option.toList_none]
  rw [hchain.eq_nil, List.flatMap_eq_nil_iff.mpr hnil, List.flatMap_eq_nil_iff.mpr hnone] at hparts
  have hlen := hparts.length_eq
  rw [List.length_range] at hlen
  cases hlen

def outcome (s : Async) : Phase × List Request × List Request × Option Nat :=
  (s.phase, s.accepted 0, (s.transferred 0).map Prod.fst, s.freeList)

def places (s : Async) : List (Option Nat × Option Nat) := (List.range maxUnits).map fun u => (s.fifoHead u, s.held u)

/-- After a run the nodes are in no list, and an accepted request may never be transferred; and a worker may be about
to sleep over a request whose event has not been signalled yet. -/
theorem workers_refuted :
    (∃ c, Reachable c ∧ c.shared.phase = .stopped ∧ ¬ c.shared.Partitioned ∧ c.shared.accepted 0 = [read] ∧
      (c.shared.transferred 0).map Prod.fst = []) ∧
    ∃ c, Reachable c ∧ c.shared.sleepy 0 = true ∧ c.shared.fifoHead 0 = some 127 ∧ c.shared.subWait 0 = false := by
  constructor
  -- A worker has found its queue empty, a vCPU queues a request, the loop ends, and the worker looks at `stopping`.
  · obtain ⟨c, hc, hout⟩ : ∃ c, Reachable c ∧ decide (outcome c.shared = (.stopped, [read], [], none) ∧
        places c.shared = List.replicate 4 (none, none)) = true :=
      Threads.played (fun _ _ _ => true) (fun _ _ _ _ => trivial)
        [starts, turns 0 [1], reads [1, 1, 1, 1], .resume .monitor [1, 1, 1], .resume (.worker 0) [1, 1],
          turns 1 [1, 1, 1], turns 2 [1, 1, 1], turns 3 [1, 1, 1], .resume .monitor (List.replicate 12 1)]
        loaded_start (by decide +kernel)
    simp only [outcome, Prod.mk.injEq, decide_eq_true_eq] at hout
    obtain ⟨⟨hphase, haccepted, htransferred, hfree⟩, hplaces⟩ := hout
    have hnone : ∀ u < maxUnits, (c.shared.fifoHead u, c.shared.held u) = (none, none) := by
      intro u hu
      have hmem : (c.shared.fifoHead u, c.shared.held u) ∈ places c.shared :=
        List.mem_map_of_mem (List.mem_range.mpr hu)
      rw [hplaces] at hmem
      exact List.eq_of_mem_replicate hmem
    refine ⟨c, hc, hphase, not_partitioned hfree (fun u hu => ?_) (fun u hu => ?_), haccepted, htransferred⟩
    · exact congrArg Prod.fst (hnone u hu)
    · exact congrArg Prod.snd (hnone u hu)
  -- A worker has found its queue empty and is about to sleep, and a vCPU has queued a request.
  · obtain ⟨c, hc, hout⟩ : ∃ c, Reachable c ∧ (c.shared.sleepy 0, c.shared.fifoHead 0, c.shared.subWait 0) =
        (true, some 127, false) :=
      Threads.played (fun _ _ _ => true) (fun _ _ _ _ => trivial)
        [starts, turns 0 [1, 1], reads [1, 1]] loaded_start (by decide +kernel)
    simp only [Prod.mk.injEq] at hout
    exact ⟨c, hc, hout.1, hout.2.1, hout.2.2⟩

end MoCoLinux.Cobd.Async
