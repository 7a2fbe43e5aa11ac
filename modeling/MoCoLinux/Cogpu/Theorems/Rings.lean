import MoCoLinux.Cogpu.Lemmas.RingPasses

/-!
# How long a virtqueue lives: results
-/

namespace MoCoLinux.Cogpu.Rings

open Threads (Config)

/-- In every run in which no ring goes that the daemon has adopted or is adopting, none is adopted that is gone, and
none is replaced that was not deleted: every access of the daemon is to the ring of its queue, and it serves the ring
that is published. -/
theorem rings_kept (c : Config State Thread) (h : Reachable Orderly c) : Kept c := by
  have hgood := sound.reach h
  refine ⟨hgood.shared.log, hgood.shared.held, fun hidle i r hstart hres => ?_⟩
  exact (hgood.idle .daemon hidle).done i trivial r hstart hres

def fresh : State where
  io _ _ := 0
  live _ := none
  vqs := []
  vq _ := none
  adopting := none
  parked := []
  log := []
  atStart _ := none
  resolves _ _ := false

theorem fresh_start : Start fresh :=
  ⟨fun _ _ => rfl, fun _ => rfl, fun _ => rfl, rfl, rfl, fun _ => rfl⟩

def controlRing : Ring := ⟨0x10000, 0x11000, 0x12000, 256, by decide⟩

def findControl : Threads.Prog State Unit := findVqs 1 (fun _ => true) fun _ => some controlRing

def quiet : Pass := ⟨fun _ => ⟨fun _ _ => true, fun _ _ => true, 0⟩, fun _ => [], []⟩

def orderly (s s' : State) : Bool :=
  [(⟨0, Nat.zero_lt_two⟩ : Index), ⟨1, Nat.one_lt_two⟩].all fun i =>
    (s'.live i != none || s.live i == none || (s.vq i == none && s.adopting != some i)) &&
    (s'.adopting != some i || s.adopting == some i || s.live i != none) &&
    (s.live i == none || ([.descGpa, .availGpa, .usedGpa, .num] : List Word).all (fun w => s'.io i w == s.io i w) &&
      (s'.live i == s.live i || s'.live i == none))

theorem orderly_spec {s s' : State} (h : orderly s s' = true) : Orderly s s' := by
  have hall : ∀ i, (s'.live i ≠ none ∨ s.live i = none ∨ s.vq i = none ∧ s.adopting ≠ some i) ∧
      (s'.adopting ≠ some i ∨ s.adopting = some i ∨ s.live i ≠ none) ∧
      (s.live i = none ∨ s'.io i = s.io i ∧ (s'.live i = s.live i ∨ s'.live i = none)) := by
    intro i
    have hmem : i ∈ [(⟨0, Nat.zero_lt_two⟩ : Index), ⟨1, Nat.one_lt_two⟩] := by
      revert i
      decide
    have hi := List.all_eq_true.mp h i hmem
    simp only [Bool.and_eq_true, Bool.or_eq_true, bne_iff_ne, beq_iff_eq, List.all_eq_true] at hi
    refine ⟨?_, ?_, ?_⟩
    · rcases hi.1.1 with (h | h) | h
      · exact .inl h
      · exact .inr (.inl h)
      · exact .inr (.inr h)
    · rcases hi.1.2 with (h | h) | h
      · exact .inl h
      · exact .inr (.inl h)
      · exact .inr (.inr h)
    · refine hi.2.imp_right fun h => ⟨?_, h.2⟩
      funext w
      exact h.1 w (by cases w <;> simp)
  constructor
  · intro i hlive hgone
    rcases (hall i).1 with h | h | h
    · exact absurd hgone h
    · exact absurd h hlive
    · exact h
  · intro i hadopts hbefore
    rcases (hall i).2.1 with h | h | h
    · exact absurd hadopts h
    · exact absurd h hbefore
    · exact h
  · rintro i hstores
    rcases (hall i).2.2 with h | ⟨hio, hlive⟩
    · exact h
    · rcases hstores with hne | ⟨hne, hsome⟩
      · exact absurd hio hne
      · rcases hlive with heq | hnone
        · exact absurd heq hne
        · exact absurd hnone hsome

/-- What a run leaves: the accesses, with the ring of the queue at the time, and whether the daemon has the queue. -/
def outcome (s : State) : List (Area × Option Nat) × Bool :=
  (s.log.map fun t => (t.access.area, t.live.map Ring.desc), (s.vq ⟨0, Nat.zero_lt_two⟩).isSome)

def finds : Threads.Move Calls := .free .guest findControl (fun _ => .inl ⟨_, _, _, rfl⟩) (List.replicate 5 0)

def sweeps (steps : Nat) : Threads.Move Calls := .free .daemon (sweep quiet) (fun _ => ⟨quiet, rfl⟩) (List.replicate steps 0)

theorem rings_kept_adopted : ∃ c, Reachable Orderly c ∧
    outcome c.shared = ([(.used, some 0x10000), (.used, some 0x10000), (.avail, some 0x10000)], true) ∧ Kept c := by
  obtain ⟨c, hc, hout⟩ : ∃ c, Reachable Orderly c ∧
      outcome c.shared = ([(.used, some 0x10000), (.used, some 0x10000), (.avail, some 0x10000)], true) :=
    Threads.played (fun _ => orderly) (fun _ _ _ => orderly_spec) [finds, sweeps 14] fresh_start (by decide +kernel)
  exact ⟨c, hc, hout, rings_kept _ hc⟩

/-- The guest deletes the queue, and the next pass of the daemon reads the ring that is gone. -/
theorem deleted_ring_read : ∃ c, Reachable (fun _ _ => True) c ∧ (∀ i, c.shared.live i = none) ∧
    ∃ t ∈ c.shared.log, t.access.area = .avail ∧ t.ptr = controlRing.avail ∧ t.live = none := by
  obtain ⟨c, hc, hout⟩ : ∃ c, Reachable (fun _ _ => True) c ∧
      (([0, 1] : List Index).all fun i => c.shared.live i == none, c.shared.log.any fun t =>
        t.access.area == .avail && t.ptr == controlRing.avail && t.live == none) = (true, true) :=
    Threads.played (fun _ _ _ => true) (fun _ _ _ _ => trivial)
      [finds, sweeps 14, .free .guest delVqs (fun _ => .inr rfl) (List.replicate 10 0), sweeps 6]
      fresh_start (by decide +kernel)
  obtain ⟨hlive, hlog⟩ := Prod.mk.inj hout
  refine ⟨c, hc, fun i => ?_, ?_⟩
  · have hmem : i ∈ [(⟨0, Nat.zero_lt_two⟩ : Index), ⟨1, Nat.one_lt_two⟩] := by
      revert i
      decide
    exact beq_iff_eq.mp (List.all_eq_true.mp hlive i hmem)
  · obtain ⟨t, ht, htouch⟩ := List.any_eq_true.mp hlog
    simp only [Bool.and_eq_true, beq_iff_eq] at htouch
    exact ⟨t, ht, htouch.1.1, htouch.1.2, htouch.2⟩

end MoCoLinux.Cogpu.Rings
