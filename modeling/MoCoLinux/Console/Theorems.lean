import MoCoLinux.Console.Lemmas.Guest
import MoCoLinux.Console.Lemmas.Pump

/-!
# The console rings: results
-/

namespace MoCoLinux.Console

open Threads (Config)

theorem Start.inv {s : Console} (h : Start s) : s.Inv := by
  have hin : s.inHead = s.inStart := by rw [Console.inHead, h.input, List.length_nil, Nat.add_zero]
  have hout : s.outHead = s.outStart := by rw [Console.outHead, h.output, List.length_nil, Nat.add_zero]
  have htaken : s.taken = [] := by rw [taken, h.results]; rfl
  have hreturned : s.returned = [] := by rw [returned, h.results]; rfl
  refine ⟨?_, ?_, fun w _ => ?_, fun _ => h.moving, ?_, ?_, fun _ => ?_, ?_, fun _ => ?_, ?_, h.resyncs⟩
  · rw [h.input, h.inPos]
    exact Ring.Window.nil (Nat.zero_le _)
  · rw [h.output, h.outPos]
    exact Ring.Window.nil (Nat.zero_le _)
  · cases w with
    | inHead => rw [position, hin, h.inHead, u32_of_lt h.inWord]
    | inTail => rw [position, h.inPos, h.inTail, u32_of_lt h.inWord]
    | outHead => rw [position, hout, h.outHead, u32_of_lt h.outWord]
    | outTail => rw [position, h.outPos, h.outTail, u32_of_lt h.outWord]
  · rw [h.got, h.input, List.take_nil]
  · rw [htaken]
    exact List.nil_prefix
  · rw [htaken, h.input]
  · rw [hreturned]
    exact List.nil_prefix
  · rw [hreturned, h.output, List.take_nil]
  · rw [h.results]
    exact fun r hr => absurd hr List.not_mem_nil

theorem sound : Threads.Sound Start Calls Apart Inv contract where
  lawful := lawful
  fits hpq _ h := fits hpq h
  start {s} h := by
    refine ⟨h.inv, fun p => ?_⟩
    cases p with
    | host i => exact fun hl => by rw [h.free] at hl; cases hl
    | writer j => exact fun hl => by rw [h.outFree] at hl; cases hl
    | reader => trivial
  call {p s prog} _ hidle hcall := by
    cases p with
    | host i =>
      obtain ⟨c, rfl⟩ := hcall
      exact pump_safe hidle c
    | writer j =>
      obtain ⟨buf, rfl⟩ := hcall
      exact putChars_safe hidle buf
    | reader =>
      obtain ⟨count, rfl⟩ := hcall
      exact getChars_safe count

/-- In every interleaving in which the guest stays off an index word the host is moving: `get_chars` returned what was
published, up to a rest in the ring; what the pumps reported taken is published, and is all of it when no pump is
under way; the same of what the pumps returned and `put_chars` stored; every pump reports what it published, whatever
its return code; and none skips forward. -/
theorem console_exact (c : Config Console Party) (h : ReachableApart c) :
    c.shared.got = c.shared.input.take (c.shared.inPos - c.shared.inStart) ∧
    c.shared.taken <+: c.shared.input ∧ (c.shared.lock = none → c.shared.taken = c.shared.input) ∧
    c.shared.returned <+: c.shared.output ∧
    (c.shared.lock = none → c.shared.returned = c.shared.output.take (c.shared.outPos - c.shared.outStart)) ∧
    (∀ r ∈ c.shared.results, r.published = r.call.input.take r.inTaken ∧ r.inTaken = r.published.length) ∧
    Ring.Window consoleInSize c.shared.inRing c.shared.inStart c.shared.inPos c.shared.input ∧
    Ring.Window consoleOutSize c.shared.outRing c.shared.outStart c.shared.outPos c.shared.output ∧
    c.shared.resyncs = 0 := by
  have hinv := (sound.reach h).shared
  refine ⟨hinv.got, hinv.taken, hinv.takenAll, hinv.returned, hinv.returnedAll, fun r hr => ?_, hinv.inWindow,
    hinv.outWindow, hinv.synced⟩
  obtain ⟨hle, hpub⟩ := hinv.results r hr
  refine ⟨hpub, ?_⟩
  rw [hpub, List.length_take_of_le hle]

def quiet : Console where
  hasLock := true
  ioVa := 0xffffffff82000000
  lock := none
  outLock := none
  words := fun w k => match w, k with
    | .outHead, 0 => 255
    | .outTail, 0 => 255
    | _, _ => 0
  inRing := fun _ => 0
  outRing := fun _ => 0
  moving := none
  touched := fun _ => 0
  inStart := 0
  input := []
  inPos := 0
  got := []
  outStart := 255
  output := []
  outPos := 255
  entered := 0
  results := []
  resyncs := 0

theorem quiet_start : Start quiet :=
  ⟨rfl, rfl, by decide, by decide, by decide, by decide, by decide, by decide, rfl, rfl, rfl, rfl, rfl, rfl, rfl, rfl⟩

def outcome (s : Console) : List UInt8 × List UInt8 × List UInt8 × List UInt8 :=
  (s.input, s.taken, s.output, s.returned)

theorem console_exact_oneKey : ∃ c, ReachableApart c ∧ outcome c.shared = ([7], [7], [], []) ∧
    c.shared.taken <+: c.shared.input := by
  obtain ⟨c, hc, hout⟩ : ∃ c, ReachableApart c ∧ outcome c.shared = ([7], [7], [], []) :=
    Threads.played (fun i _ _ => decide (i = Party.host 0)) (fun _ _ _ hi => of_decide_eq_true hi ▸ trivial)
      [.free (.host 0) (pump 0 ⟨[7], 0⟩) (fun _ => ⟨_, rfl⟩) (List.replicate 21 1)] quiet_start (by decide +kernel)
  exact ⟨c, hc, hout, (console_exact _ hc).2.1⟩

/-- The guest stores 256 to `out_head` after the pump has moved the low byte of 255. The pump reads 511, and
returns a byte that was never stored. -/
theorem console_torn_read : ∃ c, Reachable c ∧ c.shared.lock = none ∧ c.shared.output = [7] ∧
    c.shared.returned = [7, 0] := by
  obtain ⟨c, hc, hout⟩ : ∃ c, Reachable c ∧ (c.shared.lock, outcome c.shared) = (none, [], [], [7], [7, 0]) :=
    Threads.played (fun _ _ _ => true) (fun _ _ _ _ => trivial)
      [.free (.host 0) (pump 0 ⟨[], 2⟩) (fun _ => ⟨_, rfl⟩) (List.replicate 5 1),
        .free (.writer 0) (putChars 0 [7]) (fun _ => ⟨_, rfl⟩) (List.replicate 6 1),
        .resume (.host 0) (List.replicate 18 1)] quiet_start (by decide +kernel)
  simp only [outcome, Prod.mk.injEq] at hout
  exact ⟨c, hc, hout.1, hout.2.2.2.1, hout.2.2.2.2⟩

end MoCoLinux.Console
