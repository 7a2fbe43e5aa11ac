import MoCoLinux.Net.Lemmas.TxBridge

/-!
# The transmit ring: results
-/

namespace MoCoLinux.Net.Tx

open Threads (Prog Config)

theorem Start.inv {s : Tx} (h : Start s) : s.Inv := by
  have hhead : s.head = s.start := by rw [Tx.head, h.stream, List.length_nil, Nat.add_zero]
  refine ⟨?_, ?_, h.aligned, ?_, ?_, ?_, h.corrupt⟩
  · rw [h.stream, h.position]
    exact Ring.Window.nil (Nat.zero_le _)
  · rw [h.stream, h.placed]
    exact .nil
  · rw [hhead, h.head, u32_of_lt h.word]
  · rw [h.position, h.tail, u32_of_lt h.word]
  · rw [h.handed]
    exact List.nil_prefix

theorem sound : Threads.Sound Start QuietCalls (fun _ _ _ => True) Inv contract where
  lawful := lawful
  fits hpq _ h := fits hpq h
  start {s} h := by
    refine ⟨h.inv, fun p => ?_⟩
    cases p with
    | guest => trivial
    | bridge =>
      refine .inr ⟨h.seen.trans h.position.symm, ?_⟩
      rw [h.position, h.handed, recordsBytes_nil, Nat.add_zero]
  call {p s prog} hinv hidle hcall := by
    cases p with
    | guest =>
      obtain ⟨frame, hl, rfl⟩ := hcall
      exact xmit_safe hl
    | bridge =>
      obtain ⟨hrun, script, hquiet, rfl⟩ := hcall
      exact turn_safe hidle hrun hquiet

/-- In every interleaving in which no frame makes slirp raise `ring_rx_full`: slirp is handed what the guest placed,
in order and once each, up to a rest in the ring; the ring is never taken for corrupt; and a finished turn has handed
over all it saw. -/
theorem transmit_exact (c : Config Tx Party) (h : QuietlyReachable c) :
    c.shared.handed <+: c.shared.placed ∧ c.shared.corrupt = false ∧
    Records c.shared.stream c.shared.placed ∧
    Ring.Window ringSize c.shared.tx c.shared.start c.shared.tail c.shared.stream ∧
    c.shared.txHead = u32 c.shared.head ∧ c.shared.txTail = u32 c.shared.tail ∧
    (c.thread .bridge = none → c.shared.stopped = false → c.shared.seen = c.shared.tail ∧
      c.shared.tail = c.shared.start + recordsBytes c.shared.handed) := by
  have hgood := sound.reach h
  have hinv := hgood.shared
  refine ⟨hinv.handed, hinv.sane, hinv.records, hinv.window, hinv.txHead, hinv.txTail, fun hbridge hrun => ?_⟩
  have hidle : BridgeIdle c.shared := hgood.idle .bridge hbridge
  rcases hidle with hstop | hidle
  · rw [hrun] at hstop
    exact absurd hstop Bool.false_ne_true
  · exact hidle

def quiet : Tx where
  tx := fun _ => 0
  txHead := 0
  txTail := 0
  batch := ⟨fun _ => 0, 0, 0, false⟩
  stopped := false
  start := 0
  stream := []
  placed := []
  handed := []
  tail := 0
  seen := 0
  corrupt := false

def silent : Script := ⟨fun _ => [], [], ⟨.ok, 0⟩⟩

def flood : Script := ⟨fun _ => List.replicate 22 ⟨⟨.error, 0⟩, fun _ => 0, 1514⟩, [], ⟨.error, 0⟩⟩

theorem undisturbed_silent (b : Batch) : Undisturbed silent b := by
  intro n
  induction n with
  | zero => rfl
  | succ n ih => exact ih

theorem quiet_start : Start quiet := ⟨by decide, rfl, rfl, rfl, rfl, rfl, rfl, rfl, rfl, rfl⟩

def outcome (s : Tx) : List Frame × List Frame × Bool := (s.placed, s.handed, s.stopped)

theorem oneByte_legal : Legal [7] := by decide

theorem transmit_exact_oneFrame : ∃ c, QuietlyReachable c ∧ outcome c.shared = ([[7]], [[7]], false) ∧
    c.shared.handed <+: c.shared.placed := by
  obtain ⟨c, hc, hout⟩ : ∃ c, QuietlyReachable c ∧ outcome c.shared = ([[7]], [[7]], false) :=
    Threads.played (fun _ _ _ => true) (fun _ _ _ _ => trivial)
      [.free .guest (xmit [7]) (fun _ => ⟨[7], oneByte_legal, rfl⟩) (List.replicate 5 1),
        .call .bridge (turn silent) (!·.stopped)
          (fun _ h => ⟨(Bool.not_eq_true' _).mp h, silent, undisturbed_silent _, rfl⟩) (List.replicate 34 1)]
      quiet_start (by decide +kernel)
  exact ⟨c, hc, hout, (transmit_exact _ hc).1⟩

def bridges (script : Script) (steps : Nat) : Threads.Move Calls :=
  .call .bridge (turn script) (!·.stopped) (fun _ h => ⟨(Bool.not_eq_true' _).mp h, script, rfl⟩)
    (List.replicate steps 1)

/-- Slirp raises `ring_rx_full` while it is handed the frame; the frame is handed over again in the next turn. -/
theorem transmit_repeats : ∃ c, Reachable c ∧ c.shared.placed = [[7]] ∧ c.shared.handed = [[7], [7]] := by
  obtain ⟨c, hc, hout⟩ : ∃ c, Reachable c ∧ outcome c.shared = ([[7]], [[7], [7]], false) :=
    Threads.played (fun _ _ _ => true) (fun _ _ _ _ => trivial)
      [.free .guest (xmit [7]) (fun _ => ⟨[7], oneByte_legal, rfl⟩) (List.replicate 5 1), bridges flood 28,
        bridges silent 34]
      quiet_start (by decide +kernel)
  simp only [outcome, Prod.mk.injEq] at hout
  exact ⟨c, hc, hout.1, hout.2.1⟩

end MoCoLinux.Net.Tx
