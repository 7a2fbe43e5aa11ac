import MoCoLinux.Net.Lemmas.RxDrain
import MoCoLinux.Net.Lemmas.RxPut

/-!
# The receive ring: results
-/

namespace MoCoLinux.Net.Rx

open Threads (Prog Config)

theorem Start.inv {s : Rx} (h : Start s) : s.Inv := by
  have hhead : s.head = s.start := by rw [Rx.head, h.stream, List.length_nil, Nat.add_zero]
  refine ⟨?_, ?_, h.aligned, ?_, ?_, ?_, ?_, ?_, h.rxErrors, ?_⟩
  · rw [h.stream, h.position]
    exact Ring.Window.nil (Nat.zero_le _)
  · rw [h.stream, h.published]
    exact .nil
  · rw [hhead, h.head, u32_of_lt h.word]
  · rw [h.position, h.tail, u32_of_lt h.word]
  · rw [h.published, h.extracted]
    exact .nil
  · rw [h.extracted]
    exact Nat.zero_le _
  · rw [h.rxDropped, h.extracted]
    rfl
  · simp [h.results]

theorem sound : Threads.Sound Start Calls (fun _ _ _ => True) Inv contract where
  lawful := lawful
  fits hpq _ h := fits hpq h
  start {s} h := by
    refine ⟨h.inv, fun p => ?_⟩
    cases p with
    | host i =>
      change s.lock ≠ some i
      rw [h.free]
      nofun
    | guest =>
      refine ⟨h.seen.trans h.position.symm, h.inv.count, ?_⟩
      rw [h.position, h.published, List.take_nil, recordsBytes_nil, Nat.add_zero]
  call {p s prog} hinv hidle hcall := by
    cases p with
    | host i =>
      obtain ⟨c, rfl⟩ := hcall
      exact put_safe hidle
    | guest =>
      cases hcall
      exact drain_safe hinv hidle

/-- In every interleaving: the guest's records are the published ones, in order and once each, and those without a
buffer are counted in `rx_dropped`; the rings never get out of step; a finished pass has consumed all it saw; and each
call published the first `taken` records of its buffer, or answered an error and left `rx_head` alone. -/
theorem receive_ring_exact (c : Config Rx Party) (h : Reachable c) :
    Records c.shared.stream c.shared.published ∧
    List.Forall₂ Took (c.shared.published.take c.shared.extracted.length) c.shared.extracted ∧
    c.shared.extracted.length ≤ c.shared.published.length ∧
    c.shared.rxDropped = c.shared.extracted.count none ∧ c.shared.rxErrors = 0 ∧
    c.shared.rxHead = u32 c.shared.head ∧ c.shared.rxTail = u32 c.shared.tail ∧
    Ring.Window ringSize c.shared.rx c.shared.start c.shared.tail c.shared.stream ∧
    (c.thread .guest = none → c.shared.seen = c.shared.tail ∧
      c.shared.tail = c.shared.start + recordsBytes (c.shared.published.take c.shared.extracted.length)) ∧
    ∀ r ∈ c.shared.results, r.Good := by
  have hgood := sound.reach h
  have hinv := hgood.shared
  refine ⟨hinv.records, hinv.took, hinv.count, hinv.dropped, hinv.synced, hinv.rxHead, hinv.rxTail, hinv.window,
    fun hguest => ?_, hinv.results⟩
  have hidle : GuestIdle c.shared := hgood.idle .guest hguest
  exact ⟨hidle.seen, hidle.tail⟩

def quiet : Rx where
  hasLock := true
  ioVa := 4096
  lock := none
  rx := fun _ => 0
  rxHead := 0
  rxTail := 0
  rxDropped := 0
  rxErrors := 0
  start := 0
  stream := []
  published := []
  extracted := []
  tail := 0
  seen := 0
  entered := 0
  enteredFrames := 0
  results := []

def onePacket : PutCall := ⟨fun i => [1, 0, 0, 0, 7].getD i 0, 8, 1⟩

/-- What a run leaves: the published frames, what the guest made of them, what the calls took, and the positions
of tail and head. -/
def outcome (s : Rx) : List Frame × List (Option Frame) × List Nat × Nat × Nat :=
  (s.published, s.extracted, s.results.map PutResult.taken, s.tail, s.head)

theorem quiet_start : Start quiet :=
  ⟨rfl, by decide, rfl, rfl, rfl, rfl, rfl, rfl, rfl, rfl, rfl, rfl, rfl⟩

def puts : Threads.Move Calls :=
  .free (.host 0) (put 0 onePacket) (fun _ => ⟨onePacket, rfl⟩) (List.replicate 20 1)

def drains (picks : List Nat) : Threads.Move Calls := .free .guest drain (fun _ => rfl) picks

theorem receive_ring_exact_onePacket : ∃ c, Reachable c ∧ outcome c.shared = ([[7]], [some [7]], [1], 8, 8) ∧
    c.shared.rxErrors = 0 ∧ ∀ r ∈ c.shared.results, r.Good := by
  obtain ⟨c, hc, hout⟩ : ∃ c, Reachable c ∧ outcome c.shared = ([[7]], [some [7]], [1], 8, 8) :=
    Threads.played (fun _ _ _ => true) (fun _ _ _ _ => trivial) [puts, drains [1, 1, 1, 1, 1, 1, 1]] quiet_start
      (by decide +kernel)
  obtain ⟨-, -, -, -, herrors, -, -, -, -, hresults⟩ := receive_ring_exact _ hc
  exact ⟨c, hc, hout, herrors, hresults⟩

/-- Without a buffer the record is consumed, and its frame is not among those the guest extracted. -/
theorem receive_ring_drops : ∃ c, Reachable c ∧ c.thread .guest = none ∧ c.shared.published = [[7]] ∧
    c.shared.tail = c.shared.head ∧ c.shared.extracted.filterMap id = [] := by
  obtain ⟨c, hc, hout⟩ : ∃ c, Reachable c ∧ decide ((c.thread .guest).isNone ∧
      outcome c.shared = ([[7]], [none], [1], 8, 8)) = true :=
    Threads.played (fun _ _ _ => true) (fun _ _ _ _ => trivial) [puts, drains [1, 1, 1, 0, 1, 1]] quiet_start
      (by decide +kernel)
  simp only [outcome, Prod.mk.injEq, decide_eq_true_eq] at hout
  obtain ⟨hidle, hpub, hext, -, htail, hhead⟩ := hout
  exact ⟨c, hc, Option.isNone_iff_eq_none.mp hidle, hpub, by rw [htail, hhead], by simp [hext]⟩

end MoCoLinux.Net.Rx
