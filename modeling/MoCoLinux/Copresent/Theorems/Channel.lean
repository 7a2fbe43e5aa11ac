import MoCoLinux.Copresent.Lemmas.Host

/-!
# The presentation channel: results
-/

namespace MoCoLinux.Copresent

open Threads (Config)

/-- In every interleaving of writers, polls and `response_thread`, each takes a beginning of what was put in for it,
in order, and the answers are those to the requests. Between two polls what was taken is answered, up to the limit,
unless the channel is closed or replaced; between two turns of `response_thread` what it found is taken, and it ends
only with the channel closed. The host touches slots inside the two pages only. -/
theorem channel_exact (g : Pages) (generation : Nat) (c : Config Channel Party) (h : Reachable g generation c) :
    c.shared.handled <+: c.shared.written ∧
    Answered generation (c.shared.handled.take c.shared.answers.length) c.shared.answers ∧
    c.shared.consumed <+: c.shared.answers ∧
    (c.thread .main = none → c.shared.current = true →
      c.shared.answers.length = c.shared.handled.length ∧ c.shared.due ≤ c.shared.handled.length) ∧
    (c.thread .response = none → c.shared.exited = false → c.shared.seen ≤ c.shared.consumed.length) ∧
    (c.shared.exited = true → c.shared.closed = true) ∧
    ∀ a ∈ c.shared.touched, g.Inside a := by
  have hgood := (sound g generation).reach h
  have hinv := hgood.shared
  refine ⟨hinv.tx.order, hinv.answered, hinv.rx.order, fun hidle hcurrent => ?_, fun hidle => ?_, hinv.exited,
    hinv.touched⟩
  · have hsettled := (hgood.idle .main hidle).2 hcurrent
    exact ⟨hsettled.answered, hsettled.due⟩
  · exact hgood.idle .response hidle

def twoPages : Pages where
  page i := 2 * pageBytes * i
  apart := .inl (by decide)

def opened : Channel where
  mem _ := 0
  txHead := 0
  txTail := 0
  rxHead := 0
  rxTail := 0
  closed := false
  txLock := none
  channelLock := none
  current := true
  exited := false
  written := []
  handled := []
  answers := []
  consumed := []
  touched := []
  due := 0
  seen := 0

theorem opened_start : Start opened :=
  ⟨⟨rfl, rfl, rfl, rfl⟩, ⟨rfl, rfl⟩, rfl, ⟨rfl, rfl, rfl, rfl, rfl⟩, rfl, rfl⟩

def unbind : Record := ⟨opUnbind, version, 5, 1, 7, 0, 0, 0, 0, 0, 0, 0, 0, 0, 0, 0⟩

/-- It is written, answered, and the answer is taken. -/
theorem channel_exact_unbind : ∃ c, Reachable twoPages 5 c ∧ c.shared.consumed = [unbind.answer 5 0] ∧
    c.shared.handled <+: c.shared.written := by
  obtain ⟨c, hc, hout⟩ : ∃ c, Reachable twoPages 5 c ∧ c.shared.consumed = [unbind.answer 5 0] :=
    Threads.played (fun _ _ _ => true) (fun _ _ _ _ => trivial)
      [.free (.writer 0) (do let _ ← ringWrite twoPages 0 unbind; pure ()) (fun _ => ⟨unbind, rfl⟩) (List.replicate 21 0),
        .free .main (mainTurn twoPages 5) (fun _ => rfl) (List.replicate 47 0),
        .call .response (responseTurn twoPages) (!·.exited) (fun _ h => ⟨(Bool.not_eq_true' _).mp h, rfl⟩)
          (List.replicate 20 0)]
      opened_start (by decide +kernel)
  exact ⟨c, hc, hout, (channel_exact _ _ _ hc).1⟩

end MoCoLinux.Copresent
