import MoCoLinux.Xwire.Chan
import MoCoLinux.Xwire.Lemmas.Region

/-!
# The host's buffers stay in their rings
-/

namespace MoCoLinux.Xwire.Chan

open Threads (Prog Contract Config)

variable {c : Chan} {d : Dir} {s s' : Hdr} {off p run i k position turns tail avail moved : Nat}

theorem hostAt_inRing (h : c.hostAt (d.off + position % ringBytes) = some (p, run)) (n : Nat) :
    c.InRing d ⟨p, min (min run (ringBytes - position % ringBytes)) n⟩ := by
  have hlt : position % ringBytes < ringBytes := Nat.mod_lt position (by decide)
  refine ⟨position % ringBytes, ?_, fun k hk => ?_⟩
  · dsimp only
    omega
  · rw [← Nat.add_assoc]
    exact hostAt_addr h (by dsimp only at hk; omega)

def contract (c : Chan) : Contract Hdr where
  rely _ _ := True
  guar _ s' := c.Kept s'
  idle _ := True

theorem lawful (c : Chan) : c.contract.Lawful c.Kept where
  refl _ := trivial
  trans _ _ := trivial
  still h := h
  keeps _ h := h
  idle _ _ _ := trivial

abbrev Safe {α : Type} (c : Chan) (prog : Prog Hdr α) (s : Hdr) : Prop :=
  prog.Safe c.Kept c.contract (fun _ _ => True) (fun _ _ => True) s

theorem Safe.done {α : Type} (a : α) : Safe c (Prog.ret a) s := fun _ _ _ => trivial

theorem Safe.read {α β : Type} {g : Hdr → β} {f : β → Prog Hdr α} (h : ∀ b s, c.Kept s → Safe c (f b) s) :
    Safe c (Prog.read g >>= f) s := by
  intro t _ ht b t' hact _
  cases hact
  exact ⟨ht, h _ _ ht⟩

theorem Safe.write {α : Type} {g : Hdr → Hdr} {f : Unit → Prog Hdr α} (hg : ∀ s, c.Kept s → c.Kept (g s))
    (h : ∀ s, c.Kept s → Safe c (f ()) s) : Safe c (Prog.write g >>= f) s := by
  intro t _ ht b t' hact _
  cases hact
  exact ⟨hg t ht, h _ (hg t ht)⟩

theorem Safe.bind {α β : Type} {prog : Prog Hdr β} {f : β → Prog Hdr α} (hs : c.Kept s) (hp : Safe c prog s)
    (h : ∀ b s, c.Kept s → Safe c (f b) s) : Safe c (prog >>= f) s :=
  Prog.Safe.bind c.lawful hs (hp.mono fun b s hs _ => h b s hs)

theorem Kept.sent (h : c.Kept s) {b : Buffer} (hb : c.InRing .tx b) : c.Kept { s with sends := s.sends ++ [b] } where
  sends := by
    intro b' hb'
    rcases List.mem_append.mp hb' with hb' | hb'
    · exact h.sends b' hb'
    · exact List.mem_singleton.mp hb' ▸ hb
  recvs := h.recvs

theorem Kept.received (h : c.Kept s) {b : Buffer} (hb : c.InRing .rx b) :
    c.Kept { s with recvs := s.recvs ++ [b] } where
  sends := h.sends
  recvs := by
    intro b' hb'
    rcases List.mem_append.mp hb' with hb' | hb'
    · exact h.recvs b' hb'
    · exact List.mem_singleton.mp hb' ▸ hb

theorem send_safe (h : c.InRing .tx ⟨p, run⟩) : Safe c (send p run) s := by
  refine Safe.write (fun s hs => hs.sent h) fun s _ => Prog.Safe.pick fun n => Prog.Safe.pick fun fails => ?_
  split
  · exact Safe.done _
  · split <;> exact Safe.done _

theorem recv_safe (h : c.InRing .rx ⟨p, run⟩) : Safe c (recv p run) s := by
  refine Safe.write (fun s hs => hs.received h) fun s _ => Prog.Safe.pick fun n => Prog.Safe.pick fun fails => ?_
  split
  · exact Safe.done _
  · split <;> exact Safe.done _

theorem drainLoop_safe (hs : c.Kept s) : Safe c (c.host.drainLoop turns tail avail moved) s := by
  -- one turn per `send`
  induction turns generalizing s tail avail moved with
  | zero => exact Safe.done _
  | succ turns ih =>
    rw [Host.drainLoop]
    split
    · exact Safe.done _
    · dsimp only
      split
      · exact Safe.done _
      · rename_i p run hat
        refine Safe.bind hs (send_safe (hostAt_inRing hat avail)) fun r s hs => ?_
        cases r with
        | blocked => exact Safe.done _
        | broken => exact Safe.done _
        | put w =>
          refine Safe.write (fun s hs => { hs with }) fun s hs => ?_
          split
          · exact Safe.done _
          · exact ih hs

theorem drainTx_safe : Safe c c.host.drainTx s :=
  Safe.read fun _ _ _ => Safe.read fun _ _ hs => drainLoop_safe hs

theorem fillRx_safe : Safe c c.host.fillRx s := by
  refine Safe.read fun head _ _ => Safe.read fun tail s hs => ?_
  split
  · exact Safe.done _
  · dsimp only
    split
    · exact Safe.done _
    · rename_i p run hat
      refine Safe.bind hs (recv_safe (hostAt_inRing hat (space head tail))) fun r s hs => ?_
      cases r with
      | blocked => exact Safe.done _
      | ended => exact Safe.done _
      | got n => exact Safe.write (fun s hs => { hs with }) fun _ _ => Safe.done _

theorem free_safe : Safe c free s := Safe.write (f := Prog.ret) (fun _ hs => { hs with }) fun _ _ => Safe.done _

theorem turn_safe (hs : c.Kept s) : Safe c (turn c) s := by
  refine Safe.bind hs drainTx_safe fun a s hs => Safe.bind hs fillRx_safe fun b s hs => ?_
  rw [endTurn]
  split
  · exact free_safe
  · refine Safe.read fun closed s _ => ?_
    split
    · exact free_safe
    · exact Safe.done _

theorem sound (c : Chan) : Threads.Sound Start c.Calls (fun _ _ _ => True) c.Kept fun _ => c.contract where
  lawful _ := c.lawful
  fits _ _ _ := trivial
  start hs := ⟨⟨by simp [hs.sends], by simp [hs.recvs]⟩, fun _ => trivial⟩
  call := by
    intro side s prog hs _ hcall
    cases side with
    | host =>
      obtain ⟨-, rfl⟩ := hcall
      exact turn_safe hs
    | guest =>
      obtain ⟨head, tail, closed, rfl⟩ := hcall
      exact Safe.write (f := Prog.ret) (fun _ hs => { hs with }) fun _ _ => Safe.done _

/-- Whatever pages a channel has and the guest writes to the header: every buffer passed to `send` is consecutive
bytes of the TX ring, and every buffer passed to `recv` is consecutive bytes of the RX ring. -/
theorem buffers_in_ring (c : Chan) (cfg : Config Hdr Side) (h : Reachable c cfg) : c.Kept cfg.shared :=
  (c.sound.reach h).shared

/-- All pages that may be announced, one behind the other, so that a run crosses both rings. -/
def adjacent : Chan := ⟨fun i => i * pageBytes, maxPages, by decide, Nat.le_refl _⟩

def wild : Hdr where
  head _ := 7
  tail _ := 2 * ringBytes - 10
  closed := false
  sends := []
  recvs := []
  left := false

theorem wild_start : Start wild := ⟨rfl, rfl⟩

theorem buffers_in_ring_wild :
    acceptChan ⟨magic, ringBytes, maxPages⟩ (fun i => i * pageBytes) some = some adjacent ∧
    ∃ cfg, Reachable adjacent cfg ∧ cfg.shared.sends = [⟨pageBytes + ringBytes - 10, 10⟩] ∧
      cfg.shared.recvs = [⟨pageBytes + ringBytes + 7, ringBytes - 7⟩] ∧ Kept adjacent cfg.shared := by
  have haccept : acceptChan ⟨magic, ringBytes, maxPages⟩ (fun i => i * pageBytes) some = some adjacent := by
    simp [acceptChan, adjacent, maxPages]
  obtain ⟨c, hc, hout⟩ : ∃ c, Reachable adjacent c ∧ (c.shared.sends, c.shared.recvs) =
      ([⟨pageBytes + ringBytes - 10, 10⟩], [⟨pageBytes + ringBytes + 7, ringBytes - 7⟩]) :=
    Threads.played (fun _ _ _ => true) (fun _ _ _ _ => trivial)
      [.call .host (turn adjacent) (!·.left) (fun _ h => ⟨(Bool.not_eq_true' _).mp h, rfl⟩) (List.replicate 11 0)]
      wild_start (by decide +kernel)
  exact ⟨haccept, c, hc, congrArg Prod.fst hout, congrArg Prod.snd hout, buffers_in_ring _ _ hc⟩

end MoCoLinux.Xwire.Chan
