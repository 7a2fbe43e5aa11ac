import MoCoLinux.Xwire.Lemmas.Turns

/-!
# The X wire: results
-/

namespace MoCoLinux.Xwire

open Threads (Config)

/-- In either direction, whatever the order of the passes and what the socket calls do, what was delivered is the
beginning of what was read, and the rest is still in the ring. -/
theorem wire_carries (r : Region) (c : Config Wire Party) (h : Reachable r none (fun _ _ _ => True) c) (d : Dir) :
    Carries r c.shared d := by
  have hinv : Inv r none c.shared := reachable_inv (fun _ _ _ _ e he => by cases he) h
  have hring := hinv.rings (hinv.phase .guest).2 d
  have hfreed := hring.freed_le
  have hgiven := hring.given_le
  have hshown := hring.shown_le
  refine ⟨?_, fun q hq htaken => hring.cells q (by omega) htaken⟩
  exact List.prefix_take_iff.mpr ⟨hinv.order d, by omega⟩

theorem spread_apart {i j : Nat} (hij : i ≠ j) :
    2 * pageBytes * i + pageBytes ≤ 2 * pageBytes * j ∨ 2 * pageBytes * j + pageBytes ≤ 2 * pageBytes * i := by
  simp only [pageBytes]
  omega

def spread : Region where
  page i := 2 * pageBytes * i
  apart _ _ _ _ hij := spread_apart hij

def fresh : Wire where
  mem _ := 0
  pipe _ := ⟨0, 0, [], false, 0, [], 0, 0⟩
  closed := false
  done _ := false
  left _ := false
  broken _ := 0
  noticed _ := 0

theorem fresh_start : Start fresh := ⟨fun _ => rfl, rfl, fun _ => rfl, fun _ => rfl⟩

def outcome (s : Wire) : List UInt8 × Nat × List UInt8 × Bool :=
  ((s.pipe .tx).sent, (s.pipe .tx).taken, (s.pipe .tx).given, s.done .host)

def sends (closing : Option Dir) (b : UInt8) : Threads.Move (Calls spread closing) :=
  .free (.peer .tx) (sendByte .tx b) (fun _ => .inl ⟨b, rfl⟩) [1]

theorem wire_carries_byte : ∃ c, Reachable spread none (fun _ _ _ => True) c ∧
    outcome c.shared = ([7], 1, [7], false) ∧ Carries spread c.shared .tx := by
  obtain ⟨c, hc, hout⟩ : ∃ c, Reachable spread none (fun _ _ _ => True) c ∧ outcome c.shared = ([7], 1, [7], false) :=
    Threads.played (fun _ _ _ => true) (fun _ _ _ _ => trivial)
      [sends none 7,
        .free (.side .guest) (do let _ ← pumpTx spread; pure ()) (fun _ => .inl ⟨rfl, _, List.mem_cons_self, rfl⟩)
          (List.replicate 6 1),
        .free (.side .host) (do let _ ← drainTx spread; pure ()) (fun _ => .inl ⟨rfl, _, List.mem_cons_self, rfl⟩)
          (List.replicate 7 1)] fresh_start (by decide +kernel)
  exact ⟨c, hc, hout, wire_carries _ _ hc _⟩

/-- When only the peer at the source of a direction closes, and every step is orderly for it: the side at the other end
closes only after it has delivered all of the stream. -/
theorem close_delivers (r : Region) (d : Dir) (c : Config Wire Party)
    (h : Reachable r (some d) (fun _ => Orderly d) c) (hdone : c.shared.done d.emptier = true) :
    Delivered (c.shared.pipe d) := by
  have hinv : Inv r (some d) c.shared := reachable_inv (fun _ _ _ hstep e he => Option.some.inj he ▸ hstep) h
  exact hinv.phase.delivered (hinv.phase.done _ hdone)

def orderlyTx (s s' : Wire) : Bool :=
  (s'.noticed .host == s.noticed .host || (s.pipe .tx).head == (s.pipe .tx).tail) &&
  (s'.broken .rx == s.broken .rx || (s.pipe .tx).taken == (s.pipe .tx).sent.length) &&
  (s'.done .guest == s.done .guest || s.left .host)

theorem orderlyTx_sound (s s' : Wire) (h : orderlyTx s s' = true) : Orderly .tx s s' := by
  simp only [orderlyTx, Bool.and_eq_true, Bool.or_eq_true, beq_iff_eq] at h
  obtain ⟨⟨hnotice, hbroken⟩, hunmap⟩ := h
  exact ⟨fun hne => hnotice.resolve_left hne, fun hne => hbroken.resolve_left hne, fun _ hne => hunmap.resolve_left hne⟩

def looping (side : Side) (s : Wire) : Bool := !s.left side

theorem turn_calls {r : Region} {d : Dir} {side : Side} {s : Wire} (h : looping side s = true) :
    Calls r (some d) (.side side) s (turn r side) :=
  .inr ⟨Option.some_ne_none d, by simpa [looping] using h, rfl⟩

def turns (side : Side) (picks : List Nat) : Threads.Move (Calls spread (some .tx)) :=
  .call (.side side) (turn spread side) (looping side) (fun _ => turn_calls) picks

def shuts : Threads.Move (Calls spread (some .tx)) := .free (.peer .tx) (shut .tx) (fun _ => .inr ⟨.inr rfl, rfl⟩) [1]

/-- The client sends a byte and closes, the guest passes it on and leaves, and the host finds the byte before the
flag. -/
theorem close_delivers_byte : ∃ c, Reachable spread (some .tx) (fun _ => Orderly .tx) c ∧
    outcome c.shared = ([7], 1, [7], true) ∧ Delivered (c.shared.pipe .tx) := by
  obtain ⟨c, hc, hout⟩ : ∃ c, Reachable spread (some .tx) (fun _ => Orderly .tx) c ∧
      outcome c.shared = ([7], 1, [7], true) :=
    Threads.played (fun _ => orderlyTx) (fun _ => orderlyTx_sound)
      [sends _ 7, turns .guest (List.replicate 9 1), shuts, turns .guest (List.replicate 7 1),
        turns .host [1, 1, 1, 1, 1, 1, 1, 1, 1, 0, 1, 1, 1]] fresh_start (by decide +kernel)
  have hclosed : c.shared.done .host = true := (Prod.mk.inj (Prod.mk.inj (Prod.mk.inj hout).2).2).2
  exact ⟨c, hc, hout, close_delivers _ _ _ hc hclosed⟩

/-- The host has looked at the empty ring when the guest publishes the byte, finds that the client has closed and sets
the flag. The host finds the flag, and closes without the byte. -/
theorem close_drops_byte : ∃ c, Reachable spread (some .tx) (fun _ _ _ => True) c ∧
    outcome c.shared = ([7], 1, [], true) := by
  exact Threads.played (fun _ _ _ => true) (fun _ _ _ _ => trivial)
    [turns .host [1, 1, 1, 1, 0], sends _ 7, turns .guest (List.replicate 9 1), shuts,
      turns .guest (List.replicate 7 1), .resume (.side .host) [1, 1, 1]] fresh_start (by decide +kernel)

end MoCoLinux.Xwire
