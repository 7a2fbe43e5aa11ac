import MoCoLinux.Copresent.Lemmas.Answers

/-!
# The presentation broker: results
-/

namespace MoCoLinux.Broker

open Copresent
open Threads (Config Prog)

def started : Broker where
  generation := 5
  nextConnection := 1
  count := 0
  clients _ := ⟨0, fun _ => .empty, none, false⟩
  txLock := none
  clientsLocked := false
  handles := []
  tx := []
  serving := none
  rx := []
  hand := none
  imports := []
  bound _ := false
  published _ := false
  closes _ := 0
  settled _ := false
  writing _ := false
  cleaning _ := false

theorem started_start : Start started :=
  ⟨rfl, fun _ => ⟨rfl, fun _ => rfl⟩, ⟨rfl, rfl⟩, rfl, ⟨rfl, rfl, rfl, rfl⟩, rfl, fun _ => ⟨rfl, rfl, rfl, rfl⟩,
    fun _ => ⟨rfl, rfl⟩⟩

def sent (opcode buffer : Nat) : Record := ⟨opcode, version, 0, 0, buffer, 0, 1, 0, 1, 1, 0, 0, 0, 0, 0, 0⟩

def there (i : Nat) (s : Broker) : Bool := decide (i < s.count) && !(s.clients i).gone

theorem there_calls {i : Nat} {s : Broker} {p : Prog Broker Unit} (h : there i s = true)
    (hp : (∃ record fd, p = clientTurn i record fd) ∨ p = cleanup i) : Calls (.client i) s p := by
  rw [there, Bool.and_eq_true, decide_eq_true_eq, Bool.not_eq_true'] at h
  exact ⟨h.1, h.2, hp⟩

/-! The choices of the environment in the calls below: a new handle has the number of its dma-buf, and the resource has
number 1. -/

def accepts : Threads.Move Calls := .free .main acceptTurn (fun _ => rfl) [0, 0, 0, 0]

def client (i : Nat) (record : Record) (fd : Option Nat) (picks : List Nat) : Threads.Move Calls :=
  .call (.client i) (clientTurn i record fd) (there i) (fun _ h => there_calls h (.inl ⟨_, _, rfl⟩)) picks

def binds (i buffer dmaBuf : Nat) : Threads.Move Calls :=
  client i (sent opBind buffer) (some dmaBuf) [0, 0, 0, 0, dmaBuf, 0, 1, 0, 0, 0, 0, 0, 0, 0]

def presents (i buffer : Nat) : Threads.Move Calls := client i (sent opPresent buffer) (some 0) (List.replicate 10 0)

def unbinds (i buffer : Nat) : Threads.Move Calls := client i (sent opUnbind buffer) none (List.replicate 9 0)

def leaves (i : Nat) : Threads.Move Calls :=
  .call (.client i) (cleanup i) (there i) (fun _ h => there_calls h (.inr rfl)) [0, 0, 0, 0, 0]

def serves (steps : Nat) : Threads.Move Calls := .free .host hostTurn (fun _ => rfl) (List.replicate steps 0)

def responds (steps : Nat) : Threads.Move Calls := .free .response responseTurn (fun _ => rfl) (List.replicate steps 0)

/-- In every run of careful steps: from the publication of a BIND until the answer that ends the binding, the handle
imported for it is open and was never closed; then it was closed once. -/
theorem bound_handle_kept (c : Config Broker Party) (h : Reachable Careful c) (mark : Nat) : c.shared.Kept mark := by
  have hsound : Threads.Sound Start Calls (fun _ => Careful) (Inv .handles) (contract .handles) :=
    sound fun _ _ hc => ⟨fun _ => hc, fun haim => (by cases haim)⟩
  exact ((hsound.reach h).shared.handles rfl).kept mark

/-- Steps that are careful because nothing is on its way, no handle is open and no client is there, as far as needed. -/
def plain (s s' : Broker) : Bool :=
  s.flight.isEmpty && (decide (s'.imports = s.imports) || s.handles.isEmpty) &&
    (decide (s'.count = s.count) || decide (s.count = 0))

theorem plain_careful {s s' : Broker} (h : plain s s' = true) : Careful s s' := by
  simp only [plain, Bool.and_eq_true, Bool.or_eq_true, decide_eq_true_eq, List.isEmpty_iff] at h
  obtain ⟨⟨hflight, himports⟩, hcount⟩ := h
  refine ⟨fun m hm p hp => ?_, fun i k _ _ e he => ?_, fun hne i hi => ?_⟩
  · rcases himports with himports | hhandles
    · rw [himports] at hm
      simp at hm
    · rw [hhandles] at hp
      cases hp
  · rw [hflight] at he
    cases he
  · rcases hcount with hcount | hzero
    · exact absurd hcount hne
    · rw [hzero] at hi
      exact absurd hi (Nat.not_lt_zero i)

/-- A BIND that was just published. -/
theorem bound_handle_kept_bind : ∃ c, Reachable Careful c ∧ c.shared.published 0 = true ∧ c.shared.settled 0 = false ∧
    c.shared.closes 0 = 0 ∧ c.shared.Open 0 := by
  obtain ⟨c, hc, hout⟩ : ∃ c, Reachable Careful c ∧ (c.shared.published 0, c.shared.settled 0) = (true, false) :=
    Threads.played (fun _ => plain) (fun _ _ _ => plain_careful)
      [accepts, client 0 (sent opBind 1) (some 8) [0, 0, 0, 0, 8, 0, 1, 0, 0, 0, 0, 0, 0]] started_start (by decide +kernel)
  obtain ⟨hpublished, hsettled⟩ := Prod.mk.inj hout
  obtain ⟨hcloses, hopen⟩ := (bound_handle_kept _ hc 0 hpublished).1 hsettled
  exact ⟨c, hc, hpublished, hsettled, hcloses, hopen⟩

/-- A client binds one dma-buf under two numbers, so that both bindings have one handle, and unbinds the first. The
second is still bound and its handle is closed. -/
theorem handle_closed_early : ∃ c, Reachable (fun _ _ => True) c ∧ ¬c.shared.Kept 1 := by
  obtain ⟨c, hc, hout⟩ : ∃ c, Reachable (fun _ _ => True) c ∧
      (c.shared.published 1, c.shared.settled 1, c.shared.handles) = (true, false, []) :=
    Threads.played (fun _ _ _ => true) (fun _ _ _ _ => trivial)
      [accepts, binds 0 1 8, binds 0 2 8, unbinds 0 1, serves 3, serves 3, serves 3, responds 7, responds 7, responds 7]
      started_start (by decide +kernel)
  obtain ⟨hpublished, hrest⟩ := Prod.mk.inj hout
  obtain ⟨hsettled, hhandles⟩ := Prod.mk.inj hrest
  refine ⟨c, hc, fun hkept => ?_⟩
  obtain ⟨-, m, p, -, hp, -⟩ := (hkept hpublished).1 hsettled
  rw [hhandles] at hp
  cases hp

/-- In no run in which there is room while a thread cleans up do the threads wait in a circle. -/
theorem no_circular_wait (c : Config Broker Party) (h : Reachable Roomy c) : ¬c.shared.CircularWait := by
  have hsound : Threads.Sound Start Calls (fun _ => Roomy) (Inv .waits) (contract .waits) :=
    sound fun _ _ hr => ⟨fun haim => (by cases haim), fun _ => hr⟩
  have hinv := (hsound.reach h).shared.waits rfl
  rintro ⟨i, hlock, hwriting, htx, ⟨e, he, -⟩, hserving, hrx⟩
  have hfew := hinv.few i (hinv.cleans i hwriting hlock)
  obtain ⟨d, hd⟩ := Option.ne_none_iff_exists'.mp hserving
  -- The two rings are full, and the host and `response_thread` have one record each.
  have hlen : c.shared.flight.length = c.shared.rx.length + (c.shared.tx.length + 1) + 1 := by
    simp [flight, he, hd]
  simp only [ringSlots] at htx hrx
  omega

def few (s _ : Broker) : Bool := decide (s.flight.length ≤ 64)

theorem few_roomy {s s' : Broker} (h : few s s' = true) : Roomy s s' :=
  have hle := of_decide_eq_true h
  ⟨fun _ _ _ => Nat.le_succ_of_le hle, fun _ _ _ => hle⟩

/-- A client leaves with a buffer bound; its thread is in `ring_write` with the lock held. -/
theorem no_circular_wait_leaving : ∃ c, Reachable Roomy c ∧ (c.shared.clients 0).stateLock = some .client ∧
    c.shared.writing 0 = true ∧ ¬c.shared.CircularWait := by
  obtain ⟨c, hc, hout⟩ : ∃ c, Reachable Roomy c ∧ ((c.shared.clients 0).stateLock, c.shared.writing 0) =
      (some .client, true) :=
    Threads.played (fun _ => few) (fun _ _ _ => few_roomy) [accepts, binds 0 1 8, leaves 0] started_start
      (by decide +kernel)
  obtain ⟨hlock, hwriting⟩ := Prod.mk.inj hout
  exact ⟨c, hc, hlock, hwriting, no_circular_wait _ hc⟩

/-- The threads of a run that ends in a circular wait, and that none of them goes on. -/
structure Jam (c : Config Broker Party) : Prop where
  circle : c.shared.CircularWait
  client : ∃ p, c.thread (.client 0) = some p ∧ p.blocked c.shared = true
  response : ∃ p, c.thread .response = some p ∧ p.blocked c.shared = true
  host : ∃ p, c.thread .host = some p ∧ p.blocked c.shared = true

def waits (c : Config Broker Party) (i : Party) : Bool := (c.thread i).any (·.blocked c.shared)

/-- `response_thread` has an answer for the first client. The second presents until both rings are full and the host
has one more request. Then the first leaves with its buffer bound. -/
theorem circular_wait_on_leaving : ∃ c, Reachable (fun _ _ => True) c ∧ Jam c := by
  obtain ⟨c, hc, hout⟩ : ∃ c, Reachable (fun _ _ => True) c ∧ decide
      ((waits c (.client 0) ∧ waits c .response ∧ waits c .host) ∧ (c.shared.clients 0).stateLock = some .client ∧
        c.shared.writing 0 = true ∧ ringSlots ≤ c.shared.tx.length ∧ ringSlots ≤ c.shared.rx.length ∧
        c.shared.serving ≠ none ∧
        c.shared.hand.map (fun e => c.shared.findClient e.record.connection) = some (some 0)) = true :=
    Threads.played (fun _ _ _ => true) (fun _ _ _ _ => trivial)
      ([accepts, accepts, binds 0 1 8, binds 1 1 9, serves 3, responds 3] ++ List.replicate 31 (presents 1 1) ++
        List.replicate 32 (serves 3) ++ [presents 1 1, serves 2] ++ List.replicate 32 (presents 1 1) ++ [leaves 0])
      started_start (by decide +kernel)
  obtain ⟨⟨hclient, hresponse, hhost⟩, hlock, hwriting, htx, hrx, hserving, hhand⟩ := of_decide_eq_true hout
  obtain ⟨e, he, hfind⟩ := Option.map_eq_some_iff.mp hhand
  exact ⟨c, hc, ⟨0, hlock, hwriting, htx, ⟨e, he, hfind⟩, hserving, hrx⟩, (Option.any_eq_true _ _).mp hclient,
    (Option.any_eq_true _ _).mp hresponse, (Option.any_eq_true _ _).mp hhost⟩

end MoCoLinux.Broker
