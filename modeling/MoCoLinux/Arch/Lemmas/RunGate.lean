import MoCoLinux.Arch.RunGate

/-!
# The lifecycle of a run: invariant and contract

Every thread may run every request, so all threads have one contract. What a thread knows of its own position is a
`Local`; the others leave it alone (`Others`), and each atomic action of a program takes one `Local` to the next
(`Triple`).
-/

namespace MoCoLinux.Arch

theorem RunState.IsRun.not_isTest {r : RunState} (h : r.IsRun) : ¬ r.IsTest := by
  rcases h with rfl | rfl | rfl <;> rintro (h | h | h) <;> cases h

namespace Lifecycle

open Threads (Prog Contract)

structure GateInv (s : Lifecycle) : Prop where
  counted : s.gate.refs = s.testing.length
  bound : s.testing.length < 2 ^ 28
  tests : s.testing ≠ [] ↔ s.gate.state.IsTest
  held : s.holder ≠ none ↔ s.gate.state.IsRun
  booting : s.booting ≠ [] → ∃ h, s.booting = [h] ∧ s.holder = some h
  begun : s.booting ≠ [] → s.cleared = true
  looping : s.looping = true → s.booting ≠ []
  cleared : s.cleared = true → s.holder ≠ none
  freeing : s.freeing = true → s.gate.state = .stopping
  running : s.gate.state = .running → s.booting ≠ []
  serial : s.holder ≠ none → 0 < s.serial

/-- The slots. The boot processor keeps slot 0 while lanes are admitted. -/
structure SlotInv (s : Lifecycle) : Prop where
  oneOwner : ∀ v, (s.owners v).length ≤ 1
  free : ∀ v, s.active v = .free ↔ s.owners v = []
  joined : ∀ v i, (i, Role.join) ∈ s.owners v → (0 < v ∧ v < maxVcpus) ∧
    (s.gate.state = .running ∨ s.gate.state = .stopping) ∧ s.booting ≠ [] ∧ s.freeing = false
  seated : s.gate.state = .running → ∃ h, (h, Role.boot) ∈ s.owners 0

/-- The flag. Under `strict` only the stop of a run sets it after the run has cleared it, and a run that was stopped does
not clear it. -/
structure FlagInv (strict : Bool) (s : Lifecycle) : Prop where
  stops : s.gate.state = .stopping → ∃ i, (i, s.serial) ∈ s.stops
  found : ∀ i n, s.found i = some n → n ≤ s.serial ∧ (n = s.serial → s.holder ≠ none → s.gate.state = .stopping)
  ended : ∀ i n, (i, n) ∈ s.ended → n ≤ s.serial ∧
    (n = s.serial → s.holder ≠ none → s.gate.state = .stopping ∧ (strict = true → (i, n) ∈ s.stops → s.abortAll = true))
  told : strict = true → s.cleared = true → s.abortAll = true → s.gate.state = .stopping

structure Inv (strict : Bool) (s : Lifecycle) : Prop where
  gate : GateInv s
  slots : SlotInv s
  flag : FlagInv strict s

theorem GateInv.no_tests {s : Lifecycle} (h : GateInv s) (hrun : s.gate.state.IsRun) : s.testing = [] :=
  not_not.mp fun hne => hrun.not_isTest (h.tests.mp hne)

theorem GateInv.no_run {s : Lifecycle} (h : GateInv s) (htest : s.gate.state.IsTest) : s.holder = none :=
  not_not.mp fun hne => (h.held.mp hne).not_isTest htest

structure Kept (s s' : Lifecycle) : Prop where
  holder : s'.holder = s.holder
  booting : s'.booting = s.booting
  cleared : s'.cleared = s.cleared
  looping : s'.looping = s.looping
  freeing : s'.freeing = s.freeing
  state : s'.gate.state = s.gate.state ∨ s'.gate.state = .stopping
  joins : s.gate.state ≠ .running → ∀ v i, (i, Role.join) ∈ s'.owners v → (i, Role.join) ∈ s.owners v

structure Others (j : Nat) (s s' : Lifecycle) : Prop where
  testing : j ∈ s.testing → j ∈ s'.testing
  owners : ∀ v r, (j, r) ∈ s.owners v →
    (j, r) ∈ s'.owners v ∧ s'.active v = s.active v ∧ s'.diagnostic v = s.diagnostic v
  holder : s.holder = some j → Kept s s'
  lock : s.lock = some j → s'.lock = some j ∧ (s.gate.state = .running → s'.gate.state = .running)
  found : s'.found j = s.found j

variable {i j : Nat} {s s' s'' : Lifecycle}

theorem Kept.refl (s : Lifecycle) : Kept s s := ⟨rfl, rfl, rfl, rfl, rfl, .inl rfl, fun _ _ _ h => h⟩

theorem Kept.trans (h : Kept s s') (h' : Kept s' s'') : Kept s s'' where
  holder := h'.holder.trans h.holder
  booting := h'.booting.trans h.booting
  cleared := h'.cleared.trans h.cleared
  looping := h'.looping.trans h.looping
  freeing := h'.freeing.trans h.freeing
  state := h'.state.elim (fun heq => h.state.imp heq.trans heq.trans) .inr
  joins hr v i hmem := by
    refine h.joins hr v i (h'.joins ?_ v i hmem)
    rcases h.state with heq | heq <;> rw [heq]
    · exact hr
    · nofun

theorem Others.refl (j : Nat) (s : Lifecycle) : Others j s s :=
  ⟨id, fun _ _ h => ⟨h, rfl, rfl⟩, fun _ => .refl s, fun h => ⟨h, id⟩, rfl⟩

theorem Others.trans (h : Others j s s') (h' : Others j s' s'') : Others j s s'' where
  testing hj := h'.testing (h.testing hj)
  owners v r hj := by
    obtain ⟨hj, ha, hd⟩ := h.owners v r hj
    obtain ⟨hj, ha', hd'⟩ := h'.owners v r hj
    exact ⟨hj, ha'.trans ha, hd'.trans hd⟩
  holder hj := (h.holder hj).trans (h'.holder ((h.holder hj).holder.trans hj))
  lock hj := by
    obtain ⟨hj, hr⟩ := h.lock hj
    obtain ⟨hj, hr'⟩ := h'.lock hj
    exact ⟨hj, fun h => hr' (hr h)⟩
  found := h'.found.trans h.found

def contract (strict : Bool) (i : Nat) : Contract Lifecycle where
  rely := Others i
  guar := fun s s' => Inv strict s' ∧ ∀ j, j ≠ i → Others j s s'
  idle := fun _ => True

theorem lawful (strict : Bool) (i : Nat) : (contract strict i).Lawful (Inv strict) where
  refl := Others.refl i
  trans := Others.trans
  still h := ⟨h, fun j _ => .refl j _⟩
  keeps _ h := h.1
  idle _ _ _ := trivial

/-- How far the boot run of a thread is: `quiet` when no lane owns a slot or can claim one, `closed` when the gate is
known to be STOPPING, and `scanned` slots without a lane then. -/
structure Stage where
  begun : Bool
  cleared : Bool
  looping : Bool
  freeing : Bool
  quiet : Bool
  closed : Bool
  scanned : Nat

structure Held (i : Nat) (g : Stage) (s : Lifecycle) : Prop where
  holder : s.holder = some i
  booting : s.booting = if g.begun then [i] else []
  cleared : s.cleared = g.cleared
  looping : s.looping = g.looping
  freeing : s.freeing = g.freeing
  quiet : g.quiet = true → s.gate.state ≠ .running ∧ ∀ v t, (t, Role.join) ∉ s.owners v
  closed : g.closed = true → s.gate.state = .stopping
  scanned : ∀ v < g.scanned, g.closed = true → ∀ t, (t, Role.join) ∉ s.owners v

structure Seat where
  slot : Nat
  role : Role
  phase : Slot

/-- What a thread knows: its run, its slot, whether it has a reference, the registry lock, that with the gate RUNNING,
and whether it has found a run in `co_arch_boot_abort`. -/
structure Local where
  stage : Option Stage
  seat : Option Seat
  inside : Bool
  locked : Bool
  running : Bool
  found : Bool

def Local.outside : Local := ⟨none, none, false, false, false, false⟩

structure At (i : Nat) (l : Local) (s : Lifecycle) : Prop where
  stage : ∀ g, l.stage = some g → Held i g s
  seat : ∀ t, l.seat = some t → (i, t.role) ∈ s.owners t.slot ∧ s.active t.slot = t.phase ∧
    (t.phase ≠ .claiming → s.diagnostic t.slot = decide (t.role = .test))
  inside : l.inside = true → i ∈ s.testing
  locked : l.locked = true → s.lock = some i
  running : l.running = true → s.lock = some i ∧ s.gate.state = .running
  found : l.found = true → s.found i ≠ none

theorem At.outside (i : Nat) (s : Lifecycle) : At i .outside s :=
  ⟨nofun, nofun, nofun, nofun, nofun, nofun⟩

theorem Held.stable {g : Stage} (h : Held i g s) (hr : Others i s s') : Held i g s' := by
  have hk := hr.holder h.holder
  refine ⟨hk.holder.trans h.holder, hk.booting.trans h.booting, hk.cleared.trans h.cleared,
    hk.looping.trans h.looping, hk.freeing.trans h.freeing, fun hq => ?_, fun hc => ?_, fun v hv hc t hmem => ?_⟩
  · obtain ⟨hstate, hjoins⟩ := h.quiet hq
    refine ⟨?_, fun v t hmem => hjoins v t (hk.joins hstate v t hmem)⟩
    rcases hk.state with heq | heq <;> rw [heq]
    · exact hstate
    · nofun
  · exact hk.state.elim (fun heq => heq.trans (h.closed hc)) id
  · refine h.scanned v hv hc t (hk.joins ?_ v t hmem)
    rw [h.closed hc]
    nofun

theorem At.stable {l : Local} (h : At i l s) (hr : Others i s s') : At i l s' where
  stage g hg := (h.stage g hg).stable hr
  seat t ht := by
    obtain ⟨hmem, hactive, hdiag⟩ := h.seat t ht
    obtain ⟨hmem', ha, hd⟩ := hr.owners _ _ hmem
    exact ⟨hmem', ha.trans hactive, fun hne => hd.trans (hdiag hne)⟩
  inside hin := hr.testing (h.inside hin)
  locked hl := (hr.lock (h.locked hl)).1
  running hrun := by
    obtain ⟨hlock, hstate⟩ := h.running hrun
    exact ⟨(hr.lock hlock).1, (hr.lock hlock).2 hstate⟩
  found hf := by
    rw [hr.found]
    exact h.found hf

structure Moves (strict : Bool) (i : Nat) (l : Local) (s s' : Lifecycle) : Prop where
  inv : Inv strict s'
  others : ∀ j, j ≠ i → Others j s s'
  here : At i l s'

theorem Moves.still {strict : Bool} {l : Local} (hinv : Inv strict s) (h : At i l s) : Moves strict i l s s :=
  ⟨hinv, fun j _ => .refl j s, h⟩

def Triple {α : Type} (strict : Bool) (ok : Nat → Lifecycle → Lifecycle → Prop) (i : Nat) (l : Local)
    (p : Prog Lifecycle α) (m : α → Local) : Prop :=
  ∀ s, Inv strict s → At i l s → p.Safe (Inv strict) (contract strict i) (ok i) (fun a s => At i (m a) s) s

namespace Triple

variable {α β : Type} {strict : Bool} {ok : Nat → Lifecycle → Lifecycle → Prop} {l : Local}

theorem ret {m : α → Local} (a : α) (h : ∀ s, Inv strict s → At i l s → At i (m a) s) :
    Triple strict ok i l (Prog.ret a) m :=
  fun _ _ hat _ hr hinv => h _ hinv (hat.stable hr)

theorem bind {p : Prog Lifecycle β} {k : β → Prog Lifecycle α} {n : β → Local} {m : α → Local}
    (hp : Triple strict ok i l p n) (hk : ∀ b, Triple strict ok i (n b) (k b) m) :
    Triple strict ok i l (p >>= k) m :=
  fun s hinv hat => .bind (lawful strict i) hinv ((hp s hinv hat).mono fun b t hinv' hat' => hk b t hinv' hat')

theorem act {f : Lifecycle → Option (β × Lifecycle)} {m : β → Local}
    (h : ∀ s b t, Inv strict s → At i l s → f s = some (b, t) → ok i s t → Moves strict i (m b) s t) :
    Triple strict ok i l (Prog.act f Prog.ret) m := by
  intro s _ hat t hr hinv b t' hf hok
  have hmoves := h t b t' hinv (hat.stable hr) hf hok
  exact ⟨⟨hmoves.inv, hmoves.others⟩, fun t'' hr' _ => hmoves.here.stable hr'⟩

theorem write {g : Lifecycle → Lifecycle} {m : Unit → Local}
    (h : ∀ s, Inv strict s → At i l s → ok i s (g s) → Moves strict i (m ()) s (g s)) :
    Triple strict ok i l (Prog.write g) m := by
  refine act fun s b t hinv hat hf hok => ?_
  cases hf
  exact h s hinv hat hok

theorem read {g : Lifecycle → β} {m : β → Local} (h : ∀ s, Inv strict s → At i l s → At i (m (g s)) s) :
    Triple strict ok i l (Prog.read g) m := by
  refine act fun s b t hinv hat hf _ => ?_
  cases hf
  exact .still hinv (h s hinv hat)

theorem readThen {g : Lifecycle → β} {k : β → Prog Lifecycle α} {m : α → Local}
    (h : ∀ s, Inv strict s → At i l s → ∃ l', At i l' s ∧ Triple strict ok i l' (k (g s)) m) :
    Triple strict ok i l (Prog.read g >>= k) m := by
  intro s _ hat t hr hinv b t' hf _
  cases hf
  obtain ⟨l', hat', hk⟩ := h t hinv (hat.stable hr)
  exact ⟨⟨hinv, fun j _ => .refl j t⟩, hk t hinv hat'⟩

theorem readAny {g : Lifecycle → β} {k : β → Prog Lifecycle α} {m : α → Local}
    (h : ∀ b, Triple strict ok i l (k b) m) : Triple strict ok i l (Prog.read g >>= k) m :=
  readThen fun s _ hat => ⟨l, hat, h (g s)⟩

theorem pick {k : Nat → Prog Lifecycle α} {m : α → Local} (h : ∀ n, Triple strict ok i l (k n) m) :
    Triple strict ok i l (Prog.pick >>= k) m :=
  fun s hinv hat n => h n s hinv hat

theorem cas {old new : Word} {record : Lifecycle → Lifecycle} {m : Bool → Local}
    (hfail : ∀ s, Inv strict s → At i l s → s.gate ≠ old → At i (m false) s)
    (h : ∀ s, Inv strict s → At i l s → s.gate = old → ok i s (record { s with gate := new }) →
      Moves strict i (m true) s (record { s with gate := new })) :
    Triple strict ok i l (Lifecycle.cas old new record) m := by
  refine act fun s b t hinv hat hf hok => ?_
  split at hf
  case isTrue heq =>
    cases hf
    exact h s hinv hat heq hok
  case isFalse hne =>
    cases hf
    exact .still hinv (hfail s hinv hat hne)

theorem loop {body : Prog Lifecycle (Option α)} {m : α → Local}
    (h : Triple strict ok i l body fun r => r.elim l m) : Triple strict ok i l (Prog.loop body) m := by
  have hretry : ∀ n, Triple strict ok i l (Prog.retry body n) m := by
    intro n
    induction n with
    | zero => exact fun _ _ _ _ _ _ _ _ hf _ => by cases hf
    | succ n ih =>
      refine bind h fun r => ?_
      cases r with
      | none => exact ih
      | some a => exact ret a fun _ _ hat => hat
  exact fun s hinv hat n => hretry n s hinv hat

theorem weaken {k : Local} {p : Prog Lifecycle α} {m : α → Local} (hp : Triple strict ok i k p m)
    (h : ∀ s, Inv strict s → At i l s → At i k s) : Triple strict ok i l p m :=
  fun s hinv hat => hp s hinv (h s hinv hat)

end Triple

end Lifecycle

end MoCoLinux.Arch
