import Mathlib.Logic.Function.Basic
import MoCoLinux.Lib.Runs

/-!
# Programs that share a state

A program is built from atomic actions on a shared state. Threads run programs and take turns, action by
action. `Prog.Safe` is the rely/guarantee judgement for one program: whatever the other threads do within
`rely`, each action of the program stays within `guar`. `Sound.reach` puts the threads together.
-/

namespace Threads

variable {σ ι α β : Type}

/-- A program with result `α`. An action returns `none` while it has to wait; `choose` is a choice of the
environment. -/
inductive Prog (σ α : Type) : Type 1 where
  | ret (a : α) : Prog σ α
  | act {β : Type} (f : σ → Option (β × σ)) (k : β → Prog σ α) : Prog σ α
  | choose (k : Nat → Prog σ α) : Prog σ α

namespace Prog

def bind : Prog σ α → (α → Prog σ β) → Prog σ β
  | ret a, g => g a
  | act f k, g => act f fun b => (k b).bind g
  | choose k, g => choose fun n => (k n).bind g

instance : Monad (Prog σ) where
  pure := ret
  bind := bind

def read (g : σ → β) : Prog σ β := act (fun s => some (g s, s)) ret

def write (g : σ → σ) : Prog σ Unit := act (fun s => some ((), g s)) ret

/-- Wait for `b`, and change the state in the same action. -/
def await (b : σ → Bool) (g : σ → σ) : Prog σ Unit := act (fun s => if b s then some ((), g s) else none) ret

def pick : Prog σ Nat := choose ret

/-- A program that waits for ever. -/
def stuck : Prog σ α := act (fun _ => (none : Option (α × σ))) ret

/-- Repeat `body` until it returns a result, so many times at most. -/
def retry (body : Prog σ (Option α)) : Nat → Prog σ α
  | 0 => stuck
  | n + 1 => bind body fun r => r.elim (retry body n) ret

/-- A loop, in which the environment says how many rounds there are at most. -/
def loop (body : Prog σ (Option α)) : Prog σ α := choose (retry body)

/-- One step of a program, with `n` for the choice of the environment. -/
def next (n : Nat) : Prog σ α → σ → Option (Prog σ α × σ)
  | ret _, _ => none
  | act f k, s => (f s).map fun r => (k r.1, r.2)
  | choose k, s => some (k n, s)

@[simp] theorem pure_eq (a : α) : (pure a : Prog σ α) = ret a := rfl

@[simp] theorem ret_bind (a : α) (g : α → Prog σ β) : (ret a >>= g : Prog σ β) = g a := rfl

@[simp] theorem act_bind {γ : Type} (f : σ → Option (γ × σ)) (k : γ → Prog σ α) (g : α → Prog σ β) :
    (act f k >>= g : Prog σ β) = act f fun b => k b >>= g := rfl

@[simp] theorem choose_bind (k : Nat → Prog σ α) (g : α → Prog σ β) :
    (choose k >>= g : Prog σ β) = choose fun n => k n >>= g := rfl

end Prog

/-! ## Threads -/

/-- The shared state, and the program each busy thread still has to run. -/
structure Config (σ ι : Type) where
  shared : σ
  thread : ι → Option (Prog σ Unit)

section Steps

variable [DecidableEq ι]

/-- One step of thread `i`: it starts a program, runs one action of it, or ends it. -/
inductive Step (calls : ι → σ → Prog σ Unit → Prop) (allowed : ι → σ → σ → Prop) :
    Config σ ι → ι → Config σ ι → Prop where
  | call {c i p} : c.thread i = none → calls i c.shared p →
      Step calls allowed c i { c with thread := Function.update c.thread i (some p) }
  | run {c i p n p' s'} : c.thread i = some p → p.next n c.shared = some (p', s') → allowed i c.shared s' →
      Step calls allowed c i ⟨s', Function.update c.thread i (some p')⟩
  | done {c i} : c.thread i = some (.ret ()) →
      Step calls allowed c i { c with thread := Function.update c.thread i none }

/-- The configurations reached from idle threads by the actions in `allowed`. -/
def Reachable (init : σ → Prop) (calls : ι → σ → Prog σ Unit → Prop) (allowed : ι → σ → σ → Prop) :
    Config σ ι → Prop :=
  Runs.Reach (fun c => init c.shared ∧ ∀ i, c.thread i = none) (Step calls allowed)

end Steps

/-! ## A thread that runs alone -/

namespace Prog

/-- Run some steps of the program, each of which has to be in `ok`, with one entry of the list for each step. -/
def advance (ok : σ → σ → Bool) : List Nat → Prog σ α → σ → Option (Prog σ α × σ)
  | [], p, s => some (p, s)
  | n :: ns, p, s => (p.next n s).bind fun r => if ok s r.2 then advance ok ns r.1 r.2 else none

def rest : Prog σ Unit → Option (Prog σ Unit)
  | ret _ => none
  | p => some p

def blocked : Prog σ α → σ → Bool
  | act f _, s => (f s).isNone
  | _, _ => false

/-- The result of a program that neither waits nor depends on a choice, and the state it leaves. -/
def alone : Prog σ α → σ → Option (α × σ)
  | ret a, s => some (a, s)
  | act f k, s => (f s).bind fun r => (k r.1).alone r.2
  | choose _, _ => none

@[simp] theorem alone_ret (a : α) (s : σ) : (ret a : Prog σ α).alone s = some (a, s) := rfl

@[simp] theorem alone_write (g : σ → σ) (s : σ) : (write g).alone s = some ((), g s) := rfl

theorem alone_bind (p : Prog σ β) (g : β → Prog σ α) (s : σ) :
    (p >>= g).alone s = (p.alone s).bind fun r => (g r.1).alone r.2 := by
  induction p generalizing s with
  | ret b => rfl
  | act f k ih =>
    simp only [act_bind, alone, Option.bind_assoc]
    exact congrArg _ (funext fun r => ih r.1 r.2)
  | choose k _ => rfl

end Prog

/-! ## Concrete runs -/

section Play

variable {calls : ι → σ → Prog σ Unit → Prop}

/-- What a thread does next: it starts a program, or goes on with the one it has. It takes one step for each of the
`picks`. -/
inductive Move (calls : ι → σ → Prog σ Unit → Prop) : Type 1 where
  | call (i : ι) (p : Prog σ Unit) (ready : σ → Bool) (legal : ∀ s, ready s = true → calls i s p) (picks : List Nat)
  | resume (i : ι) (picks : List Nat)

/-- A call that may be made in every state. -/
def Move.free (i : ι) (p : Prog σ Unit) (legal : ∀ s, calls i s p) (picks : List Nat) : Move calls :=
  .call i p (fun _ => true) (fun s _ => legal s) picks

variable [DecidableEq ι] (ok : ι → σ → σ → Bool)

/-- Thread `i` runs `p`, and is idle again at its end. -/
def Config.go (c : Config σ ι) (i : ι) (picks : List Nat) (p : Prog σ Unit) : Option (Config σ ι) :=
  (p.advance (ok i) picks c.shared).map fun r => ⟨r.2, Function.update c.thread i r.1.rest⟩

def Move.play (c : Config σ ι) : Move calls → Option (Config σ ι)
  | call i p ready _ picks => if (c.thread i).isNone && ready c.shared then c.go ok i picks p else none
  | resume i picks => (c.thread i).bind (c.go ok i picks)

/-- The moves one after another. -/
def play : List (Move calls) → Config σ ι → Option (Config σ ι)
  | [], c => some c
  | m :: rest, c => (m.play ok c).bind (play rest)

variable {ok} {init : σ → Prop} {allowed : ι → σ → σ → Prop} {c c' : Config σ ι} {i : ι} {p : Prog σ Unit}
  (hok : ∀ i s s', ok i s s' = true → allowed i s s')

include hok

theorem Reachable.advance (ns : List Nat) {p' : Prog σ Unit} {s' : σ} (h : Reachable init calls allowed c)
    (hp : c.thread i = some p) (hf : p.advance (ok i) ns c.shared = some (p', s')) :
    Reachable init calls allowed ⟨s', Function.update c.thread i (some p')⟩ := by
  induction ns generalizing c p with
  | nil =>
    cases hf
    rwa [← hp, Function.update_eq_self]
  | cons n ns ih =>
    rw [Prog.advance, Option.bind_eq_some_iff] at hf
    obtain ⟨⟨q, t⟩, hn, hf⟩ := hf
    split at hf
    case isTrue hstep =>
      have hreach := ih (h.next (.run hp hn (hok _ _ _ hstep))) (by simp) hf
      simpa using hreach
    case isFalse => cases hf

theorem Reachable.go (picks : List Nat) (h : Reachable init calls allowed c) (hp : c.thread i = some p)
    (hf : c.go ok i picks p = some c') : Reachable init calls allowed c' := by
  obtain ⟨⟨p', s'⟩, hadv, rfl⟩ := Option.map_eq_some_iff.mp hf
  have hreach := h.advance hok picks hp hadv
  cases p' with
  | ret u =>
    have hdone : Reachable init calls allowed _ := hreach.next (.done (i := i) (by simp))
    simpa [Prog.rest] using hdone
  | act f k => exact hreach
  | choose k => exact hreach

theorem Reachable.call (picks : List Nat) (h : Reachable init calls allowed c) (hidle : c.thread i = none)
    (hp : calls i c.shared p) (hf : c.go ok i picks p = some c') : Reachable init calls allowed c' := by
  refine Reachable.go hok picks (h.next (.call hidle hp)) (Function.update_self i (some p) c.thread) ?_
  simpa only [Config.go, Function.update_idem] using hf

theorem Reachable.play {moves : List (Move calls)} (h : Reachable init calls allowed c)
    (hf : play ok moves c = some c') : Reachable init calls allowed c' := by
  induction moves generalizing c with
  | nil =>
    cases hf
    exact h
  | cons m rest ih =>
    obtain ⟨c₁, h₁, hf⟩ := Option.bind_eq_some_iff.mp hf
    refine ih ?_ hf
    cases m with
    | call i p ready legal picks =>
      rw [Move.play] at h₁
      split at h₁
      case isTrue hr =>
        obtain ⟨hidle, hready⟩ := Bool.and_eq_true_iff.mp hr
        exact h.call hok picks (Option.isNone_iff_eq_none.mp hidle) (legal _ hready) h₁
      case isFalse => cases h₁
    | resume i picks =>
      obtain ⟨p, hp, h₁⟩ := Option.bind_eq_some_iff.mp h₁
      exact h.go hok picks hp h₁

omit hok in
/-- What a run from idle threads comes to is reachable. -/
theorem played (ok : ι → σ → σ → Bool) (hok : ∀ i s s', ok i s s' = true → allowed i s s') (moves : List (Move calls))
    {γ : Type} {f : Config σ ι → γ} {x : γ} {s₀ : σ} (hinit : init s₀)
    (hf : (play ok moves ⟨s₀, fun _ => none⟩).map f = some x) : ∃ c, Reachable init calls allowed c ∧ f c = x := by
  obtain ⟨c, hc, hx⟩ := Option.map_eq_some_iff.mp hf
  exact ⟨c, Reachable.play hok (.start ⟨hinit, fun _ => rfl⟩) hc, hx⟩

end Play

/-! ## Rely and guarantee -/

/-- What a thread relies on and guarantees, and what holds while it is idle. -/
structure Contract (σ : Type) where
  rely : σ → σ → Prop
  guar : σ → σ → Prop
  idle : σ → Prop

namespace Prog

variable {inv : σ → Prop} {C : Contract σ} {ok : σ → σ → Prop}

/-- From the state `s`, the program keeps the guarantee as long as the others keep the rely, and it ends in
`Q`. -/
def Safe (inv : σ → Prop) (C : Contract σ) (ok : σ → σ → Prop) (Q : α → σ → Prop) : Prog σ α → σ → Prop
  | ret a, s => ∀ s', C.rely s s' → inv s' → Q a s'
  | act f k, s => ∀ s', C.rely s s' → inv s' → ∀ b s'', f s' = some (b, s'') → ok s' s'' →
      C.guar s' s'' ∧ Safe inv C ok Q (k b) s''
  | choose k, s => ∀ n, Safe inv C ok Q (k n) s

end Prog

/-- The laws that make a contract usable for one thread. -/
structure Contract.Lawful (C : Contract σ) (inv : σ → Prop) : Prop where
  refl : ∀ s, C.rely s s
  trans : ∀ {s s' s''}, C.rely s s' → C.rely s' s'' → C.rely s s''
  still : ∀ {s}, inv s → C.guar s s
  keeps : ∀ {s s'}, inv s → C.guar s s' → inv s'
  idle : ∀ {s s'}, C.idle s → C.rely s s' → inv s' → C.idle s'

namespace Prog

variable {inv : σ → Prop} {C : Contract σ} {ok : σ → σ → Prop} {Q : α → σ → Prop} {s s' : σ}

theorem Safe.stable (L : C.Lawful inv) {p : Prog σ α} (hr : C.rely s s') (h : p.Safe inv C ok Q s) :
    p.Safe inv C ok Q s' := by
  induction p with
  | ret a => exact fun t ht hi => h t (L.trans hr ht) hi
  | act f k _ => exact fun t ht hi => h t (L.trans hr ht) hi
  | choose k ih => exact fun n => ih n (h n)

theorem Safe.mono {Q' : α → σ → Prop} {p : Prog σ α} (h : p.Safe inv C ok Q s)
    (hQ : ∀ a s, inv s → Q a s → Q' a s) : p.Safe inv C ok Q' s := by
  induction p generalizing s with
  | ret a => exact fun t ht hi => hQ _ _ hi (h t ht hi)
  | act f k ih => exact fun t ht hi b t' hf ha => ⟨(h t ht hi b t' hf ha).1, ih b (h t ht hi b t' hf ha).2⟩
  | choose k ih => exact fun n => ih n (h n)

/-- The frame rule: what every step of this thread and of the others keeps still holds at the end. -/
theorem Safe.frame {F : σ → Prop} {p : Prog σ α} (hrely : ∀ {s s'}, F s → C.rely s s' → inv s' → F s')
    (hguar : ∀ {s s'}, F s → inv s → C.guar s s' → F s') (h : p.Safe inv C ok Q s) (hF : F s) :
    p.Safe inv C ok (fun a s => Q a s ∧ F s) s := by
  induction p generalizing s with
  | ret a => exact fun t ht hi => ⟨h t ht hi, hrely hF ht hi⟩
  | act f k ih =>
    intro t ht hi b t' hf ha
    obtain ⟨hg, hk⟩ := h t ht hi b t' hf ha
    exact ⟨hg, ih b hk (hguar (hrely hF ht hi) hi hg)⟩
  | choose k ih => exact fun n => ih n (h n) hF

theorem Safe.bind (L : C.Lawful inv) {p : Prog σ β} {g : β → Prog σ α} (hi : inv s)
    (h : p.Safe inv C ok (fun b s => (g b).Safe inv C ok Q s) s) : (p >>= g).Safe inv C ok Q s := by
  induction p generalizing s with
  | ret b => exact h s (L.refl s) hi
  | act f k ih =>
    intro t ht hit b t' hf ha
    obtain ⟨hg, hk⟩ := h t ht hit b t' hf ha
    exact ⟨hg, ih b (L.keeps hit hg) hk⟩
  | choose k ih => exact fun n => ih n hi (h n)

theorem Safe.stays {P : σ → Prop} (h : ∀ {s s'}, P s → C.rely s s' → P s') {s s' : σ} (hP : P s)
    (hr : C.rely s s') (_ : inv s') : P s' := h hP hr

theorem Safe.always {s s' : σ} (_ : True) (_ : C.rely s s') (_ : inv s') : True := trivial

/-- The rule of the end: `P` is stable and implies the postcondition. -/
theorem Safe.ret {P : σ → Prop} {s : σ} {a : α} (hst : ∀ {s s'}, P s → C.rely s s' → inv s' → P s')
    (hQ : ∀ s, P s → inv s → Q a s) (hP : P s) : (Prog.ret a).Safe inv C ok Q s :=
  fun t ht hi => hQ t (hst hP ht hi) hi

theorem Safe.done {s : σ} {a : α} (hst : ∀ {s s'}, Q a s → C.rely s s' → Q a s') (hQ : Q a s) :
    (Prog.ret a).Safe inv C ok Q s :=
  fun _ ht _ => hst hQ ht

/-- The rule of one action: `P` is stable, and the action takes it to a state from which the rest is safe. -/
theorem Safe.act {P : σ → Prop} {s : σ} {f : σ → Option (β × σ)} {k : β → Prog σ α}
    (hst : ∀ {s s'}, P s → C.rely s s' → inv s' → P s')
    (h : ∀ s b t, P s → inv s → f s = some (b, t) → ok s t → C.guar s t ∧ (k b).Safe inv C ok Q t)
    (hP : P s) : (Prog.act f k).Safe inv C ok Q s :=
  fun t ht hi b t' hf ha => h t b t' (hst hP ht hi) hi hf ha

theorem Safe.pick {k : Nat → Prog σ α} {s : σ} (h : ∀ n, (k n).Safe inv C ok Q s) :
    (Prog.pick >>= k).Safe inv C ok Q s := h

theorem Safe.read (L : C.Lawful inv) {P : σ → Prop} {s : σ} {g : σ → β} {k : β → Prog σ α}
    (hst : ∀ {s s'}, P s → C.rely s s' → inv s' → P s')
    (h : ∀ s, P s → inv s → (k (g s)).Safe inv C ok Q s) (hP : P s) :
    (Prog.read g >>= k).Safe inv C ok Q s := by
  intro t ht hi b t' hf _
  cases hf
  exact ⟨L.still hi, h t (hst hP ht hi) hi⟩

theorem Safe.write {P : σ → Prop} {s : σ} {g : σ → σ} {k : Unit → Prog σ α}
    (hst : ∀ {s s'}, P s → C.rely s s' → inv s' → P s')
    (h : ∀ s, P s → inv s → ok s (g s) → C.guar s (g s) ∧ (k ()).Safe inv C ok Q (g s)) (hP : P s) :
    (Prog.write g >>= k).Safe inv C ok Q s := by
  intro t ht hi b t' hf ha
  cases hf
  exact h t (hst hP ht hi) hi ha

theorem Safe.writeLast {P : σ → Prop} {s : σ} {g : σ → σ} {Q : Unit → σ → Prop}
    (hst : ∀ {s s'}, P s → C.rely s s' → inv s' → P s')
    (h : ∀ s, P s → inv s → ok s (g s) → C.guar s (g s) ∧ ∀ s', C.rely (g s) s' → inv s' → Q () s') (hP : P s) :
    (Prog.write g).Safe inv C ok Q s := by
  intro t ht hi b t' hf ha
  cases hf
  exact h t (hst hP ht hi) hi ha

theorem Safe.await {P : σ → Prop} {s : σ} {b : σ → Bool} {g : σ → σ} {k : Unit → Prog σ α}
    (hst : ∀ {s s'}, P s → C.rely s s' → inv s' → P s')
    (h : ∀ s, P s → inv s → b s = true → ok s (g s) → C.guar s (g s) ∧ (k ()).Safe inv C ok Q (g s)) (hP : P s) :
    (Prog.await b g >>= k).Safe inv C ok Q s := by
  intro t ht hi u t' hf ha
  cases hb : b t with
  | false => simp [hb] at hf
  | true =>
    simp only [hb, if_true, Option.some.injEq, Prod.mk.injEq] at hf
    obtain ⟨-, rfl⟩ := hf
    exact h t (hst hP ht hi) hi hb ha

theorem Safe.next (L : C.Lawful inv) {p p' : Prog σ α} {n : Nat} (h : p.Safe inv C ok Q s) (hi : inv s)
    (hn : p.next n s = some (p', s')) (hok : ok s s') :
    p'.Safe inv C ok Q s' ∧ (C.guar s s' ∨ s' = s) := by
  cases p with
  | ret a => cases hn
  | act f k =>
    simp only [Prog.next, Option.map_eq_some_iff] at hn
    obtain ⟨⟨b, t⟩, hf, heq⟩ := hn
    cases heq
    obtain ⟨hg, hk⟩ := h s (L.refl s) hi b t hf hok
    exact ⟨hk, Or.inl hg⟩
  | choose k =>
    cases hn
    exact ⟨h n, Or.inr rfl⟩

end Prog

/-! ## All threads together -/

section Together

variable [DecidableEq ι]

/-- The contracts fit together, and every program a thread may start is safe. -/
structure Sound (init : σ → Prop) (calls : ι → σ → Prog σ Unit → Prop) (allowed : ι → σ → σ → Prop)
    (inv : σ → Prop) (C : ι → Contract σ) : Prop where
  lawful : ∀ i, (C i).Lawful inv
  fits : ∀ {i j s s'}, i ≠ j → inv s → (C i).guar s s' → (C j).rely s s'
  start : ∀ {s}, init s → inv s ∧ ∀ i, (C i).idle s
  call : ∀ {i s p}, inv s → (C i).idle s → calls i s p →
    p.Safe inv (C i) (allowed i) (fun _ s => (C i).idle s) s

variable {init : σ → Prop} {calls : ι → σ → Prog σ Unit → Prop} {allowed : ι → σ → σ → Prop} {inv : σ → Prop}
  {C : ι → Contract σ}

/-- What holds of a configuration: the invariant, and for each thread that it is idle or that the rest of its
program is safe. -/
structure Good (allowed : ι → σ → σ → Prop) (inv : σ → Prop) (C : ι → Contract σ) (c : Config σ ι) : Prop where
  shared : inv c.shared
  idle : ∀ i, c.thread i = none → (C i).idle c.shared
  busy : ∀ i p, c.thread i = some p → p.Safe inv (C i) (allowed i) (fun _ s => (C i).idle s) c.shared

theorem Good.update (S : Sound init calls allowed inv C) {c : Config σ ι} (G : Good allowed inv C c) {i : ι} {s' : σ}
    {t : Option (Prog σ Unit)} (hinv : inv s') (hrely : ∀ j, j ≠ i → (C j).rely c.shared s')
    (hidle : t = none → (C i).idle s')
    (hbusy : ∀ p, t = some p → p.Safe inv (C i) (allowed i) (fun _ s => (C i).idle s) s') :
    Good allowed inv C ⟨s', Function.update c.thread i t⟩ := by
  refine ⟨hinv, fun j hj => ?_, fun j p hj => ?_⟩
  · by_cases hji : j = i
    · subst hji
      exact hidle (by simpa using hj)
    · simp only [Function.update_of_ne hji] at hj
      exact (S.lawful j).idle (G.idle j hj) (hrely j hji) hinv
  · by_cases hji : j = i
    · subst hji
      exact hbusy p (by simpa using hj)
    · simp only [Function.update_of_ne hji] at hj
      exact (G.busy j p hj).stable (S.lawful j) (hrely j hji)

theorem Sound.step (S : Sound init calls allowed inv C) {c c' : Config σ ι} {i : ι} (G : Good allowed inv C c)
    (h : Step calls allowed c i c') : Good allowed inv C c' := by
  cases h with
  | call hnone hcall =>
    refine G.update S G.shared (fun j _ => (S.lawful j).refl _) (fun h => by cases h) fun p hp => ?_
    cases hp
    exact S.call G.shared (G.idle i hnone) hcall
  | @run _ _ _ s' hp hn hok =>
    obtain ⟨hsafe, hg⟩ := (G.busy i _ hp).next (S.lawful i) G.shared hn hok
    have hinv : inv s' ∧ ∀ j, j ≠ i → (C j).rely c.shared s' := by
      rcases hg with hg | heq
      · exact ⟨(S.lawful i).keeps G.shared hg, fun j hj => S.fits (Ne.symm hj) G.shared hg⟩
      · rw [heq]
        exact ⟨G.shared, fun j _ => (S.lawful j).refl _⟩
    refine G.update S hinv.1 hinv.2 (fun h => by cases h) fun p hp' => ?_
    cases hp'
    exact hsafe
  | done hp =>
    refine G.update S G.shared (fun j _ => (S.lawful j).refl _) (fun _ => ?_) fun p hp => by cases hp
    exact G.busy i _ hp _ ((S.lawful i).refl _) G.shared

/-- The invariant holds in every configuration reached. -/
theorem Sound.reach (S : Sound init calls allowed inv C) {c : Config σ ι} (h : Reachable init calls allowed c) :
    Good allowed inv C c := by
  refine Runs.Reach.invariant (P := Good allowed inv C) (fun c hc => ?_) (fun _ _ _ G hs => S.step G hs) h
  obtain ⟨hinit, hidle⟩ := hc
  obtain ⟨hinv, hi⟩ := S.start hinit
  exact ⟨hinv, fun i _ => hi i, fun i p hp => by rw [hidle i] at hp; cases hp⟩

end Together

end Threads
