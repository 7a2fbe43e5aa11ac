import MoCoLinux.Cobd.Boot
import MoCoLinux.Cobd.Theorems.Async

/-!
# Asynchronous or inline block I/O: results
-/

namespace MoCoLinux.Cobd.Async

open Threads (Prog Config Contract)

variable {o : Outcome} {m : Mode} {s : Async}

structure Ready (k : Nat) (s : Async) : Prop where
  accepted : ∀ u, s.accepted u = []
  alive : ∀ u, s.alive u = true ↔ u < k
  serving : k ≠ 0 → s.stopping = false ∧ s.freeList ≠ none

theorem rebuild_alone (n : Nat) (s : Async) : ∃ s', (rebuild n).alone s = some ((), s') ∧ s'.accepted = s.accepted ∧
    s'.alive = s.alive ∧ s'.stopping = s.stopping ∧ (n ≠ 0 ∨ s.freeList ≠ none → s'.freeList ≠ none) := by
  induction n generalizing s with
  | zero => exact ⟨s, rfl, rfl, rfl, rfl, by simp⟩
  | succ n ih =>
    obtain ⟨s', halone, haccepted, halive, hstopping, hfree⟩ := ih (s.pushFree (workNodes - (n + 1)))
    exact ⟨s', halone, haccepted, halive, hstopping, fun _ => hfree (.inr nofun)⟩

theorem startWorkers_alone (created : Nat) {left : Nat} (hleft : left ≤ maxUnits) (s : Async) :
    ∃ s', (startWorkers created left).alone s = some ((), s') ∧ s'.accepted = s.accepted ∧ s'.stopping = s.stopping ∧
      s'.freeList = s.freeList ∧
      ∀ u, s'.alive u = true ↔ s.alive u = true ∨ maxUnits - left ≤ u ∧ u < min created maxUnits := by
  induction left generalizing s with
  | zero =>
    refine ⟨s, rfl, rfl, rfl, rfl, fun u => (or_iff_left fun h => ?_).symm⟩
    omega
  | succ left ih =>
    rw [startWorkers]
    split
    case isTrue hcreated =>
      obtain ⟨s', halone, haccepted, hstopping, hfree, halive⟩ :=
        ih (by omega) (s.spawn (maxUnits - (left + 1)))
      refine ⟨s', halone, haccepted, hstopping, hfree, fun u => ?_⟩
      simp only [halive, spawn, Function.update_apply]
      split
      case isTrue hu => simp only [true_or, true_iff]; omega
      case isFalse hu => exact or_congr_right (by omega)
    case isFalse hcreated =>
      refine ⟨s, rfl, rfl, rfl, rfl, fun u => (or_iff_left fun h => ?_).symm⟩
      omega

def workers (ring : Bool) (created : Nat) : Nat := if ring then min created maxUnits else 0

theorem start_alone (va : Nat) (ring : Bool) (created : Nat) (hstart : Start s) :
    ∃ s', (start va ring created).alone s = some (ring && created != 0, s') ∧ Ready (workers ring created) s' := by
  obtain ⟨s₁, halone, haccepted, halive, hstopping, hfree⟩ := rebuild_alone workNodes (reset va s)
  have hnone : ∀ u, s₁.alive u = false := fun u => (congrFun halive u).trans (hstart.alive u)
  have hempty : ∀ u, s₁.accepted u = [] := fun u => congrFun haccepted u
  simp only [start, Prog.alone_bind, Prog.alone_write, Option.bind_some, halone]
  cases ring with
  | false => exact ⟨_, rfl, hempty, fun u => by simp [hnone u, workers], fun h => absurd rfl h⟩
  | true =>
    obtain ⟨s₂, halone₂, haccepted₂, hstopping₂, hfree₂, halive₂⟩ :=
      startWorkers_alone created (Nat.le_refl maxUnits) { s₁ with built := true }
    have hready : Ready (workers true created) s₂ := by
      refine ⟨fun u => (congrFun haccepted₂ u).trans (hempty u), fun u => ?_, fun _ => ⟨?_, ?_⟩⟩
      · simp [halive₂, hnone u, workers]
      · rw [hstopping₂, hstopping]
        rfl
      · rw [hfree₂]
        exact hfree (.inl (by decide))
    simp only [if_true, Prog.alone_bind, Prog.alone_write, Option.bind_some, halone₂]
    split
    case isTrue hzero =>
      subst hzero
      exact ⟨_, rfl, hready.accepted, hready.alive, fun h => absurd rfl h⟩
    case isFalse hpos => exact ⟨s₂, by simp [hpos], hready⟩

def settled (o : Outcome) : Mode :=
  if o.async && o.ioVa != 0 then ⟨if o.ring then 1 else 0, o.ring && o.created != 0, o.ioVa⟩ else ⟨0, o.async, o.ioVa⟩

def manned (o : Outcome) : Nat := if o.async && o.ioVa != 0 then workers o.ring o.created else 0

theorem boot_alone (o : Outcome) {s₀ : Async} (hstart : Start s₀) : ∃ s, (boot o).alone s₀ = some (settled o, s) ∧
    s.phase = .running ∧ Ready (manned o) s := by
  unfold boot settled manned
  cases o.async && o.ioVa != 0 with
  | false =>
    exact ⟨_, rfl, rfl, hstart.accepted, fun u => by simp [hstart.alive u], fun h => absurd rfl h⟩
  | true =>
    obtain ⟨s₁, halone, hready⟩ := start_alone o.ioVa o.ring o.created hstart
    simp only [if_true, Prog.alone_bind, halone, Option.bind_some, Prog.pure_eq, Prog.alone_ret, Prog.alone_write]
    exact ⟨_, rfl, rfl, hready.accepted, hready.alive, hready.serving⟩

theorem Booted.spec (h : Booted o m s) : m = settled o ∧ s.phase = .running ∧ Ready (manned o) s := by
  obtain ⟨s₀, hstart, halone⟩ := h
  obtain ⟨s', halone', hspec⟩ := boot_alone o hstart
  rw [halone] at halone'
  cases halone'
  exact ⟨rfl, hspec⟩

theorem settled_queues (o : Outcome) : (settled o).queues = true ↔ manned o ≠ 0 := by
  cases o with
  | mk async ioVa ring created =>
    cases async <;> cases ring <;> by_cases hva : ioVa = 0 <;> by_cases hc : created = 0 <;>
      simp [settled, manned, workers, Mode.queues, maxUnits, hva, hc]

/-- Accepted requests have a worker, and where requests are queued every unit has one that nobody stops. -/
structure Covered (m : Mode) (s : Async) : Prop where
  served : ∀ u, s.accepted u ≠ [] → s.alive u = true
  all : m.queues = true → s.stopping = false ∧ ∀ u < maxUnits, s.alive u = true
  nobody : m.queues = false → ∀ u, s.alive u = false

theorem Covered.congr {s' : Async} (h : Covered m s) (haccepted : s'.accepted = s.accepted)
    (hstopping : s'.stopping = s.stopping) (halive : s'.alive = s.alive) : Covered m s' := by
  obtain ⟨hserved, hall, hnobody⟩ := h
  constructor
  · rwa [haccepted, halive]
  · rwa [hstopping, halive]
  · rwa [halive]

theorem Covered.append (h : Covered m s) (hq : m.queues = true) {n node : Nat} {r : Request}
    (hu : r.unit.toNat < maxUnits) : Covered m (s.append n r node) := by
  refine ⟨fun u hne => ?_, h.all, h.nobody⟩
  by_cases huv : u = r.unit.toNat
  · subst huv
    exact (h.all hq).2 _ hu
  · refine h.served u ?_
    simpa [Async.append, huv] using hne

def covering (m : Mode) : Contract Async where
  rely := fun _ _ => True
  guar := fun _ s' => Covered m s'
  idle := fun _ => True

theorem covering_lawful (m : Mode) : (covering m).Lawful (Covered m) where
  refl := fun _ => trivial
  trans := fun _ _ => trivial
  still := fun h => h
  keeps := fun _ h => h
  idle := fun _ _ _ => trivial

def Keeps {α : Type} (m : Mode) (p : Prog Async α) : Prop :=
  ∀ s, Covered m s → p.Safe (Covered m) (covering m) (fun _ _ => True) (fun _ _ => True) s

namespace Keeps

variable {α β : Type}

theorem ret (m : Mode) (a : α) : Keeps m (Prog.ret a) := fun _ _ _ _ _ => trivial

theorem act {f : Async → Option (β × Async)} {k : β → Prog Async α}
    (h : ∀ s b t, Covered m s → f s = some (b, t) → Covered m t ∧ Keeps m (k b)) : Keeps m (Prog.act f k) := by
  intro s _ t _ hinv b t' hf _
  obtain ⟨hcovered, hk⟩ := h t b t' hinv hf
  exact ⟨hcovered, hk t' hcovered⟩

theorem bind {p : Prog Async β} {k : β → Prog Async α} (hp : Keeps m p) (hk : ∀ b, Keeps m (k b)) :
    Keeps m (p >>= k) := by
  intro s hinv
  exact .bind (covering_lawful m) hinv ((hp s hinv).mono fun b t hinv' _ => hk b t hinv')

theorem write {g : Async → Async} (h : ∀ s, Covered m s → Covered m (g s)) : Keeps m (Prog.write g) := by
  refine act fun s b t hinv hf => ?_
  cases hf
  exact ⟨h s hinv, ret m ()⟩

theorem await {b : Async → Bool} {g : Async → Async} (h : ∀ s, Covered m s → Covered m (g s)) :
    Keeps m (Prog.await b g) := by
  refine act fun s _ t hinv hf => ⟨?_, ret m _⟩
  split at hf
  · cases hf
    exact h s hinv
  · cases hf

end Keeps

theorem fifoPop_keeps (m : Mode) (u : Nat) : Keeps m (fifoPop u) := by
  refine .act fun s b t hinv hf => ⟨?_, .ret m b⟩
  split at hf <;> cases hf <;> exact hinv.congr rfl rfl rfl

theorem countError_keeps (m : Mode) (result : Nat) : Keeps m (countError result) := by
  unfold countError
  split
  · exact .ret m ()
  · exact .write fun s h => h.congr rfl rfl rfl

theorem serve_keeps (m : Mode) (u node : Nat) : Keeps m (serve u node) := by
  intro s hinv works
  refine Keeps.bind (p := transfer u node _) (.write fun s h => h.congr rfl rfl rfl) (fun _ => ?_) s hinv
  refine .bind (countError_keeps m _) fun _ => ?_
  refine .bind (p := complete u node _) (.write fun s h => h.congr rfl rfl rfl) fun _ => ?_
  exact .write fun s h => h.congr rfl rfl rfl

theorem rest_keeps (hq : m.queues = true) (u : Nat) : Keeps m (rest u) := by
  refine .act fun s b t hinv hf => ?_
  cases hf
  -- nobody has asked the worker to stop
  rw [(hinv.all hq).1]
  exact ⟨hinv, .await fun s h => h.congr rfl rfl rfl⟩

theorem turn_keeps (hq : m.queues = true) (u : Nat) : Keeps m (turn u) := by
  refine .bind (fifoPop_keeps m u) fun found => ?_
  cases found with
  | none => exact rest_keeps hq u
  | some node => exact serve_keeps m u node

theorem submit_keeps (hq : m.queues = true) (n : Nat) (r : Request) : Keeps m (submit n r) := by
  unfold submit
  split
  case isTrue => exact .ret m ()
  case isFalse hunit =>
    have hu : r.unit.toNat < maxUnits := by omega
    refine .bind ?_ fun ok => ?_
    · refine .act fun s b t hinv hf => ⟨?_, .ret m b⟩
      split at hf <;> cases hf
      · exact hinv
      · exact hinv.append hq hu
    · split
      · exact .write fun s h => h.congr rfl rfl rfl
      · exact .ret m ()

theorem blockIo_keeps (m : Mode) (n : Nat) (r : Request) : Keeps m (blockIo m n r) := by
  unfold blockIo
  split
  case isTrue hq =>
    refine .bind (.await fun s h => h.congr rfl rfl rfl) fun _ => .bind (submit_keeps hq n r) fun _ => ?_
    exact .write fun s h => h.congr rfl rfl rfl
  case isFalse => exact .ret m ()

theorem Booted.covered (h : Booted o m s) (hall : manned o = 0 ∨ manned o = maxUnits) : Covered m s := by
  obtain ⟨rfl, -, hready⟩ := h.spec
  refine ⟨fun u hne => absurd (hready.accepted u) hne, fun hq => ?_, fun hq u => ?_⟩
  · have hmanned := (settled_queues o).mp hq
    refine ⟨(hready.serving hmanned).1, fun u hu => (hready.alive u).mpr ?_⟩
    omega
  · have hmanned : manned o = 0 := by
      by_contra hne
      exact absurd ((settled_queues o).mpr hne) (by simp [hq])
    have halive := hready.alive u
    rw [hmanned] at halive
    simpa using halive

theorem serving_sound (hall : manned o = 0 ∨ manned o = maxUnits) :
    Threads.Sound (Booted o m) (Serving m) (fun _ _ _ => True) (Covered m) fun _ => covering m where
  lawful := fun _ => covering_lawful m
  fits := fun _ _ _ => trivial
  start := fun h => ⟨h.covered hall, fun _ => trivial⟩
  call {i s p} hinv _ hcall := by
    cases i with
    | monitor => exact hcall.elim
    | worker u =>
      obtain ⟨halive, rfl⟩ := hcall
      cases hq : m.queues with
      | true => exact turn_keeps hq u s hinv
      | false => exact absurd ((hinv.nobody hq u).symm.trans halive) Bool.false_ne_true
    | vcpu n =>
      obtain ⟨r, rfl⟩ := hcall
      exact blockIo_keeps m n r s hinv

def announced (o : Outcome) : Bool := o.async && o.ioVa != 0 && o.ring

theorem manned_eq (o : Outcome) : manned o = if announced o then min o.created maxUnits else 0 := by
  unfold manned workers announced
  cases o.async && o.ioVa != 0 <;> rfl

theorem settled_enabled (o : Outcome) : (settled o).enabled = 1 ↔ announced o = true := by
  unfold settled announced
  cases o.async && o.ioVa != 0 <;> cases o.ring <;> simp

theorem announced_false (o : Outcome) : announced o = false ↔ o.async = false ∨ o.ioVa = 0 ∨ o.ring = false := by
  cases hasync : o.async <;> cases hring : o.ring <;> simp [announced, hasync, hring]

def lastUnit : Request := ⟨3, 0, 0x1000, 1, false, 5⟩

theorem submit_accepts (hphase : s.phase = .running) (hfree : s.freeList ≠ none) :
    ∃ c', Config.go (fun _ _ _ => true) ⟨s, fun _ => none⟩ (Party.vcpu 0) [1, 1, 1, 1] (vcpu 0 lastUnit) = some c' ∧
      c'.shared.accepted 3 ≠ [] ∧ c'.shared.alive = s.alive := by
  obtain ⟨node, hnode⟩ := Option.ne_none_iff_exists'.mp hfree
  simp [vcpu, submit, enqueue, wakeup, lastUnit, maxUnits, Prog.await, Prog.write, Config.go, Prog.advance, Prog.next,
    hphase, hnode, Async.append]

theorem After.agrees {c : Config Async Party} (hgood : announced o = false ∨ maxUnits ≤ o.created) (h : After o m c)
    (hm : m = settled o) : Agrees m c.shared := by
  have hmanned := manned_eq o
  have hall : manned o = 0 ∨ manned o = maxUnits := by
    rcases hgood with hno | hcreated
    · exact .inl (by simpa [hno] using hmanned)
    · cases hann : announced o <;> simp [hann, hcreated] at hmanned <;> simp [hmanned]
  refine ⟨?_, ((serving_sound hall).reach h).shared.served⟩
  rw [hm, settled_enabled, settled_queues, hmanned]
  cases hann : announced o with
  | false => simp
  | true =>
    have hcreated : maxUnits ≤ o.created := hgood.resolve_left (by simp [hann])
    rw [if_pos rfl, Nat.min_eq_right hcreated]
    decide

theorem After.mode {c : Config Async Party} (h : After o m c) : m = settled o := by
  induction h with
  | start h => exact h.1.spec.1
  | next _ _ ih => exact ih

theorem not_agrees (hann : announced o = true) (hfew : o.created < maxUnits) :
    ∃ c, After o (settled o) c ∧ ¬ Agrees (settled o) c.shared := by
  obtain ⟨s, halone, hphase, hready⟩ := boot_alone o loaded_start
  have hmanned : manned o = o.created := by simp [manned_eq, hann, Nat.le_of_lt hfew]
  have hbooted : After o (settled o) ⟨s, fun _ => none⟩ := .start ⟨⟨loaded, loaded_start, halone⟩, fun _ => rfl⟩
  by_cases hzero : o.created = 0
  · refine ⟨_, hbooted, fun hagrees => ?_⟩
    have hqueues := hagrees.protocol.mp ((settled_enabled o).mpr hann)
    exact (settled_queues o).mp hqueues (hmanned.trans hzero)
  · have hqueues : (settled o).queues = true := (settled_queues o).mpr (by rwa [hmanned])
    obtain ⟨c, hgo, haccepted, halive⟩ := submit_accepts hphase (hready.serving (by rwa [hmanned])).2
    have hcall : Serving (settled o) (.vcpu 0) s (vcpu 0 lastUnit) := ⟨lastUnit, by rw [blockIo, if_pos hqueues]⟩
    refine ⟨c, Threads.Reachable.call (fun _ _ _ _ => trivial) _ hbooted rfl hcall hgo, fun hagrees => ?_⟩
    have hthree := hagrees.served 3 haccepted
    rw [halive, hready.alive, hmanned] at hthree
    exact absurd hthree (Nat.not_lt.mpr (Nat.le_of_lt_succ hfew))

/-- The guest and the host agree on the protocol, and no accepted request is stranded, exactly if block I/O is inline,
the store of `enabled` fails, or every worker starts. -/
theorem modes_agree_iff (o : Outcome) : (∀ m c, After o m c → Agrees m c.shared) ↔
    o.async = false ∨ o.ioVa = 0 ∨ o.ring = false ∨ maxUnits ≤ o.created := by
  have hcond : announced o = false ∨ maxUnits ≤ o.created ↔
      o.async = false ∨ o.ioVa = 0 ∨ o.ring = false ∨ maxUnits ≤ o.created := by
    rw [announced_false, or_assoc, or_assoc]
  rw [← hcond]
  constructor
  · intro h
    by_contra hbad
    simp only [not_or, Bool.not_eq_false, Nat.not_le] at hbad
    obtain ⟨c, hafter, hdiffer⟩ := not_agrees hbad.1 hbad.2
    exact hdiffer (h _ c hafter)
  · intro hgood m c hafter
    exact hafter.agrees hgood hafter.mode

/-- No worker starts, but the guest has been told to expect acceptances; or one worker starts, and a request for the
last unit is accepted. -/
theorem enabled_without_workers :
    (∃ m c, After ⟨true, 0x1000, true, 0⟩ m c ∧ m.enabled = 1 ∧ m.queues = false) ∧
    ∃ m c, After ⟨true, 0x1000, true, 1⟩ m c ∧ c.shared.accepted 3 ≠ [] ∧ c.shared.alive 3 = false := by
  constructor
  · obtain ⟨s, halone, -⟩ := boot_alone ⟨true, 0x1000, true, 0⟩ loaded_start
    exact ⟨_, ⟨s, fun _ => none⟩, .start ⟨⟨loaded, loaded_start, halone⟩, fun _ => rfl⟩, by decide, by decide⟩
  · obtain ⟨s, halone, hphase, hready⟩ := boot_alone ⟨true, 0x1000, true, 1⟩ loaded_start
    obtain ⟨c, hgo, haccepted, halive⟩ := submit_accepts hphase (hready.serving (by decide)).2
    have hbooted : After ⟨true, 0x1000, true, 1⟩ _ ⟨s, fun _ => none⟩ :=
      .start ⟨⟨loaded, loaded_start, halone⟩, fun _ => rfl⟩
    have hreach : After ⟨true, 0x1000, true, 1⟩ _ c :=
      Threads.Reachable.call (i := .vcpu 0) (fun _ _ _ _ => trivial) _ hbooted rfl ⟨lastUnit, rfl⟩ hgo
    refine ⟨_, _, hreach, haccepted, ?_⟩
    have hthree := hready.alive 3
    rw [← halive] at hthree
    exact Bool.eq_false_iff.mpr fun h => absurd (hthree.mp h) (by decide)

end MoCoLinux.Cobd.Async
