import MoCoLinux.Guest.Lemmas.Ipi

/-!
# Posts, drains and the idle task keep the invariant
-/

namespace MoCoLinux.Ipi

open Threads (Prog Contract)
open Threads.Prog (Safe)

variable {G : Prop} {t u : Thread} {v cpu : Vcpu} {w level : Nat} {x vector : Vec} {l l' : Local} {p : Park}
  {o : Option Nat} {s s' : State} {ok : State → State → Prop}

/-- The invariant. `G` says that the run keeps to `OnProcessor` and `Rung`. -/
structure Inv (G : Prop) (s : State) : Prop where
  seen : Seen s
  kept : Kept s
  awake : G → Awake s

/-! ## Contracts -/

structure At (t : Thread) (l : Local) (p : Park) (s : State) : Prop where
  own : s.own t = l
  park : ∀ v, t = .guest v 0 → s.park v = p

structure Rely (t : Thread) (s s' : State) : Prop where
  own : s'.own t = s.own t
  park : ∀ v, t = .guest v 0 → s'.park v = s.park v

structure Guar (G : Prop) (t : Thread) (s s' : State) : Prop where
  inv : Inv G s'
  own : ∀ u, u ≠ t → s'.own u = s.own u
  park : ∀ v, t ≠ .guest v 0 → s'.park v = s.park v
  dispatches : ∀ v level x, t = .guest v level → (s.own t).taken = some x →
    s' = s ∨ s'.history = s.history ++ [.dispatch v x]

def contract (G : Prop) (t : Thread) : Contract State := ⟨Rely t, Guar G t, At t {} {}⟩

theorem At.stable (h : At t l p s) (hr : Rely t s s') : At t l p s' :=
  ⟨hr.own.trans h.own, fun v hv => (hr.park v hv).trans (h.park v hv)⟩

theorem At.set (h : At t l p s) (hown : s'.own = (s.setOwn t l').own) (hpark : s'.park = s.park) : At t l' p s' :=
  ⟨hown ▸ State.own_setOwn, fun v hv => hpark ▸ h.park v hv⟩

theorem contract_lawful (G : Prop) (t : Thread) : (contract G t).Lawful (Inv G) where
  refl _ := ⟨rfl, fun _ _ => rfl⟩
  trans h h' := ⟨h'.own.trans h.own, fun v hv => (h'.park v hv).trans (h.park v hv)⟩
  still h := ⟨h, fun _ _ => rfl, fun _ _ => rfl, fun _ _ _ _ _ => .inl rfl⟩
  keeps _ h := h.inv
  idle h hr _ := h.stable hr

theorem fits (hne : t ≠ u) (h : Guar G t s s') : Rely u s s' :=
  ⟨h.own u (Ne.symm hne), fun v hv => h.park v fun ht => hne (ht.trans hv.symm)⟩

theorem Guar.setOwn (hinv : Inv G s') (htaken : (s.own t).taken = none) (hown : s'.own = (s.setOwn t l).own)
    (hpark : s'.park = s.park) : Guar G t s s' where
  inv := hinv
  own u hu := by rw [hown, State.own_setOwn_of_ne hu]
  park v _ := by rw [hpark]
  dispatches v level x _ hx := by
    rw [htaken] at hx
    cases hx

theorem Guar.setPark (hinv : Inv G s') (htaken : (s.own (.guest v 0)).taken = none) (hown : s'.own = s.own)
    (hpark : s'.park = (s.setPark v p).park) : Guar G (.guest v 0) s s' where
  inv := hinv
  own u _ := by rw [hown]
  park u hu := by
    have huv : u ≠ v := fun h => hu (by rw [h])
    rw [hpark, State.park_setPark_of_ne huv]
  dispatches v level x _ hx := by
    rw [htaken] at hx
    cases hx

/-! ## Posts -/

theorem ret_safe {α : Type} {a : α} {Q : α → State → Prop} (hQ : ∀ s, At t l p s → Inv G s → Q a s) (h : At t l p s) :
    (Prog.ret a).Safe (Inv G) (contract G t) ok Q s :=
  Safe.ret (Safe.stays At.stable) hQ h

theorem Inv.ended (hi : Inv G s) (h : s.own t = { posting := some (cpu, .ringing) }) (hany : s'.any = s.any)
    (hpending : s'.pending = s.pending) (hhistory : s'.history = s.history) (hown : s'.own = (s.setOwn t {}).own)
    (hawake : G → Awake s') : Inv G s' :=
  ⟨hi.seen.setOwn (Local.not_unpublished_ringing (by rw [h])) (by rw [h]) hany (fun _ _ hp => hpending ▸ hp) hown,
    hi.kept.setOwn (by rw [h]) hhistory (fun _ _ hp => hpending ▸ hp) hown, hawake⟩

theorem idleWake_safe (h : At t { posting := some (cpu, .ringing) } p s) :
    (idleWake t cpu).Safe (Inv G) (contract G t) ok (fun _ s => At t {} p s) s := by
  refine Safe.writeLast (P := At t { posting := some (cpu, .ringing) } p) (fun h hr _ => h.stable hr)
    (fun s h hi _ => ?_) h
  have hinv : Inv G ((s.signal cpu).setOwn t {}) :=
    hi.ended h.own rfl rfl rfl rfl fun hG => (hi.awake hG).ring h.own
  have hat : At t {} p ((s.signal cpu).setOwn t {}) := h.set rfl rfl
  exact ⟨Guar.setOwn hinv (by rw [h.own]) rfl rfl, fun s' hr _ => hat.stable hr⟩

theorem kickVcpu_safe (h : At t { posting := some (cpu, .ringing) } p s) :
    (kickVcpu t cpu).Safe (Inv G) (contract G t) ok (fun _ s => At t {} p s) s := by
  refine Safe.pick fun active => ?_
  split
  · exact idleWake_safe h
  · exact idleWake_safe h

theorem passagePage_safe (h : At t { posting := some (cpu, .ringing) } p s) :
    (passagePage t v >>= fun pp => if pp then kickVcpu t cpu else Prog.ret ()).Safe (Inv G) (contract G t) ok
      (fun _ s => At t {} p s) s := by
  have L := contract_lawful G t
  refine Safe.act (P := At t { posting := some (cpu, .ringing) } p) (fun h hr _ => h.stable hr)
    (fun s b s' h hi hf _ => ?_) h
  split at hf
  case isTrue =>
    cases hf
    exact ⟨L.still hi, kickVcpu_safe h⟩
  case isFalse hpp =>
    cases hf
    have hinv : Inv G (s.setOwn t {}) :=
      hi.ended h.own rfl rfl rfl rfl fun hG => absurd ((hi.awake hG).passage v) hpp
    exact ⟨Guar.setOwn hinv (by rw [h.own]) rfl rfl, ret_safe (fun _ h _ => h) (h.set rfl rfl)⟩

theorem post_safe (h : At t {} p s) :
    (post t v cpu vector).Safe (Inv G) (contract G t) ok (fun _ s => At t {} p s) s := by
  refine Safe.write (P := At t {} p) (fun h hr _ => h.stable hr) (fun s h hi _ => ?_) h
  have hinv : Inv G (s.setBit t cpu vector) := by
    refine ⟨.posted (t := t) ⟨cpu, .inl (by simp [State.setBit, State.log])⟩, ?_, fun hG => (hi.awake hG).setBit h.own⟩
    exact hi.kept.post (by rw [h.own]) rfl State.pending_set_self (fun _ _ => State.pending_set_true) rfl
  have hat : At t { posting := some (cpu, .sending) } p (s.setBit t cpu vector) := h.set rfl rfl
  refine ⟨Guar.setOwn hinv (by rw [h.own]) rfl rfl, ?_⟩
  refine Safe.write (P := At t { posting := some (cpu, .sending) } p) (fun h hr _ => h.stable hr)
    (fun s h hi _ => ?_) hat
  have hinv : Inv G (s.publish t { posting := some (cpu, .ringing) }) :=
    ⟨.published rfl, hi.kept.setOwn (by rw [h.own]) rfl (fun _ _ hp => hp) rfl, fun hG => (hi.awake hG).publish h.own⟩
  have hat : At t { posting := some (cpu, .ringing) } p (s.publish t { posting := some (cpu, .ringing) }) := h.set rfl rfl
  exact ⟨Guar.setOwn hinv (by rw [h.own]) rfl rfl, passagePage_safe hat⟩

theorem ipiSend_safe {n : Nat} {i : Int} (h : At t {} p s) :
    (ipiSend t v n i).Safe (Inv G) (contract G t) ok (fun _ s => At t {} p s) s := by
  rw [ipiSend]
  split
  · exact post_safe h
  · exact ret_safe (fun _ h _ => h) h

theorem publish_safe (hl : l.taken = none) (hends : ∀ v, ¬l.Sends v) (h : At t l p s) :
    (Prog.write (State.publish t {})).Safe (Inv G) (contract G t) ok (fun _ s => At t {} p s) s := by
  refine Safe.writeLast (Safe.stays At.stable) (fun s h hi _ => ?_) h
  have hinv : Inv G (s.publish t {}) := by
    refine ⟨.published rfl, hi.kept.setOwn (by rw [h.own, hl]) rfl (fun _ _ hp => hp) rfl, fun hG => ?_⟩
    exact (hi.awake hG).setOwn (fun v => h.own ▸ hends v) rfl rfl rfl (fun _ _ hp => hp) rfl rfl
  have hat : At t {} p (s.publish t {}) := h.set rfl rfl
  exact ⟨Guar.setOwn hinv (by rw [h.own, hl]) rfl rfl, fun s' hr _ => hat.stable hr⟩

theorem sendIpiSelf_safe (hG : G → ∀ s s', ok s s' → OnProcessor (.guest v level) s s') (hp : p.out = false)
    (h : At (.guest v level) {} p s) :
    (sendIpiSelf (.guest v level) v vector).Safe (Inv G) (contract G (.guest v level)) ok
      (fun _ s => At (.guest v level) {} p s) s := by
  refine Safe.write (P := At (.guest v level) {} p) (fun h hr _ => h.stable hr) (fun s h hi hok => ?_) h
  have hinv : Inv G (s.setBitSelf (.guest v level) v vector) := by
    refine ⟨.posted (t := .guest v level) ⟨v, .inr (by simp [State.setBitSelf, State.log])⟩, ?_, fun g => ?_⟩
    · exact hi.kept.post (by rw [h.own]) rfl State.pending_set_self (fun _ _ => State.pending_set_true) rfl
    · refine (hi.awake g).setBitSelf h.own ?_
      rcases hG g _ _ hok with hlevel | hout
      · rw [h.park v (by rw [hlevel])]
        exact hp
      · exact hout
  have hat : At (.guest v level) { posting := some (v, .self) } p (s.setBitSelf (.guest v level) v vector) :=
    h.set rfl rfl
  refine ⟨Guar.setOwn hinv (by rw [h.own]) rfl rfl, publish_safe rfl (fun v hv => ?_) hat⟩
  rcases hv with hv | hv <;> cases hv

/-! ## Scans -/

theorem scanWords_safe {P : Nat → State → Prop} {empty : Nat → State → State} {Q : Option Vec → State → Prop}
    (hst : ∀ {w s s'}, P w s → Rely t s s' → P w s')
    (hempty : ∀ w s, w < 4 → P w s → Inv G s → s.firstIn cpu w = none → Guar G t s (empty w s) ∧ P (w + 1) (empty w s))
    (hnone : ∀ s, P 4 s → Inv G s → Q none s) (hsome : ∀ w x s, P w s → Inv G s → Q (some x) s) :
    ∀ n w s, w + n = 4 → P w s → (scanWords cpu empty n w).Safe (Inv G) (contract G t) ok Q s := by
  have L := contract_lawful G t
  intro n
  induction n with
  | zero =>
    intro w s hw h
    exact Safe.ret (P := P 4) (fun h hr _ => hst h hr) hnone ((show w = 4 from hw) ▸ h)
  | succ n ih =>
    intro w s hw h
    refine Safe.act (P := P w) (fun h hr _ => hst h hr) (fun s b s' h hi hf _ => ?_) h
    cases hfirst : s.firstIn cpu w with
    | none =>
      rw [hfirst] at hf
      cases hf
      obtain ⟨hg, hP⟩ := hempty w s (by omega) h hi hfirst
      exact ⟨hg, ih (w + 1) _ (by omega) hP⟩
    | some x =>
      rw [hfirst] at hf
      cases hf
      exact ⟨L.still hi, Safe.ret (P := P w) (fun h hr _ => hst h hr) (hsome w x) h⟩

theorem rescanFrom_cons_safe (cpu : Vcpu) {rest : List Vcpu}
    (hrest : ∀ s, At t { rescan := State.position (4 * cpu.val + 4) } p s → Inv G s →
      (rescanFrom t rest).Safe (Inv G) (contract G t) ok (fun _ s => At t {} p s) s)
    (hi : Inv G s) (h : At t { rescan := State.position (4 * cpu.val) } p s) :
    (rescanFrom t (cpu :: rest)).Safe (Inv G) (contract G t) ok (fun _ s => At t {} p s) s := by
  refine Safe.bind (contract_lawful G t) hi ?_
  refine scanWords_safe (P := fun w => At t { rescan := State.position (4 * cpu.val + w) } p) (fun h hr => h.stable hr)
    (fun w s hw h hi hfirst => ?_) hrest (fun w x s h _ => ?_) 4 0 s rfl h
  · have hinv : Inv G (s.rescanned t cpu w) := by
      refine ⟨hi.seen.rescanned h.own hw hfirst, hi.kept.setOwn (by rw [h.own]) rfl (fun _ _ hp => hp) rfl, fun hG => ?_⟩
      exact (hi.awake hG).setOwn (fun v => Local.not_sends (by rw [h.own])) rfl rfl rfl (fun _ _ hp => hp) rfl rfl
    exact ⟨Guar.setOwn hinv (by rw [h.own]) rfl rfl, h.set rfl rfl⟩
  · exact publish_safe rfl (fun v => Local.not_sends rfl) h

/-! ## `co_colinux_ipi_drain` -/

theorem rescan_safe (hi : Inv G s) (h : At t { rescan := State.position 0 } p s) :
    (rescanFrom t [0, 1, 2, 3]).Safe (Inv G) (contract G t) ok (fun _ s => At t {} p s) s := by
  refine rescanFrom_cons_safe 0 (fun s h hi => ?_) hi h
  refine rescanFrom_cons_safe 1 (fun s h hi => ?_) hi h
  refine rescanFrom_cons_safe 2 (fun s h hi => ?_) hi h
  refine rescanFrom_cons_safe 3 (fun s h _ => ?_) hi h
  exact ret_safe (fun _ h _ => h) h

theorem retire_safe (h : At t {} p s) :
    (retire t).Safe (Inv G) (contract G t) ok (fun r s => r = some () ∧ At t {} p s) s := by
  refine Safe.write (P := At t {} p) (fun h hr _ => h.stable hr) (fun s h hi _ => ?_) h
  have hinv : Inv G (s.retract t) := by
    refine ⟨.retract, hi.kept.setOwn (by rw [h.own]) rfl (fun _ _ hp => hp) rfl, fun hG => ?_⟩
    exact (hi.awake hG).setOwn (fun v => Local.not_sends (by rw [h.own])) rfl rfl rfl (fun _ _ hp => hp) rfl rfl
  have hat : At t { rescan := State.position 0 } p (s.retract t) := h.set rfl rfl
  refine ⟨Guar.setOwn hinv (by rw [h.own]) rfl rfl, Safe.bind (contract_lawful G t) hinv ?_⟩
  exact (rescan_safe hinv hat).mono fun _ s _ h => ret_safe (fun _ h _ => ⟨rfl, h⟩) h

theorem deliver_safe (h : At (.guest v level) {} p s) :
    (deliver (.guest v level) v vector).Safe (Inv G) (contract G (.guest v level)) ok
      (fun r s => r = none ∧ At (.guest v level) {} p s) s := by
  refine Safe.write (P := At (.guest v level) {} p) (fun h hr _ => h.stable hr) (fun s h hi _ => ?_) h
  have hinv : Inv G (s.clearBit (.guest v level) v vector) := by
    refine ⟨?_, hi.kept.clearBit (by rw [h.own]), fun hG => ?_⟩
    · exact hi.seen.setOwn (Local.not_unpublished (by rw [h.own])) (by rw [h.own]) rfl
        (fun _ _ hp => State.pending_of_set_false hp) rfl
    · exact (hi.awake hG).setOwn (fun v => Local.not_sends (by rw [h.own])) rfl rfl rfl
        (fun _ _ hp => State.pending_of_set_false hp) rfl rfl
  have hat : At (.guest v level) { taken := some vector } p (s.clearBit (.guest v level) v vector) := h.set rfl rfl
  refine ⟨Guar.setOwn hinv (by rw [h.own]) rfl rfl, ?_⟩
  refine Safe.write (P := At (.guest v level) { taken := some vector } p) (fun h hr _ => h.stable hr)
    (fun s h hi _ => ?_) hat
  have hinv : Inv G (s.dispatch (.guest v level) v vector) := by
    refine ⟨?_, hi.kept.dispatch h.own, fun hG => ?_⟩
    · exact hi.seen.setOwn (Local.not_unpublished (by rw [h.own])) (by rw [h.own]) rfl (fun _ _ hp => hp) rfl
    · exact (hi.awake hG).setOwn (fun v => Local.not_sends (by rw [h.own])) rfl rfl rfl (fun _ _ hp => hp) rfl rfl
  have hat : At (.guest v level) {} p (s.dispatch (.guest v level) v vector) := h.set rfl rfl
  refine ⟨⟨hinv, fun u hu => State.own_setOwn_of_ne hu, fun _ _ => rfl, fun _ _ x heq hx => .inr ?_⟩,
    ret_safe (fun _ h _ => ⟨rfl, h⟩) hat⟩
  rw [h.own] at hx
  cases hx
  cases heq
  rfl

def Looking (v : Vcpu) (level w : Nat) (s : State) : Prop :=
  ∃ o, At (.guest v level) {} { woken := o } s ∧ ∀ k, o = some k → w ≤ k ∧ k < 4

theorem Looking.stable (h : Looking v level w s) (hr : Rely (.guest v level) s s') : Looking v level w s' := by
  obtain ⟨o, hat, hk⟩ := h
  exact ⟨o, hat.stable hr, hk⟩

theorem Looking.restart (h : Looking v level w s) : Looking v level 0 s := by
  obtain ⟨o, hat, hk⟩ := h
  exact ⟨o, hat, fun k h => ⟨Nat.zero_le _, (hk k h).2⟩⟩

theorem Looking.done (h : Looking v level 4 s) : At (.guest v level) {} {} s := by
  obtain ⟨o, hat, hk⟩ := h
  cases o with
  | none => exact hat
  | some k =>
    have := hk k rfl
    omega

theorem At.looking (h : At (.guest v level) {} {} s) : Looking v level 0 s := ⟨none, h, fun k hk => by cases hk⟩

theorem noted_guar (h : Looking v level w s) (hi : Inv G s) (hw : w < 4) (hempty : s.firstIn v w = none) :
    Guar G (.guest v level) s (s.noted v level w) ∧ Looking v level (w + 1) (s.noted v level w) := by
  obtain ⟨o, hat, hk⟩ := h
  by_cases hlevel : level = 0
  · subst hlevel
    have hpark : s.park v = { woken := o } := hat.park v rfl
    have hnoted : s.noted v 0 w = s.looked v w := rfl
    rw [hnoted]
    have hinv : Inv G (s.looked v w) :=
      ⟨hi.seen, hi.kept, fun hG => (hi.awake hG).looked (by rw [hpark]) (by rw [hpark]) hw hempty⟩
    refine ⟨Guar.setPark hinv (by rw [hat.own]) rfl rfl, State.nextWord w o, ⟨hat.own, fun u hu => ?_⟩, fun k hnext => ?_⟩
    · cases hu
      rw [State.looked, State.park_setPark, hpark]
    · rw [State.nextWord] at hnext
      split at hnext
      case isTrue =>
        split at hnext
        · cases hnext
          omega
        · cases hnext
      case isFalse hne =>
        have hle := hk k hnext
        have hkw : k ≠ w := fun h => hne (h ▸ hnext)
        omega
  · have hnoted : s.noted v level w = s := if_neg hlevel
    rw [hnoted]
    refine ⟨(contract_lawful G _).still hi, none, ⟨hat.own, fun u hu => ?_⟩, fun k hk => by cases hk⟩
    cases hu
    exact absurd rfl hlevel

theorem drainRound_safe (h : Looking v level 0 s) (hi : Inv G s) :
    (drainRound v level).Safe (Inv G) (contract G (.guest v level)) ok
      (fun r s => r = none ∧ Looking v level 0 s ∨ r = some () ∧ At (.guest v level) {} {} s) s := by
  refine Safe.bind (contract_lawful G _) hi ?_
  refine scanWords_safe (P := Looking v level) Looking.stable (fun w s hw h hi => noted_guar h hi hw)
    (fun s h _ => ?_) (fun w x s h _ => ?_) 4 0 s rfl h
  · exact (retire_safe h.done).mono fun _ _ _ h => .inr h
  · obtain ⟨o, hat, hk⟩ := h.restart
    exact (deliver_safe hat).mono fun _ _ _ h => .inl ⟨h.1, o, h.2, hk⟩

theorem ipiDrain_safe (h : Looking v level 0 s) (hi : Inv G s) :
    (ipiDrain v level).Safe (Inv G) (contract G (.guest v level)) ok (fun _ s => At (.guest v level) {} {} s) s := by
  intro n
  induction n generalizing s with
  | zero => exact fun _ _ _ _ _ hf => by cases hf
  | succ n ih =>
    refine Safe.bind (contract_lawful G _) hi ?_
    refine (drainRound_safe h hi).mono fun r s hi h => ?_
    rcases h with ⟨rfl, h⟩ | ⟨rfl, h⟩
    · exact ih h hi
    · exact ret_safe (fun _ h _ => h) h

/-! ## `co_cpu_idle` -/

theorem setPark_guar {f : State → State} {q : Park} (hat : At (.guest v 0) {} p s) (hi : Inv G s)
    (hawake : G → Awake (f s)) (hseen : (f s).any = s.any ∧ (f s).pending = s.pending ∧ (f s).history = s.history)
    (hown : (f s).own = s.own) (hpark : (f s).park = (s.setPark v q).park) :
    Guar G (.guest v 0) s (f s) ∧ At (.guest v 0) {} q (f s) := by
  obtain ⟨hany, hpending, hhistory⟩ := hseen
  have hinv : Inv G (f s) := by
    refine ⟨hi.seen.mono hany (fun _ _ hp => hpending ▸ hp) (fun u hu => hown ▸ hu) fun u k hk => hown ▸ hk, ?_, hawake⟩
    exact hi.kept.mono hhistory (fun _ _ hp => hpending ▸ hp) fun u x hx => hown ▸ hx
  refine ⟨Guar.setPark hinv (by rw [hat.own]) hown hpark, hown ▸ hat.own, fun u hu => ?_⟩
  cases hu
  rw [hpark, State.park_setPark]

theorem idleWait_safe (h : At (.guest v 0) {} { out := true } s) :
    (idleWait v).Safe (Inv G) (contract G (.guest v 0)) ok
      (fun _ s => At (.guest v 0) {} { out := true, woken := some 0 } s) s := by
  refine Safe.write (P := At (.guest v 0) {} { out := true }) (fun h hr _ => h.stable hr) (fun s h hi _ => ?_) h
  obtain ⟨hg, hat⟩ := setPark_guar (f := State.block v) (q := { out := true, waiting := true }) h hi
    (fun hG => (hi.awake hG).block (h.park v rfl)) ⟨rfl, rfl, rfl⟩ rfl rfl
  refine ⟨hg, Safe.writeLast (P := At (.guest v 0) {} { out := true, waiting := true }) (fun h hr _ => h.stable hr)
    (fun s h hi _ => ?_) hat⟩
  obtain ⟨hg, hat⟩ := setPark_guar (f := State.unblock v) (q := { out := true, woken := some 0 }) h hi
    (fun hG => (hi.awake hG).unblock) ⟨rfl, rfl, rfl⟩ rfl rfl
  exact ⟨hg, fun s' hr _ => hat.stable hr⟩

theorem hostIdle_safe (h : At (.guest v 0) {} { out := true } s) :
    (hostIdle v).Safe (Inv G) (contract G (.guest v 0)) ok
      (fun _ s => ∃ o, At (.guest v 0) {} { out := true, woken := o } s ∧ ∀ k, o = some k → k < 4) s := by
  refine Safe.pick fun bound => ?_
  split
  · exact (idleWait_safe h).mono fun _ s _ h => ⟨_, h, fun k hk => by cases hk; decide⟩
  · exact ret_safe (fun s h _ => ⟨none, h, fun k hk => by cases hk⟩) h

theorem cpuIdle_safe (hG : G → ∀ s s', ok s s' → Rung (.guest v 0) s s') (h : At (.guest v 0) {} {} s) :
    (cpuIdle v).Safe (Inv G) (contract G (.guest v 0)) ok (fun _ s => At (.guest v 0) {} {} s) s := by
  have L := contract_lawful G (.guest v 0)
  refine Safe.write (P := At (.guest v 0) {} {}) (fun h hr _ => h.stable hr) (fun s h hi hok => ?_) h
  have hcrossed : ((s.cross v).park v).out = true := by rw [State.cross, State.park_setPark]
  obtain ⟨hg, hat⟩ := setPark_guar (f := State.cross v) (q := { out := true }) h hi
    (fun g => (hi.awake g).cross (h.park v rfl) (hG g _ _ hok (by rw [h.park v rfl]) hcrossed)) ⟨rfl, rfl, rfl⟩ rfl rfl
  refine ⟨hg, Safe.bind L hg.inv ?_⟩
  refine (hostIdle_safe hat).mono fun _ s hi h => ?_
  obtain ⟨o, hat, hk⟩ := h
  refine Safe.write (P := At (.guest v 0) {} { out := true, woken := o }) (fun h hr _ => h.stable hr)
    (fun s h hi _ => ?_) hat
  obtain ⟨hg, hat⟩ := setPark_guar (f := State.reenter v) (q := { woken := (s.park v).woken }) h hi
    (fun hG => (hi.awake hG).reenter) ⟨rfl, rfl, rfl⟩ rfl rfl
  rw [h.park v rfl] at hat
  refine ⟨hg, Safe.bind L hg.inv ?_⟩
  refine scanWords_safe (P := Looking v 0) Looking.stable (fun w s hw h hi => noted_guar h hi hw)
    (fun s h _ => ?_) (fun w x s h hi => ipiDrain_safe h.restart hi) 4 0 _ rfl
    ⟨o, hat, fun k h => ⟨Nat.zero_le _, hk k h⟩⟩
  exact ret_safe (fun _ h _ => h) h.done

/-! ## All contexts -/

theorem doorbell_safe {n : Nat} (h : At (.host n) {} p s) :
    (doorbell cpu).Safe (Inv G) (contract G (.host n)) ok (fun _ s => At (.host n) {} p s) s := by
  refine Safe.writeLast (P := At (.host n) {} p) (fun h hr _ => h.stable hr) (fun s h hi _ => ?_) h
  have hinv : Inv G (s.signal cpu) := ⟨hi.seen, hi.kept, fun hG => (hi.awake hG).signal⟩
  have hat : At (.host n) {} p (s.signal cpu) := ⟨h.own, h.park⟩
  exact ⟨⟨hinv, fun _ _ => rfl, fun _ _ => rfl, fun _ _ _ ht => by cases ht⟩, fun s' hr _ => hat.stable hr⟩

theorem Fresh.inv (h : Fresh s) : Inv G s where
  seen := .inr fun v x hp => by
    rw [h.pending] at hp
    cases hp
  kept before v x after hist := by
    rw [h.history] at hist
    have hlen := congrArg List.length hist
    simp at hlen
  awake _ := by
    refine ⟨h.passage, fun v x hp => ?_, fun v ho => ?_, fun v hw => ?_⟩
    · rw [h.pending] at hp
      cases hp
    · rw [h.park] at ho
      cases ho
    · rw [h.park] at hw
      cases hw

variable {allowed : Thread → State → State → Prop}

theorem sound (hG : G → ∀ t s s', allowed t s s' → OnProcessor t s s' ∧ Rung t s s') :
    Threads.Sound Fresh Call allowed (Inv G) (contract G) where
  lawful := contract_lawful G
  fits hne _ h := fits hne h
  start h := ⟨h.inv, fun t => ⟨h.own t, fun v _ => h.park v⟩⟩
  call hi hidle hcall := by
    cases hcall with
    | send => exact ipiSend_safe hidle
    | sendSelf => exact sendIpiSelf_safe (fun g s s' h => (hG g _ s s' h).1) rfl hidle
    | drain => exact ipiDrain_safe (At.looking hidle) hi
    | idle => exact cpuIdle_safe (fun g s s' h => (hG g _ s s' h).2) hidle
    | doorbell => exact doorbell_safe hidle

end MoCoLinux.Ipi
