import MoCoLinux.Guest.Ipi

/-!
# Posted vectors: the invariant
-/

namespace MoCoLinux.Ipi

open Function

variable {G : Prop} {t u : Thread} {v cpu : Vcpu} {w level : Nat} {x vector : Vec} {l : Local} {s s' : State}

theorem mem_wordBits : x ∈ wordBits w ↔ x.val / 64 = w := by
  simp [wordBits]

theorem not_pending_of_firstIn (h : s.firstIn cpu w = none) (hx : x.val / 64 = w) : s.pending cpu x = false := by
  have hnone := List.find?_eq_none.mp h x (mem_wordBits.mpr hx)
  simpa using hnone

namespace State

@[simp] theorem own_setOwn : (s.setOwn t l).own t = l := update_self _ _ _

theorem own_setOwn_of_ne (h : u ≠ t) : (s.setOwn t l).own u = s.own u := update_of_ne h _ _

theorem setOwn_cases (s : State) (t : Thread) (l : Local) (u : Thread) :
    u = t ∧ (s.setOwn t l).own u = l ∨ u ≠ t ∧ (s.setOwn t l).own u = s.own u := by
  by_cases h : u = t
  · exact .inl ⟨h, h ▸ own_setOwn⟩
  · exact .inr ⟨h, own_setOwn_of_ne h⟩

@[simp] theorem park_setPark {p : Park} : (s.setPark v p).park v = p := update_self _ _ _

theorem park_setPark_of_ne {p : Park} (h : cpu ≠ v) : (s.setPark v p).park cpu = s.park cpu :=
  update_of_ne h _ _

theorem pending_setPending (b : Bool) (v : Vcpu) (x : Vec) :
    (s.setPending cpu vector b).pending v x = if v = cpu ∧ x = vector then b else s.pending v x := by
  by_cases hv : v = cpu
  · subst hv
    by_cases hx : x = vector
    · simp [setPending, hx]
    · simp [setPending, hx]
  · simp [setPending, hv]

theorem pending_set_self {b : Bool} : (s.setPending cpu vector b).pending cpu vector = b := by
  rw [pending_setPending, if_pos ⟨rfl, rfl⟩]

theorem pending_set_true (h : s.pending v x = true) : (s.setPending cpu vector true).pending v x = true := by
  rw [pending_setPending]
  split
  · rfl
  · exact h

theorem pending_of_set_false (h : (s.setPending cpu vector false).pending v x = true) : s.pending v x = true := by
  rw [pending_setPending] at h
  split at h
  · cases h
  · exact h

theorem quiet_setQuiet (b : Bool) (v : Vcpu) (x : Vec) :
    (s.setQuiet cpu vector b).quiet v x = if v = cpu ∧ x = vector then b else s.quiet v x := by
  by_cases hv : v = cpu
  · subst hv
    by_cases hx : x = vector
    · simp [setQuiet, hx]
    · simp [setQuiet, hx]
  · simp [setQuiet, hv]

theorem wake_signal : (s.signal cpu).wake v = true ↔ v = cpu ∨ s.wake v = true := by
  by_cases hv : v = cpu
  · subst hv
    simp [signal]
  · simp [signal, hv]

end State

theorem Local.not_unpublished (h : l.posting = none) : ¬l.Unpublished := by
  rintro ⟨v, hv | hv⟩
  · rw [h] at hv
    cases hv
  · rw [h] at hv
    cases hv

theorem Local.not_unpublished_ringing (h : l.posting = some (cpu, .ringing)) : ¬l.Unpublished := by
  rintro ⟨v, hv | hv⟩
  · rw [h] at hv
    cases hv
  · rw [h] at hv
    cases hv

/-- While `co_colinux_ipi_any` is 0, some post has still to store 1 or some re-scan has still to reach the bit. -/
def Seen (s : State) : Prop :=
  s.any = true ∨ ∀ v x, s.pending v x = true →
    (∃ t, (s.own t).Unpublished) ∨ ∃ t k, (s.own t).rescan = some k ∧ k ≤ 4 * v.val + x.val / 64

theorem Seen.mono (h : Seen s) (hany : s'.any = s.any) (hpending : ∀ v x, s'.pending v x = true → s.pending v x = true)
    (hposts : ∀ t, (s.own t).Unpublished → (s'.own t).Unpublished)
    (hscans : ∀ t k, (s.own t).rescan = some k → (s'.own t).rescan = some k) : Seen s' := by
  refine h.imp (fun h => hany.trans h) fun h v x hp => ?_
  refine (h v x (hpending v x hp)).imp (fun ⟨t, ht⟩ => ⟨t, hposts t ht⟩) ?_
  rintro ⟨t, k, hk, hle⟩
  exact ⟨t, k, hscans t k hk, hle⟩

theorem Seen.setOwn (h : Seen s) (hposts : ¬(s.own t).Unpublished) (hscans : (s.own t).rescan = none)
    (hany : s'.any = s.any) (hpending : ∀ v x, s'.pending v x = true → s.pending v x = true)
    (hs' : s'.own = (s.setOwn t l).own) : Seen s' := by
  refine h.mono hany hpending (fun u hu => ?_) fun u k hk => ?_
  · rcases s.setOwn_cases t l u with ⟨rfl, -⟩ | ⟨-, heq⟩
    · exact absurd hu hposts
    · rw [hs', heq]
      exact hu
  · rcases s.setOwn_cases t l u with ⟨rfl, -⟩ | ⟨-, heq⟩
    · rw [hscans] at hk
      cases hk
    · rw [hs', heq]
      exact hk

theorem Seen.posted (hown : (s.own t).Unpublished) : Seen s := .inr fun _ _ _ => .inl ⟨t, hown⟩

theorem Seen.published (h : s.any = true) : Seen s := .inl h

theorem Seen.retract : Seen (s.retract t) :=
  .inr fun _ _ _ => .inr ⟨t, 0, by simp [State.retract, State.position], Nat.zero_le _⟩

theorem Seen.rescanned (h : Seen s) (hown : s.own t = { rescan := State.position (4 * cpu.val + w) }) (hw : w < 4)
    (hempty : s.firstIn cpu w = none) : Seen (s.rescanned t cpu w) := by
  refine h.imp id fun h v x hp => ?_
  change s.pending v x = true at hp
  rcases h v x hp with ⟨u, hu⟩ | ⟨u, k, hk, hle⟩
  · rcases s.setOwn_cases t { rescan := State.position (4 * cpu.val + w + 1) } u with ⟨rfl, -⟩ | ⟨-, heq⟩
    · exact absurd hu (Local.not_unpublished (by rw [hown]))
    · exact .inl ⟨u, by rw [State.rescanned, heq]; exact hu⟩
  · rcases s.setOwn_cases t { rescan := State.position (4 * cpu.val + w + 1) } u with ⟨rfl, heq⟩ | ⟨-, heq⟩
    · -- The bit is not in the word that was empty, so the re-scan still has it before it.
      have hne : v.val = cpu.val → x.val / 64 ≠ w := by
        intro hv hx
        rw [Fin.ext hv, not_pending_of_firstIn hempty hx] at hp
        cases hp
      have hk' : k = 4 * cpu.val + w := by
        rw [hown] at hk
        simp only [State.position] at hk
        split at hk
        · exact (Option.some.inj hk).symm
        · cases hk
      have hlt : 4 * cpu.val + w + 1 ≤ 4 * v.val + x.val / 64 := by omega
      refine .inr ⟨u, 4 * cpu.val + w + 1, ?_, hlt⟩
      rw [State.rescanned, heq]
      simp only [State.position]
      rw [if_pos (by omega)]
    · exact .inr ⟨u, k, by rw [State.rescanned, heq]; exact hk, hle⟩

/-- A post has its bit still set, or a dispatch after it, or a context that is about to dispatch it. -/
def Kept (s : State) : Prop :=
  ∀ before v x after, s.history = before ++ .post v x :: after →
    s.pending v x = true ∨ .dispatch v x ∈ after ∨ ∃ level, (s.own (.guest v level)).taken = some x

theorem Kept.mono (h : Kept s) (hhistory : s'.history = s.history)
    (hpending : ∀ v x, s.pending v x = true → s'.pending v x = true)
    (htaken : ∀ t x, (s.own t).taken = some x → (s'.own t).taken = some x) : Kept s' := by
  intro before v x after hist
  refine (h before v x after (hhistory ▸ hist)).imp (hpending v x) (Or.imp id ?_)
  rintro ⟨level, hl⟩
  exact ⟨level, htaken _ x hl⟩

theorem Kept.setOwn (h : Kept s) (hown : (s.own t).taken = none) (hhistory : s'.history = s.history)
    (hpending : ∀ v x, s.pending v x = true → s'.pending v x = true) (hs' : s'.own = (s.setOwn t l).own) : Kept s' := by
  refine h.mono hhistory hpending fun u x hx => ?_
  rcases s.setOwn_cases t l u with ⟨rfl, -⟩ | ⟨-, heq⟩
  · rw [hown] at hx
    cases hx
  · rw [hs', heq]
    exact hx

theorem append_singleton_eq {e f : Event} {history before after : List Event}
    (h : history ++ [e] = before ++ f :: after) :
    (after = [] ∧ f = e) ∨ ∃ rest, after = rest ++ [e] ∧ history = before ++ f :: rest := by
  rcases List.eq_nil_or_concat after with rfl | ⟨rest, last, rfl⟩
  · have hlast := congrArg List.getLast? h
    simp only [List.getLast?_append, List.getLast?_singleton, Option.some_or] at hlast
    exact .inl ⟨rfl, (Option.some.inj hlast).symm⟩
  · rw [List.concat_eq_append] at h ⊢
    rw [← List.cons_append, ← List.append_assoc] at h
    obtain ⟨hinit, hlast⟩ := List.append_inj' h rfl
    obtain rfl := List.singleton_inj.mp hlast
    exact .inr ⟨rest, rfl, hinit⟩

theorem Kept.post (h : Kept s) (hown : (s.own t).taken = none) (hhistory : s'.history = s.history ++ [.post cpu vector])
    (hset : s'.pending cpu vector = true) (hpending : ∀ v x, s.pending v x = true → s'.pending v x = true)
    (hs' : s'.own = (s.setOwn t l).own) : Kept s' := by
  intro before v x after hist
  rw [hhistory] at hist
  rcases append_singleton_eq hist with ⟨rfl, hlast⟩ | ⟨rest, rfl, hrest⟩
  · cases hlast
    exact .inl hset
  · refine (h before v x rest hrest).imp (hpending v x) (Or.imp (List.mem_append_left _) ?_)
    rintro ⟨level, hl⟩
    rcases s.setOwn_cases t l (.guest v level) with ⟨rfl, -⟩ | ⟨-, heq⟩
    · rw [hown] at hl
      cases hl
    · exact ⟨level, by rw [hs', heq]; exact hl⟩

theorem Kept.clearBit (h : Kept s) (hown : (s.own (.guest cpu level)).taken = none) :
    Kept (s.clearBit (.guest cpu level) cpu vector) := by
  intro before v x after hist
  rcases h before v x after hist with hp | hd | ⟨m, hm⟩
  · by_cases hvx : v = cpu ∧ x = vector
    · obtain ⟨rfl, rfl⟩ := hvx
      exact .inr (.inr ⟨level, by simp [State.clearBit]⟩)
    · left
      change (s.setPending cpu vector false).pending v x = true
      rw [State.pending_setPending, if_neg hvx]
      exact hp
  · exact .inr (.inl hd)
  · right
    right
    rcases (s.setPending cpu vector false).setOwn_cases (.guest cpu level) { taken := some vector } (.guest v m) with
      ⟨heq, -⟩ | ⟨-, heq⟩
    · rw [heq, hown] at hm
      cases hm
    · exact ⟨m, by rw [State.clearBit, heq]; exact hm⟩

theorem Kept.dispatch (h : Kept s) (hown : s.own (.guest cpu level) = { taken := some vector }) :
    Kept (s.dispatch (.guest cpu level) cpu vector) := by
  intro before v x after hist
  rcases append_singleton_eq hist with ⟨rfl, hlast⟩ | ⟨rest, rfl, hrest⟩
  · cases hlast
  · rcases h before v x rest hrest with hp | hd | ⟨m, hm⟩
    · exact .inl hp
    · exact .inr (.inl (List.mem_append_left _ hd))
    · right
      rcases s.setOwn_cases (.guest cpu level) {} (.guest v m) with ⟨heq, -⟩ | ⟨-, heq⟩
      · -- This context had taken the vector, so the dispatch is the one the post waited for.
        rw [heq, hown] at hm
        cases hm
        cases heq
        exact .inl (List.mem_append_right _ (List.mem_singleton_self _))
      · exact .inr ⟨m, heq ▸ hm⟩

def Local.Sends (v : Vcpu) (l : Local) : Prop := l.posting = some (v, .sending) ∨ l.posting = some (v, .ringing)

theorem Local.not_sends (h : l.posting = none) : ¬l.Sends v := by
  rintro (hv | hv)
  · rw [h] at hv
    cases hv
  · rw [h] at hv
    cases hv

/-- A bit posted with a doorbell has the event set, or its post has still to ring, or the idle task has still to look
at its word. The others have the event set while the idle task is out. -/
structure Awake (s : State) : Prop where
  passage : ∀ v, s.passage v = true
  rung : ∀ v x, s.pending v x = true → s.quiet v x = false → s.wake v = true ∨ (∃ t, (s.own t).Sends v) ∨
    ∃ k, (s.park v).woken = some k ∧ k ≤ x.val / 64
  still : ∀ v, (s.park v).out = true → (s.park v).woken = none → ∀ x, s.pending v x = true → s.quiet v x = true →
    s.wake v = true
  parked : ∀ v, (s.park v).waiting = true → (s.park v).out = true ∧ (s.park v).woken = none

namespace Awake

variable (h : Awake s)
include h

theorem mono (hpassage : s'.passage = s.passage) (hpark : s'.park = s.park) (hquiet : s'.quiet = s.quiet)
    (hpending : ∀ v x, s'.pending v x = true → s.pending v x = true) (hwake : ∀ v, s.wake v = true → s'.wake v = true)
    (hsends : ∀ v t, (s.own t).Sends v → s'.wake v = true ∨ ∃ u, (s'.own u).Sends v) : Awake s' where
  passage := hpassage ▸ h.passage
  rung v x hp hq := by
    rw [hquiet] at hq
    rcases h.rung v x (hpending v x hp) hq with hw | ⟨t, ht⟩ | hk
    · exact .inl (hwake v hw)
    · exact (hsends v t ht).imp id .inl
    · exact .inr (.inr (hpark ▸ hk))
  still v ho hk x hp hq := by
    rw [hpark] at ho hk
    rw [hquiet] at hq
    exact hwake v (h.still v ho hk x (hpending v x hp) hq)
  parked := hpark ▸ h.parked

theorem setOwn (hown : ∀ v, ¬(s.own t).Sends v) (hpassage : s'.passage = s.passage)
    (hpark : s'.park = s.park) (hquiet : s'.quiet = s.quiet)
    (hpending : ∀ v x, s'.pending v x = true → s.pending v x = true) (hwake : s'.wake = s.wake)
    (hs' : s'.own = (s.setOwn t l).own) : Awake s' := by
  refine h.mono hpassage hpark hquiet hpending (fun _ hw => hwake ▸ hw) fun v u hu => .inr ?_
  rcases s.setOwn_cases t l u with ⟨rfl, -⟩ | ⟨-, heq⟩
  · exact absurd hu (hown v)
  · exact ⟨u, by rw [hs', heq]; exact hu⟩

theorem setBit (hown : s.own t = {}) : Awake (s.setBit t cpu vector) where
  passage := h.passage
  rung v x hp hq := by
    by_cases hvx : v = cpu ∧ x = vector
    · exact .inr (.inl ⟨t, .inl (by simp [State.setBit, State.log, hvx.1])⟩)
    · change (s.setPending cpu vector true).pending v x = true at hp
      change (s.setQuiet cpu vector false).quiet v x = false at hq
      rw [State.pending_setPending, if_neg hvx] at hp
      rw [State.quiet_setQuiet, if_neg hvx] at hq
      refine (h.rung v x hp hq).imp id (Or.imp ?_ id)
      rintro ⟨u, hu⟩
      rcases s.setOwn_cases t { posting := some (cpu, .sending) } u with ⟨rfl, -⟩ | ⟨-, heq⟩
      · exact absurd hu (Local.not_sends (by rw [hown]))
      · exact ⟨u, heq ▸ hu⟩
  still v ho hk x hp hq := by
    change (s.setPending cpu vector true).pending v x = true at hp
    change (s.setQuiet cpu vector false).quiet v x = true at hq
    rw [State.quiet_setQuiet] at hq
    rw [State.pending_setPending] at hp
    by_cases hvx : v = cpu ∧ x = vector
    · rw [if_pos hvx] at hq
      cases hq
    · rw [if_neg hvx] at hp hq
      exact h.still v ho hk x hp hq
  parked := h.parked

theorem setBitSelf (hown : s.own t = {}) (hin : (s.park cpu).out = false) :
    Awake (s.setBitSelf t cpu vector) where
  passage := h.passage
  rung v x hp hq := by
    change (s.setPending cpu vector true).pending v x = true at hp
    change (s.setQuiet cpu vector (s.quiet cpu vector || !s.pending cpu vector)).quiet v x = false at hq
    rw [State.pending_setPending] at hp
    rw [State.quiet_setQuiet] at hq
    -- A bit that is not quiet after this was pending before, and not quiet.
    have hold : s.pending v x = true ∧ s.quiet v x = false := by
      by_cases hvx : v = cpu ∧ x = vector
      · obtain ⟨rfl, rfl⟩ := hvx
        simp only [and_self, if_true, Bool.or_eq_false_iff, Bool.not_eq_false'] at hq
        exact ⟨hq.2, hq.1⟩
      · rw [if_neg hvx] at hp hq
        exact ⟨hp, hq⟩
    refine (h.rung v x hold.1 hold.2).imp id (Or.imp ?_ id)
    rintro ⟨u, hu⟩
    rcases s.setOwn_cases t { posting := some (cpu, .self) } u with ⟨rfl, -⟩ | ⟨-, heq⟩
    · exact absurd hu (Local.not_sends (by rw [hown]))
    · exact ⟨u, heq ▸ hu⟩
  still v ho hk x hp hq := by
    change (s.setPending cpu vector true).pending v x = true at hp
    change (s.setQuiet cpu vector (s.quiet cpu vector || !s.pending cpu vector)).quiet v x = true at hq
    rw [State.pending_setPending] at hp
    rw [State.quiet_setQuiet] at hq
    by_cases hvx : v = cpu ∧ x = vector
    · obtain ⟨rfl, rfl⟩ := hvx
      change (s.park v).out = true at ho
      rw [hin] at ho
      cases ho
    · rw [if_neg hvx] at hp hq
      exact h.still v ho hk x hp hq
  parked := h.parked

theorem publish (hown : s.own t = { posting := some (cpu, .sending) }) :
    Awake (s.publish t { posting := some (cpu, .ringing) }) := by
  refine h.mono rfl rfl rfl (fun _ _ hp => hp) (fun _ hw => hw) fun v u hu => .inr ?_
  rcases s.setOwn_cases t { posting := some (cpu, .ringing) } u with ⟨rfl, heq⟩ | ⟨-, heq⟩
  · rw [hown] at hu
    rcases hu with hu | hu
    · cases hu
      exact ⟨u, .inr (by rw [State.publish]; exact congrArg Local.posting heq)⟩
    · cases hu
  · exact ⟨u, heq ▸ hu⟩

theorem ring (hown : s.own t = { posting := some (cpu, .ringing) }) :
    Awake ((s.signal cpu).setOwn t {}) := by
  refine h.mono rfl rfl rfl (fun _ _ hp => hp) (fun _ hw => State.wake_signal.mpr (.inr hw)) fun v u hu => ?_
  rcases s.setOwn_cases t {} u with ⟨rfl, -⟩ | ⟨-, heq⟩
  · rw [hown] at hu
    rcases hu with hu | hu <;> cases hu
    exact .inl (State.wake_signal.mpr (.inl rfl))
  · exact .inr ⟨u, heq ▸ hu⟩

theorem signal : Awake (s.signal cpu) :=
  h.mono rfl rfl rfl (fun _ _ hp => hp) (fun _ hw => State.wake_signal.mpr (.inr hw)) fun _ u hu => .inr ⟨u, hu⟩

/-! ### The idle task -/

theorem setPark {p : Park} (hrung : ∀ x, s.pending v x = true → s.quiet v x = false →
      s.wake v = true ∨ (∃ t, (s.own t).Sends v) ∨ ∃ k, p.woken = some k ∧ k ≤ x.val / 64)
    (hstill : p.out = true → p.woken = none → ∀ x, s.pending v x = true → s.quiet v x = true → s.wake v = true)
    (hparked : p.waiting = true → p.out = true ∧ p.woken = none) : Awake (s.setPark v p) where
  passage := h.passage
  rung u x hp hq := by
    by_cases huv : u = v
    · subst huv
      rw [State.park_setPark]
      exact hrung x hp hq
    · rw [State.park_setPark_of_ne huv]
      exact h.rung u x hp hq
  still u ho hk x hp hq := by
    by_cases huv : u = v
    · subst huv
      rw [State.park_setPark] at ho hk
      exact hstill ho hk x hp hq
    · rw [State.park_setPark_of_ne huv] at ho hk
      exact h.still u ho hk x hp hq
  parked u hw := by
    by_cases huv : u = v
    · subst huv
      rw [State.park_setPark] at hw ⊢
      exact hparked hw
    · rw [State.park_setPark_of_ne huv] at hw ⊢
      exact h.parked u hw

theorem cross (hpark : s.park v = {})
    (hrung : ∀ x, s.pending v x = true → s.quiet v x = true → s.wake v = true) : Awake (s.cross v) := by
  refine h.setPark (fun x hp hq => ?_) (fun _ _ => hrung) fun hw => by cases hw
  rcases h.rung v x hp hq with hw | ht | ⟨k, hk, -⟩
  · exact .inl hw
  · exact .inr (.inl ht)
  · rw [hpark] at hk
    cases hk

theorem block (hpark : s.park v = { out := true }) : Awake (s.block v) := by
  refine h.setPark (fun x hp hq => ?_) (fun _ _ => ?_) fun _ => ⟨rfl, rfl⟩
  · have hr := h.rung v x hp hq
    rw [hpark] at hr
    exact hr
  · exact h.still v (by rw [hpark]) (by rw [hpark])

theorem unblock : Awake (s.unblock v) where
  passage := h.passage
  rung u x hp hq := by
    by_cases huv : u = v
    · subst huv
      exact .inr (.inr ⟨0, by simp [State.unblock], Nat.zero_le _⟩)
    · have hw : (s.unblock v).wake u = s.wake u := update_of_ne huv _ _
      have hk : (s.unblock v).park u = s.park u := State.park_setPark_of_ne huv
      rw [hw, hk]
      exact h.rung u x hp hq
  still u ho hk x hp hq := by
    by_cases huv : u = v
    · subst huv
      simp [State.unblock] at hk
    · have hw : (s.unblock v).wake u = s.wake u := update_of_ne huv _ _
      have hpk : (s.unblock v).park u = s.park u := State.park_setPark_of_ne huv
      rw [hpk] at ho hk
      rw [hw]
      exact h.still u ho hk x hp hq
  parked u hwait := by
    by_cases huv : u = v
    · subst huv
      simp [State.unblock] at hwait
    · have hpk : (s.unblock v).park u = s.park u := State.park_setPark_of_ne huv
      rw [hpk] at hwait ⊢
      exact h.parked u hwait

theorem reenter : Awake (s.reenter v) :=
  h.setPark (fun x hp hq => h.rung v x hp hq) (fun ho => by cases ho) fun hw => by cases hw

theorem looked (hout : (s.park v).out = false) (hwait : (s.park v).waiting = false) (hw : w < 4)
    (hempty : s.firstIn v w = none) : Awake (s.looked v w) := by
  refine h.setPark (fun x hp hq => ?_) (fun ho => ?_) fun hwaits => ?_
  · refine (h.rung v x hp hq).imp id (Or.imp id ?_)
    rintro ⟨k, hk, hle⟩
    have hne : x.val / 64 ≠ w := by
      intro hx
      rw [not_pending_of_firstIn hempty hx] at hp
      cases hp
    simp only [State.nextWord, hk, Option.some.injEq]
    by_cases hkw : k = w
    · rw [if_pos hkw, if_pos (by omega)]
      exact ⟨w + 1, rfl, by omega⟩
    · rw [if_neg hkw]
      exact ⟨k, rfl, hle⟩
  · rw [hout] at ho
    cases ho
  · rw [hwait] at hwaits
    cases hwaits

end Awake

end MoCoLinux.Ipi
