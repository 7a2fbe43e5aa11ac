import MoCoLinux.Arch.Lemmas.RunBoot

/-!
# The requests

Every request begins and ends with nothing in hand.
-/

namespace MoCoLinux.Arch.Lifecycle

open Threads (Prog)

variable {strict : Bool} {ok : Nat → Lifecycle → Lifecycle → Prop} {i j : Nat} {g : Stage} {l : Local} {s s' : Lifecycle}

section

variable (hok : strict = true → ∀ i s s', ok i s s' → Timely i s s')

include hok

theorem aborts_triple (hscanned : ∀ g, l.stage = some g → g.scanned = 0) (hlocked : l.locked = false)
    (hrunning : l.running = false) (hfound : l.found = false) (n : Nat) :
    Triple strict ok i l (aborts i n) fun _ => l := by
  induction n with
  | zero => exact .ret _ fun _ _ hat => hat
  | succ n ih =>
    refine .bind (abort_triple hok hrunning) fun _ => .weaken ih fun s _ hat => ?_
    refine { hat with
      stage := fun g hg => ?_
      locked := fun h => absurd (hlocked.symm.trans h) nofun
      running := fun h => absurd (hrunning.symm.trans h) nofun
      found := fun h => absurd (hfound.symm.trans h) nofun }
    have hheld := hat.stage g.close (Option.map_eq_some_iff.mpr ⟨g, hg, rfl⟩)
    exact { hheld with
      closed := fun _ => hheld.closed rfl
      scanned := fun v hv => absurd hv (by simp [hscanned g hg]) }

theorem kstop_triple : Triple strict ok i .outside (kstop i) fun _ => .outside := by
  refine .readAny fun state => ?_
  split
  · exact .ret _ fun _ _ hat => hat
  · exact abort_triple hok rfl

def Local.boots (g : Stage) (seated : Bool) : Local :=
  { Local.outside with stage := some g, seat := cond seated (some ⟨0, .boot, .active⟩) none }

theorem cleanup_triple (hquiet : g.quiet = true) (seated : Bool) :
    Triple strict ok i (.boots g seated) (cleanup i seated) fun _ => .outside := by
  refine .bind (abort_triple hok rfl) fun _ => ?_
  cases seated with
  | false => exact .bind (free_triple rfl hquiet rfl) fun _ => finish_triple rfl hquiet
  | true =>
    refine .bind (release_triple rfl nofun fun _ => ⟨_, rfl, .inl hquiet⟩) fun _ => ?_
    exact .bind (free_triple rfl hquiet rfl) fun _ => finish_triple rfl hquiet

theorem loop_triple (n : Nat) :
    Triple strict ok i (.boots .open true)
      (do
        aborts i n
        Prog.write fun s => { s with looping := false }
        abort i
        Prog.loop joinRound
        release i 0 .boot
        cleanup i false) fun _ => .outside := by
  refine .bind (aborts_triple hok (fun g hg => by cases hg; rfl) rfl rfl rfl n) fun _ => ?_
  refine .bind (endLoop_triple rfl) fun _ => .bind (abort_triple hok rfl) fun _ => ?_
  refine .bind (join_triple (g := Stage.close { Stage.open with looping := false }) rfl rfl) fun _ => ?_
  refine .bind (release_triple rfl nofun fun _ => ⟨_, rfl, .inr rfl⟩) fun _ => ?_
  exact cleanup_triple hok rfl false

theorem boot_triple : Triple strict ok i .outside (boot i) fun _ => .outside := by
  refine .bind (begin_triple hok rfl) fun begun => ?_
  cases begun with
  | false => exact .ret _ fun _ _ hat => hat
  | true =>
    refine .pick fun prepared => ?_
    split
    case isTrue => exact cleanup_triple hok rfl false
    case isFalse =>
      refine .bind (lockRegistry_triple _) fun _ => ?_
      refine .bind (claim_triple rfl nofun fun _ => ⟨_, rfl, .inl rfl⟩) fun seated => ?_
      cases seated with
      | false => exact .bind (unlockRegistry_triple rfl) fun _ => cleanup_triple hok rfl false
      | true =>
        refine .bind (unlockRegistry_triple rfl) fun _ => .bind (publish_triple rfl rfl) fun published => ?_
        cases published with
        | false => exact cleanup_triple hok rfl true
        | true => exact .pick fun n => loop_triple hok n

theorem joined_triple {v : Nat} :
    Triple strict ok i { Local.outside with seat := some ⟨v, .join, .active⟩ } (joined i v) fun _ => .outside :=
  .pick fun n => .bind (aborts_triple hok (fun g hg => by cases hg) rfl rfl rfl n) fun _ => release_triple rfl nofun nofun

theorem joinLane_triple (v : Nat) : Triple strict ok i .outside (joinLane i v) fun _ => .outside := by
  unfold joinLane
  split
  case isTrue => exact .ret _ fun _ _ hat => hat
  case isFalse =>
    refine .readAny fun _ => ?_
    refine .readAny fun _ => .pick fun _ => ?_
    split
    case isTrue => exact .ret _ fun _ _ hat => hat
    case isFalse =>
      refine .pick fun allowed => ?_
      split
      case isTrue => exact abort_triple hok rfl
      case isFalse =>
        refine .bind (lockRegistry_triple _) fun _ => ?_
        -- the gate can not be closed while the lock is held
        refine .bind (n := fun state => { Local.outside with locked := true, running := decide (state = .running) })
          (.read fun s _ hat => { hat with running := fun h => ⟨hat.locked rfl, of_decide_eq_true h⟩ }) fun state => ?_
        refine .readAny fun _ => .pick fun _ => .pick fun _ => ?_
        split
        case isTrue => exact unlockRegistry_triple rfl
        case isFalse hnot =>
          have hstate : state = .running := by
            by_contra hne
            exact hnot (.inl hne)
          refine .bind (claim_triple rfl (fun _ => decide_eq_true hstate) nofun) fun claimed => ?_
          cases claimed with
          | false => exact .bind (unlockRegistry_triple rfl) fun _ => .ret _ fun _ _ hat => hat
          | true => exact .bind (unlockRegistry_triple rfl) fun _ => joined_triple hok

theorem RunCalls.triple {p : Prog Lifecycle Unit} (h : RunCalls i p) :
    Triple strict ok i .outside p fun _ => .outside := by
  cases h with
  | boot => exact boot_triple hok
  | join v => exact joinLane_triple hok v
  | abort => exact abort_triple hok rfl
  | kstop => exact kstop_triple hok

end

theorem testLane_triple (hcountable : ∀ i s s', ok i s s' → Countable i s s') (v : Nat) :
    Triple strict ok i .outside (testLane i v) fun _ => .outside := by
  unfold testLane
  split
  case isTrue => exact .ret _ fun _ _ hat => hat
  case isFalse =>
    refine .pick fun allowed => ?_
    split
    case isTrue => exact .ret _ fun _ _ hat => hat
    case isFalse =>
      refine .bind (testEnter_triple hcountable) fun entered => ?_
      cases entered with
      | false => exact .ret _ fun _ _ hat => hat
      | true =>
        refine .bind (lockRegistry_triple _) fun _ => .readAny fun state => ?_
        split
        case isTrue => exact .bind (unlockRegistry_triple rfl) fun _ => testLeave_triple rfl
        case isFalse =>
          refine .bind (claim_triple rfl nofun nofun) fun claimed => ?_
          cases claimed with
          | false => exact .bind (unlockRegistry_triple rfl) fun _ => testLeave_triple rfl
          | true => exact .bind (unlockRegistry_triple rfl) fun _ => release_triple rfl (fun _ => rfl) nofun

theorem initial_inv (strict : Bool) : Inv strict initial where
  gate := {
    counted := rfl
    bound := by decide
    tests := iff_of_false (fun h => h rfl) (by rintro (h | h | h) <;> cases h)
    held := iff_of_false (fun h => h rfl) (by rintro (h | h | h) <;> cases h)
    booting := fun h => absurd rfl h
    begun := fun h => absurd rfl h
    looping := nofun
    cleared := nofun
    freeing := nofun
    running := nofun
    serial := fun h => absurd rfl h }
  slots := ⟨fun _ => Nat.zero_le _, fun _ => iff_of_true rfl rfl, nofun, nofun⟩
  flag := ⟨nofun, nofun, nofun, nofun⟩

theorem sound {calls : Nat → Prog Lifecycle Unit → Prop}
    (h : ∀ i p, calls i p → Triple strict ok i .outside p fun _ => .outside) :
    Threads.Sound (· = initial) (fun i _ p => calls i p) ok (Inv strict) (contract strict) where
  lawful := lawful strict
  fits hne _ hg := hg.2 _ (Ne.symm hne)
  start hs := ⟨hs ▸ initial_inv strict, fun _ => trivial⟩
  call hinv _ hp := (h _ _ hp _ hinv (.outside _ _)).mono fun _ _ _ _ => trivial

theorem Reachable.inv {c : Threads.Config Lifecycle Nat} (h : Reachable Countable c) : Inv false c.shared := by
  have hsound : Threads.Sound (· = initial) (fun i _ p => Calls i p) Countable (Inv false) (contract false) := by
    refine sound fun i p hp => ?_
    cases hp with
    | run hp => exact hp.triple nofun
    | test v => exact testLane_triple (fun _ _ _ h => h) v
  exact (hsound.reach h).shared

theorem RunReachable.inv {c : Threads.Config Lifecycle Nat} (h : RunReachable Timely c) : Inv true c.shared := by
  have hsound : Threads.Sound (· = initial) (fun i _ p => RunCalls i p) Timely (Inv true) (contract true) :=
    sound fun i p hp => hp.triple fun _ _ _ _ h => h
  exact (hsound.reach h).shared

end MoCoLinux.Arch.Lifecycle
