import MoCoLinux.Arch.Lemmas.RunTest

/-!
# The slots of the vCPUs
-/

namespace MoCoLinux.Arch.Lifecycle

open Function
open Threads (Prog)

variable {strict : Bool} {ok : Nat → Lifecycle → Lifecycle → Prop} {i j v : Nat} {role : Role} {l : Local}
  {s s' : Lifecycle}

theorem SlotInv.owners_eq (h : SlotInv s) {p : Nat × Role} (hp : p ∈ s.owners v) : s.owners v = [p] := by
  have hone := h.oneOwner v
  cases howners : s.owners v with
  | nil => simp [howners] at hp
  | cons q rest =>
    rw [howners, List.length_cons] at hone
    have hrest : rest = [] := List.length_eq_zero_iff.mp (by omega)
    rw [howners, hrest, List.mem_singleton] at hp
    rw [hrest, hp]

theorem SlotInv.other (h : SlotInv s) {r : Role} (hi : (i, role) ∈ s.owners v) (hj : (j, r) ∈ s.owners v) : j = i := by
  rw [h.owners_eq hi, List.mem_singleton] at hj
  exact congrArg Prod.fst hj

theorem seat_moves (hinv : Inv strict s) (hat : At i l s) (hv : v < maxVcpus)
    (hjoin : role = .join → l.running = true) (hfree : s.active v = .free) :
    Moves strict i { l with seat := some ⟨v, role, .claiming⟩ } s (s.seat i v role) := by
  have hnil := (hinv.slots.free v).mp hfree
  -- lanes are admitted only in a run that holds slot 0
  have hjoins : ∀ w t, (t, Role.join) ∈ (s.seat i v role).owners w →
      (t, Role.join) ∈ s.owners w ∨ s.gate.state = .running ∧ w = v := by
    intro w t hmem
    simp only [seat, update_apply] at hmem
    split at hmem
    case isTrue hw =>
      rw [hnil, List.mem_singleton, Prod.mk.injEq] at hmem
      exact .inr ⟨(hat.running (hjoin hmem.2.symm)).2, hw⟩
    case isFalse => exact .inl hmem
  have hzero : s.gate.state = .running → v ≠ 0 := by
    rintro hrun rfl
    obtain ⟨h, hmem⟩ := hinv.slots.seated hrun
    simp [hnil] at hmem
  refine ⟨⟨{ hinv.gate with }, ?_, { hinv.flag with }⟩, fun j _ => ?_, ?_⟩
  · refine ⟨fun w => ?_, fun w => ?_, fun w t hmem => ?_, fun hrun => ?_⟩
    · simp only [seat, update_apply]
      split
      · simp [hnil]
      · exact hinv.slots.oneOwner w
    · simp only [seat, update_apply]
      split
      · simp
      · exact hinv.slots.free w
    · rcases hjoins w t hmem with hold | ⟨hrun, rfl⟩
      · exact hinv.slots.joined w t hold
      · refine ⟨⟨Nat.pos_of_ne_zero (hzero hrun), hv⟩, .inl hrun, hinv.gate.running hrun, ?_⟩
        exact Bool.eq_false_iff.mpr fun hf => absurd (hrun.symm.trans (hinv.gate.freeing hf)) nofun
    · obtain ⟨h, hmem⟩ := hinv.slots.seated hrun
      refine ⟨h, ?_⟩
      simp only [seat, update_of_ne (hzero hrun).symm]
      exact hmem
  · refine { Others.refl j s with owners := fun w r hmem => ?_, holder := fun _ => { Kept.refl s with joins := ?_ } }
    · have hw : w ≠ v := by
        rintro rfl
        simp [hnil] at hmem
      simp only [seat, update_of_ne hw]
      exact ⟨hmem, trivial, trivial⟩
    · intro hstate w t hmem
      exact (hjoins w t hmem).resolve_right fun h => hstate h.1
  · refine { hat with stage := fun g hg => ?_, seat := fun t ht => ?_ }
    · have hheld := hat.stage g hg
      refine { hheld with quiet := fun hq => ?_, scanned := fun w hw hc t hmem => ?_ }
      · obtain ⟨hstate, hnone⟩ := hheld.quiet hq
        exact ⟨hstate, fun w t hmem => (hjoins w t hmem).elim (hnone w t) fun h => hstate h.1⟩
      · refine (hjoins w t hmem).elim (hheld.scanned w hw hc t) fun h => ?_
        exact absurd ((hheld.closed hc).symm.trans h.1) nofun
    · cases ht
      simp [seat]

/-- The owner of a slot moves it on to another phase. -/
theorem phase_moves (hinv : Inv strict s) (hat : At i l s) {o p : Slot}
    (hseat : l.seat = some ⟨v, role, o⟩) (hphase : p ≠ .free) {d : Bool} (hd : d = decide (role = .test)) :
    Moves strict i { l with seat := some ⟨v, role, p⟩ } s
      { s with active := update s.active v p, diagnostic := update s.diagnostic v d } := by
  obtain ⟨hmem, -, -⟩ := hat.seat _ hseat
  refine ⟨⟨{ hinv.gate with }, ?_, { hinv.flag with }⟩, fun j hj => ?_, ?_⟩
  · refine { hinv.slots with free := fun w => ?_ }
    simp only [update_apply]
    split
    case isTrue hw =>
      subst hw
      exact iff_of_false hphase (List.ne_nil_of_mem hmem)
    case isFalse => exact hinv.slots.free w
  · refine { Others.refl j s with owners := fun w r hown => ?_, holder := fun _ => { Kept.refl s with } }
    have hw : w ≠ v := by
      rintro rfl
      exact hj (hinv.slots.other hmem hown)
    exact ⟨hown, update_of_ne hw _ _, update_of_ne hw _ _⟩
  · refine { hat with stage := fun g hg => { hat.stage g hg with }, seat := fun t ht => ?_ }
    cases ht
    exact ⟨hmem, by simp, by simp [hd]⟩

def Local.Shut (l : Local) : Prop := ∃ g, l.stage = some g ∧ (g.quiet = true ∨ g.closed = true)

theorem Local.Shut.state (h : l.Shut) (hat : At i l s) : s.gate.state ≠ .running := by
  obtain ⟨g, hg, hq | hc⟩ := h
  · exact ((hat.stage g hg).quiet hq).1
  · rw [(hat.stage g hg).closed hc]
    nofun

theorem vacate_moves (hinv : Inv strict s) (hat : At i l s) {phase : Slot} (hseat : l.seat = some ⟨v, role, phase⟩)
    (hboot : role = .boot → l.Shut) (d : Bool) :
    Moves strict i { l with seat := none } s (s.vacate i v role d) := by
  obtain ⟨hmem, -, -⟩ := hat.seat _ hseat
  have howners := hinv.slots.owners_eq hmem
  have hsub : ∀ w p, p ∈ (s.vacate i v role d).owners w → p ∈ s.owners w := by
    intro w p hp
    simp only [vacate, update_apply] at hp
    split at hp
    case isTrue hw => exact hw ▸ List.mem_of_mem_erase hp
    case isFalse => exact hp
  refine ⟨⟨{ hinv.gate with }, ?_, { hinv.flag with }⟩, fun j hj => ?_, ?_⟩
  · refine ⟨fun w => ?_, fun w => ?_, fun w t hp => hinv.slots.joined w t (hsub w _ hp), fun hrun => ?_⟩
    · simp only [vacate, update_apply]
      split
      · simp [howners]
      · exact hinv.slots.oneOwner w
    · simp only [vacate, update_apply]
      split
      · simp [howners]
      · exact hinv.slots.free w
    · obtain ⟨h, hown⟩ := hinv.slots.seated hrun
      refine ⟨h, ?_⟩
      have hv : (0 : Nat) ≠ v := by
        rintro rfl
        rw [howners, List.mem_singleton, Prod.mk.injEq] at hown
        exact (hboot hown.2.symm).state hat hrun
      simp only [vacate, update_of_ne hv]
      exact hown
  · refine { Others.refl j s with
      owners := fun w r hown => ?_
      holder := fun _ => { Kept.refl s with joins := fun _ w t hp => hsub w _ hp } }
    have hw : w ≠ v := by
      rintro rfl
      exact hj (hinv.slots.other hmem hown)
    simp only [vacate, update_of_ne hw]
    exact ⟨hown, trivial, trivial⟩
  · refine { hat with stage := fun g hg => ?_, seat := nofun }
    have hheld := hat.stage g hg
    exact { hheld with
      quiet := fun hq => ⟨(hheld.quiet hq).1, fun w t hp => (hheld.quiet hq).2 w t (hsub w _ hp)⟩
      scanned := fun w hw hc t hp => hheld.scanned w hw hc t (hsub w _ hp) }

theorem claim_triple (hseat : l.seat = none) (hjoin : role = .join → l.running = true) (hboot : role = .boot → l.Shut) :
    Triple strict ok i l (claim i v role) fun b => cond b { l with seat := some ⟨v, role, .active⟩ } l := by
  unfold claim
  split
  case isTrue => exact .ret _ fun _ _ hat => hat
  case isFalse hv =>
    refine .bind (n := fun b => cond b { l with seat := some ⟨v, role, .claiming⟩ } l) (.act fun s b t hinv hat hf _ => ?_)
      fun b => ?_
    · split at hf
      case isTrue hfree =>
        cases hf
        exact seat_moves hinv hat (Nat.not_le.mp hv) hjoin hfree
      case isFalse =>
        cases hf
        exact .still hinv hat
    · cases b with
      | false => exact .ret _ fun _ _ hat => hat
      | true =>
        refine .pick fun bound => ?_
        split
        case isTrue =>
          refine .bind (n := fun _ => l) (.write fun s hinv hat _ => ?_) fun _ => .ret _ fun _ _ hat => hat
          have hmoves := vacate_moves (l := { l with seat := some ⟨v, role, .claiming⟩ }) hinv hat rfl hboot
            (decide (role = .test))
          exact ⟨hmoves.inv, hmoves.others, { hmoves.here with seat := fun t ht => by simp [hseat] at ht }⟩
        case isFalse =>
          refine .bind (n := fun _ => { l with seat := some ⟨v, role, .active⟩ })
            (.write fun s hinv hat _ => ?_) fun _ => .ret _ fun _ _ hat => hat
          exact phase_moves (l := { l with seat := some ⟨v, role, .claiming⟩ }) (p := .active) hinv hat rfl nofun rfl

theorem closeSlot_moves (hinv : Inv strict s) (hat : At i l s) (hseat : l.seat = some ⟨v, role, .active⟩) :
    Moves strict i { l with seat := some ⟨v, role, .stopping⟩ } s
      { s with active := update s.active v .stopping } := by
  have hmoves := phase_moves hinv hat hseat (p := .stopping) nofun ((hat.seat _ hseat).2.2 nofun)
  rwa [update_eq_self] at hmoves

theorem release_triple (hseat : l.seat = some ⟨v, role, .active⟩) (htest : role = .test → l.inside = true)
    (hboot : role = .boot → l.Shut) :
    Triple strict ok i l (release i v role) fun _ => { l with seat := none, inside := false } := by
  refine .bind (n := fun b => cond b { l with seat := some ⟨v, role, .stopping⟩ } l) (.act fun s b t hinv hat hf _ => ?_)
    fun b => ?_
  · split at hf
    case isTrue =>
      cases hf
      exact closeSlot_moves hinv hat hseat
    case isFalse =>
      cases hf
      exact .still hinv hat
  · cases b with
    | false => exact .ret _ fun _ _ hat => { hat with seat := nofun, inside := nofun }
    | true =>
      refine .readThen fun s hinv hat => ⟨_, hat, ?_⟩
      -- the slot's field still says what kind of lane this is
      have hdiag : s.diagnostic v = decide (role = .test) := (hat.seat _ rfl).2.2 nofun
      rw [hdiag]
      refine .bind (n := fun _ => { l with seat := none })
        (.write fun s hinv hat _ => vacate_moves hinv hat rfl hboot false) fun _ => ?_
      split
      case isTrue h => exact testLeave_triple (htest (of_decide_eq_true h))
      case isFalse => exact .ret _ fun _ _ hat => { hat with inside := nofun }

end MoCoLinux.Arch.Lifecycle
