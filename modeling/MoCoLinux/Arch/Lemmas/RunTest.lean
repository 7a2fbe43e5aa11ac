import MoCoLinux.Arch.Lemmas.RunAbort

/-!
# The lanes of TEST_SMP at the gate
-/

namespace MoCoLinux.Arch.Lifecycle

open Threads (Prog)

variable {strict : Bool} {ok : Nat → Lifecycle → Lifecycle → Prop} {i j : Nat} {l : Local} {s s' : Lifecycle}

section NoRun

variable {w : Word} {refs : List Nat}

theorem GateInv.not_isRun (h : GateInv s) (hholder : s.holder = none) : ¬ s.gate.state.IsRun :=
  fun hrun => h.held.mpr hrun hholder

theorem GateInv.not_booting (h : GateInv s) (hholder : s.holder = none) : s.booting = [] := by
  by_contra hne
  obtain ⟨h, -, heq⟩ := h.booting hne
  exact absurd (hholder.symm.trans heq) nofun

theorem Inv.withTests (hinv : Inv strict s) (hholder : s.holder = none) (flag : Bool) (hcount : w.refs = refs.length)
    (hbound : refs.length < 2 ^ 28) (htests : refs ≠ [] ↔ w.state.IsTest) (hrun : ¬ w.state.IsRun) :
    Inv strict { s with gate := w, abortAll := flag, testing := refs } := by
  have hnot := hinv.gate.not_isRun hholder
  have hbooting := hinv.gate.not_booting hholder
  refine ⟨?_, ?_, hinv.flag_noRun hholder (fun h => hrun (.inr (.inr h))) flag refs⟩
  · exact { hinv.gate with
      counted := hcount
      bound := hbound
      tests := htests
      held := iff_of_false (not_not.mpr hholder) hrun
      freeing := fun h => absurd (.inr (.inr (hinv.gate.freeing h))) hnot
      running := fun h => absurd (.inr (.inl h)) hrun }
  · exact { hinv.slots with
      joined := fun v t hmem => absurd hbooting (hinv.slots.joined v t hmem).2.2.1
      seated := fun h => absurd (.inr (.inl h)) hrun }

theorem Others.withTests (hinv : Inv strict s) (hholder : s.holder = none) (flag : Bool)
    (hj : j ∈ s.testing → j ∈ refs) : Others j s { s with gate := w, abortAll := flag, testing := refs } :=
  { Others.refl j s with
    testing := hj
    holder := fun h => absurd (hholder.symm.trans h) nofun
    lock := fun h => ⟨h, fun hr => absurd (.inr (.inl hr)) (hinv.gate.not_isRun hholder)⟩ }

theorem At.withTests (hat : At i l s) (hinv : Inv strict s) (hholder : s.holder = none) (flag : Bool) {inside : Bool}
    (hi : inside = true → i ∈ refs) :
    At i { l with inside := inside } { s with gate := w, abortAll := flag, testing := refs } :=
  { hat with
    stage := fun g hg => absurd (hholder.symm.trans (hat.stage g hg).holder) nofun
    inside := hi
    running := fun h => absurd (.inr (.inl (hat.running h).2)) (hinv.gate.not_isRun hholder) }

end NoRun

theorem At.no_run (hat : At i l s) (hinv : Inv strict s) (hinside : l.inside = true) : s.holder = none :=
  hinv.gate.no_run (hinv.gate.tests.mp (List.ne_nil_of_mem (hat.inside hinside)))

theorem setAbort_inside (hinside : l.inside = true) (flag : Bool) :
    Triple strict ok i l (setAbort flag) fun _ => l := by
  refine .write fun s hinv hat _ => ?_
  have hholder := hat.no_run hinv hinside
  refine ⟨?_, fun j _ => .withTests hinv hholder flag id, hat.withTests hinv hholder flag hat.inside⟩
  exact hinv.withTests hholder flag hinv.gate.counted hinv.gate.bound hinv.gate.tests (hinv.gate.not_isRun hholder)

theorem leave_moves (hinv : Inv strict s) (hat : At i l s) (hinside : l.inside = true) :
    Moves strict i { l with inside := false } s
      { s with
        gate := if s.gate.refs = 1 then .idle else s.gate.add (-1)
        testing := s.testing.erase i } := by
  have hholder := hat.no_run hinv hinside
  have hmem := hat.inside hinside
  have hcounted := hinv.gate.counted
  have hbound := hinv.gate.bound
  have hlen := List.length_erase_of_mem hmem
  have hpos := List.length_pos_of_mem hmem
  refine ⟨hinv.withTests hholder s.abortAll ?_ (by omega) ?_ ?_,
    fun j hj => .withTests hinv hholder s.abortAll fun h => (List.mem_erase_of_ne hj).mpr h,
    hat.withTests hinv hholder s.abortAll nofun⟩
  · split
    case isTrue hone => simp only [Word.idle]; omega
    case isFalse hmore =>
      simp only [Word.add]
      rw [Int.bmod_eq_of_le (by omega) (by omega)]
      omega
  · split
    case isTrue hone =>
      refine iff_of_false (fun hne => ?_) (by rintro (h | h | h) <;> cases h)
      have := List.length_pos_iff.mpr hne
      omega
    case isFalse hmore =>
      refine iff_of_true (fun hnil => ?_) (hinv.gate.tests.mp (List.ne_nil_of_mem hmem))
      have := congrArg List.length hnil
      simp only [List.length_nil] at this
      omega
  · split
    case isTrue => rintro (h | h | h) <;> cases h
    case isFalse => exact hinv.gate.not_isRun hholder

theorem testLeave_triple (hinside : l.inside = true) :
    Triple strict ok i l (testLeave i) fun _ => { l with inside := false } := by
  refine .loop (.readAny fun old => ?_)
  split
  · exact .ret _ fun _ _ hat => { hat with inside := nofun }
  · refine .bind (n := fun ok => cond ok { l with inside := false } l)
      (.cas (fun _ _ hat _ => hat) fun s hinv hat hgate _ => ?_) fun ok => .ret _ fun _ _ hat => by cases ok <;> exact hat
    subst hgate
    exact leave_moves hinv hat hinside

theorem enter_moves (hinv : Inv strict s) (hat : At i l s) {w : Word} (hholder : s.holder = none)
    (hcount : w.refs = s.testing.length + 1) (hbound : s.testing.length + 1 < 2 ^ 28) (htest : w.state.IsTest) :
    Moves strict i { l with inside := true } s (enter i { s with gate := w }) := by
  refine ⟨hinv.withTests hholder s.abortAll ?_ hbound (iff_of_true nofun htest) fun h => h.not_isTest htest,
    fun j _ => .withTests hinv hholder s.abortAll (List.mem_cons_of_mem i),
    hat.withTests hinv hholder s.abortAll fun _ => List.mem_cons_self ..⟩
  rw [hcount, List.length_cons]
  rfl

theorem testOpen_triple (hinside : l.inside = true) (old : Word) :
    Triple strict ok i l (testOpen old) fun _ => l := by
  unfold testOpen
  split
  · refine .cas (fun _ _ hat _ => hat) fun s hinv hat hgate _ => ?_
    have hholder := hat.no_run hinv hinside
    refine ⟨?_, fun j _ => .withTests hinv hholder s.abortAll id, hat.withTests hinv hholder s.abortAll hat.inside⟩
    have hone : (1 : Int) = s.testing.length := by rw [← hinv.gate.counted, hgate]
    refine hinv.withTests hholder s.abortAll hone hinv.gate.bound ?_ (by rintro (h | h | h) <;> cases h)
    exact iff_of_true (List.ne_nil_of_mem (hat.inside hinside)) (.inr (.inl rfl))
  · exact .ret _ fun _ _ hat => hat

theorem testStart_triple (hinside : l.inside = true) :
    Triple strict ok i l (testStart i) fun b => { l with inside := b } := by
  refine .bind (setAbort_inside hinside false) fun _ => .readAny fun old => ?_
  refine .bind (testOpen_triple hinside old) fun ok => ?_
  cases ok with
  | true => exact .ret _ fun _ _ hat => { hat with inside := fun _ => hat.inside hinside }
  | false =>
    refine .bind (setAbort_inside hinside true) fun _ => .bind (testLeave_triple hinside) fun _ => ?_
    exact .ret _ fun _ _ hat => hat

theorem testEnter_triple (hcountable : ∀ i s s', ok i s s' → Countable i s s') :
    Triple strict ok i l (testEnter i) fun b => { l with inside := b } := by
  refine .loop (.readAny fun old => ?_)
  split
  case isTrue hidle =>
    refine .bind (n := fun ok => cond ok { l with inside := true } l)
      (.cas (fun _ _ hat _ => hat) fun s hinv hat hgate hstep => ?_) fun ok => ?_
    · subst hgate
      have hholder : s.holder = none := by
        by_contra hne
        rcases hinv.gate.held.mp hne with h | h | h <;> rw [hidle] at h <;> cases h
      have hnil : s.testing = [] := by
        by_contra hne
        rcases hinv.gate.tests.mp hne with h | h | h <;> rw [hidle] at h <;> cases h
      exact enter_moves hinv hat hholder (by rw [hnil]; rfl) (hcountable i s _ hstep) (.inl rfl)
    · cases ok with
      | true => exact .bind (testStart_triple rfl) fun b => .ret _ fun _ _ hat => hat
      | false => exact .ret _ fun _ _ hat => hat
  case isFalse =>
    split
    case isTrue => exact .ret _ fun _ _ hat => hat
    case isFalse =>
      split
      case isTrue => exact .ret _ fun _ _ hat => { hat with inside := nofun }
      case isFalse htesting =>
        refine .bind (n := fun ok => cond ok { l with inside := true } l)
          (.cas (fun _ _ hat _ => hat) fun s hinv hat hgate hstep => ?_)
          fun ok => .ret _ fun _ _ hat => by cases ok <;> exact hat
        subst hgate
        have htest : s.gate.state.IsTest := .inr (.inl (not_not.mp htesting))
        have hbound := hcountable i s _ hstep
        simp only [Countable, enter, List.length_cons] at hbound
        refine enter_moves hinv hat (hinv.gate.no_run htest) ?_ hbound htest
        have hcounted := hinv.gate.counted
        simp only [Word.add]
        rw [Int.bmod_eq_of_le (by omega) (by omega), hcounted]

end MoCoLinux.Arch.Lifecycle
