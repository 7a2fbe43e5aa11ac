import MoCoLinux.Arch.Lemmas.RunGate

/-!
# The registry lock and `co_arch_boot_abort`
-/

namespace MoCoLinux.Arch.Lifecycle

open Function
open Threads (Prog)

variable {strict : Bool} {ok : Nat → Lifecycle → Lifecycle → Prop} {i j : Nat} {l : Local} {s s' : Lifecycle}

theorem lockRegistry_triple (l : Local) :
    Triple strict ok i l (lockRegistry i) fun _ => { l with locked := true } := by
  refine .act fun s b t hinv hat hf _ => ?_
  cases hlock : s.lock with
  | some h => simp [hlock] at hf
  | none =>
    simp only [hlock, Option.isNone_none, if_true, Option.some.injEq, Prod.mk.injEq] at hf
    obtain ⟨-, rfl⟩ := hf
    refine ⟨⟨{ hinv.gate with }, { hinv.slots with }, { hinv.flag with }⟩, fun j _ => ?_, ?_⟩
    · exact { Others.refl j s with
        holder := fun _ => { Kept.refl s with }
        lock := fun h => by simp [hlock] at h }
    · exact { hat with
        stage := fun g hg => { hat.stage g hg with }
        locked := fun _ => rfl
        running := fun h => ⟨rfl, (hat.running h).2⟩ }

theorem unlockRegistry_triple (hlocked : l.locked = true) :
    Triple strict ok i l unlockRegistry fun _ => { l with locked := false, running := false } := by
  refine .write fun s hinv hat _ => ?_
  have hlock := hat.locked hlocked
  refine ⟨⟨{ hinv.gate with }, { hinv.slots with }, { hinv.flag with }⟩, fun j hj => ?_, ?_⟩
  · exact { Others.refl j s with
      holder := fun _ => { Kept.refl s with }
      lock := fun h => absurd (Option.some.inj (hlock.symm.trans h)).symm hj }
  · exact { hat with
      stage := fun g hg => { hat.stage g hg with }
      locked := nofun
      running := nofun }

theorem Word.close_eq {w : Word} (h : w.close = w) :
    w.state = .idle ∨ w.state = .stopping ∨ w.state = .testStopping := by
  cases w with
  | mk state refs => cases state <;> simp [Word.close] at h ⊢

theorem Word.close_ne {w : Word} (h : w.close ≠ w) :
    (w.state = .starting ∨ w.state = .running) ∧ w.close = { w with state := .stopping } ∨
      (w.state = .testStarting ∨ w.state = .testing) ∧ w.close = { w with state := .testStopping } := by
  cases w with
  | mk state refs => cases state <;> simp [Word.close] at h ⊢

def Stage.close (g : Stage) : Stage := { g with closed := true, scanned := 0 }

def Local.closing (l : Local) : Local := { l with stage := l.stage.map Stage.close, found := true }

theorem Held.isRun {g : Stage} (h : Held i g s) (hinv : Inv strict s) : s.gate.state.IsRun :=
  hinv.gate.held.mp (by rw [h.holder]; nofun)

theorem FlagInv.withFound (h : FlagInv strict s) {n : Nat} (hle : n ≤ s.serial)
    (hn : n = s.serial → s.holder ≠ none → s.gate.state = .stopping) :
    FlagInv strict { s with found := update s.found i (some n) } :=
  { h with
    found := fun j m hm => by
      simp only [update_apply] at hm
      split at hm
      · cases hm
        exact ⟨hle, hn⟩
      · exact h.found j m hm }

theorem look_triple (l : Local) :
    Triple strict ok i l (look i) fun old => if old.close = old then l.closing else l := by
  refine .act fun s b t hinv hat hf _ => ?_
  simp only [Option.some.injEq, Prod.mk.injEq] at hf
  obtain ⟨rfl, rfl⟩ := hf
  split
  case isFalse => exact .still hinv hat
  case isTrue hclosed =>
    have hstate := Word.close_eq hclosed
    refine ⟨⟨{ hinv.gate with }, { hinv.slots with }, ?_⟩, fun j hj => ?_, ?_⟩
    · refine hinv.flag.withFound (by split <;> omega) fun hn hheld => ?_
      by_contra hne
      rw [if_neg hne] at hn
      have := hinv.gate.serial hheld
      omega
    · exact { Others.refl j s with
        holder := fun _ => { Kept.refl s with }
        found := update_of_ne hj _ _ }
    · refine { hat with stage := fun g' hg' => ?_, found := fun _ => by simp }
      obtain ⟨g, hg, rfl⟩ := Option.map_eq_some_iff.mp hg'
      have hheld := hat.stage g hg
      refine { hheld with closed := fun _ => ?_, scanned := nofun }
      have hrun := hheld.isRun hinv
      rcases hstate with heq | heq | heq
      · simp [heq, RunState.IsRun] at hrun
      · exact heq
      · simp [heq, RunState.IsRun] at hrun

theorem Inv.flag_noRun (hinv : Inv strict s) (hholder : s.holder = none) {w : Word} (hw : w.state ≠ .stopping)
    (flag : Bool) (refs : List Nat) : FlagInv strict { s with gate := w, abortAll := flag, testing := refs } := by
  refine ⟨fun h => absurd h hw, fun j n hn => ?_, fun j n hn => ?_, fun _ hc => ?_⟩
  · exact ⟨(hinv.flag.found j n hn).1, fun _ h => absurd hholder h⟩
  · exact ⟨(hinv.flag.ended j n hn).1, fun _ h => absurd hholder h⟩
  · exact absurd hholder (hinv.gate.cleared hc)

def stopRun (i : Nat) (s : Lifecycle) : Lifecycle :=
  { s with
    gate := { s.gate with state := .stopping }
    found := update s.found i (some s.serial)
    stops := (i, s.serial) :: s.stops }

def stopTest (i : Nat) (s : Lifecycle) : Lifecycle :=
  { s with gate := { s.gate with state := .testStopping }, found := update s.found i (some 0) }

theorem stopRun_moves (hinv : Inv strict s) (hat : At i l s) (hlocked : l.locked = true) (hfree : l.running = false)
    (hstate : s.gate.state = .starting ∨ s.gate.state = .running) : Moves strict i l.closing s (s.stopRun i) := by
  have hrun : s.gate.state.IsRun := hstate.elim .inl fun h => .inr (.inl h)
  have hlock := hat.locked hlocked
  refine ⟨⟨?_, ?_, ?_⟩, fun j hj => ?_, ?_⟩
  · exact { hinv.gate with
      tests := iff_of_false (not_not.mpr (hinv.gate.no_tests hrun)) nofun
      held := iff_of_true (hinv.gate.held.mpr hrun) (.inr (.inr rfl))
      freeing := fun _ => rfl
      running := nofun }
  · refine { hinv.slots with joined := fun v t hmem => ?_, seated := nofun }
    obtain ⟨hv, -, hrest⟩ := hinv.slots.joined v t hmem
    exact ⟨hv, .inr rfl, hrest⟩
  · have hnot : s.gate.state ≠ .stopping := by rcases hstate with h | h <;> rw [h] <;> nofun
    refine ⟨fun _ => ⟨i, List.mem_cons_self ..⟩, fun j n hn => ?_, fun j n hn => ?_, fun _ _ _ => rfl⟩
    · simp only [stopRun, update_apply] at hn
      split at hn
      · cases hn
        exact ⟨Nat.le_refl _, fun _ _ => rfl⟩
      · exact ⟨(hinv.flag.found j n hn).1, fun _ _ => rfl⟩
    · obtain ⟨hle, hended⟩ := hinv.flag.ended j n hn
      exact ⟨hle, fun heq hheld => absurd (hended heq hheld).1 hnot⟩
  · exact { Others.refl j s with
      holder := fun _ => { Kept.refl s with state := .inr rfl }
      lock := fun h => absurd (Option.some.inj (hlock.symm.trans h)).symm hj
      found := update_of_ne hj _ _ }
  · refine { hat with stage := fun g' hg' => ?_, running := fun h => ?_, found := fun _ => by simp [stopRun] }
    · obtain ⟨g, hg, rfl⟩ := Option.map_eq_some_iff.mp hg'
      have hheld := hat.stage g hg
      exact { hheld with quiet := fun hq => ⟨nofun, (hheld.quiet hq).2⟩, closed := fun _ => rfl, scanned := nofun }
    · exact absurd (hfree.symm.trans h) nofun

theorem stopTest_moves (hinv : Inv strict s) (hat : At i l s) (hlocked : l.locked = true) (hfree : l.running = false)
    (hstate : s.gate.state = .testStarting ∨ s.gate.state = .testing) :
    Moves strict i l.closing s (s.stopTest i) := by
  have htest : s.gate.state.IsTest := hstate.elim .inl fun h => .inr (.inl h)
  have hholder := hinv.gate.no_run htest
  have hlock := hat.locked hlocked
  refine ⟨⟨?_, ?_, ?_⟩, fun j hj => ?_, ?_⟩
  · exact { hinv.gate with
      tests := iff_of_true (hinv.gate.tests.mpr htest) (.inr (.inr rfl))
      held := iff_of_false (not_not.mpr hholder) nofun
      freeing := fun h => by have := hinv.gate.freeing h; rcases hstate with h | h <;> simp [h] at this
      running := nofun }
  · refine { hinv.slots with joined := fun v t hmem => ?_, seated := nofun }
    rcases (hinv.slots.joined v t hmem).2.1 with h | h <;> rcases hstate with h' | h' <;> simp [h] at h'
  · have hflag := hinv.flag_noRun hholder (w := { s.gate with state := .testStopping }) nofun s.abortAll s.testing
    exact hflag.withFound (Nat.zero_le _) fun _ h => absurd hholder h
  · exact { Others.refl j s with
      holder := fun h => by simp [hholder] at h
      lock := fun h => absurd (Option.some.inj (hlock.symm.trans h)).symm hj
      found := update_of_ne hj _ _ }
  · refine { hat with stage := fun g' hg' => ?_, running := fun h => ?_, found := fun _ => by simp [stopTest] }
    · obtain ⟨g, hg, rfl⟩ := Option.map_eq_some_iff.mp hg'
      exact absurd (hat.stage g hg).holder (by simp [hholder])
    · exact absurd (hfree.symm.trans h) nofun

theorem abortRound_triple (hlocked : l.locked = true) (hfree : l.running = false) :
    Triple strict ok i l (abortRound i) fun r => r.elim l fun _ => l.closing := by
  refine .bind (look_triple l) fun old => ?_
  by_cases hclosed : old.close = old
  · simp only [if_pos hclosed]
    exact .ret _ fun _ _ hat => hat
  · simp only [if_neg hclosed]
    refine .bind (n := fun ok => cond ok l.closing l) (.cas (fun _ _ hat _ => hat) fun s hinv hat hgate _ => ?_)
      fun ok => .ret _ fun _ _ hat => by cases ok <;> exact hat
    subst hgate
    obtain ⟨hstate, hclose⟩ | ⟨hstate, hclose⟩ := Word.close_ne hclosed
    · have hnote : noteStop i { s with gate := s.gate.close } = s.stopRun i := by
        rw [hclose]
        exact if_pos rfl
      rw [hnote]
      exact stopRun_moves hinv hat hlocked hfree hstate
    · have hnote : noteStop i { s with gate := s.gate.close } = s.stopTest i := by
        rw [hclose]
        exact if_neg nofun
      rw [hnote]
      exact stopTest_moves hinv hat hlocked hfree hstate

def Local.closed (l : Local) : Local :=
  { l with stage := l.stage.map Stage.close, locked := false, running := false, found := false }

variable (hok : strict = true → ∀ i s s', ok i s s' → Timely i s s')

include hok in
theorem storeAbort_triple (hfound : l.found = true) :
    Triple strict ok i l (Prog.write (storeAbort i)) fun _ => { l with found := false } := by
  refine .write fun s hinv hat hstep => ?_
  obtain ⟨n, hn⟩ := Option.ne_none_iff_exists'.mp (hat.found hfound)
  obtain ⟨hle, hstop⟩ := hinv.flag.found i n hn
  refine ⟨⟨{ hinv.gate with }, { hinv.slots with }, ?_⟩, fun j hj => ?_, ?_⟩
  · refine { hinv.flag with found := fun j m hm => ?_, ended := fun j m hm => ?_, told := fun hs hc _ => ?_ }
    · simp only [storeAbort, update_apply] at hm
      split at hm
      · cases hm
      · exact hinv.flag.found j m hm
    · simp only [storeAbort, hn, Option.toList_some, List.map_cons, List.map_nil, List.cons_append, List.nil_append,
        List.mem_cons, Prod.mk.injEq] at hm
      rcases hm with ⟨rfl, rfl⟩ | hm
      · exact ⟨hle, fun heq hheld => ⟨hstop heq hheld, fun _ _ => rfl⟩⟩
      · obtain ⟨hle', hended⟩ := hinv.flag.ended j m hm
        exact ⟨hle', fun heq hheld => ⟨(hended heq hheld).1, fun _ _ => rfl⟩⟩
    · have hn' : n = s.serial := (hok hs i s _ hstep).store n hn (by simp [storeAbort]) hc
      exact hstop hn' (hinv.gate.cleared hc)
  · exact { Others.refl j s with
      holder := fun _ => { Kept.refl s with }
      found := update_of_ne hj _ _ }
  · exact { hat with stage := fun g hg => { hat.stage g hg with }, found := nofun }

include hok in
theorem abort_triple (hfree : l.running = false) : Triple strict ok i l (abort i) fun _ => l.closed := by
  refine .bind (lockRegistry_triple l) fun _ => ?_
  refine .bind (.loop (abortRound_triple rfl hfree)) fun _ => ?_
  refine .bind (unlockRegistry_triple rfl) fun _ => ?_
  exact storeAbort_triple hok rfl

end MoCoLinux.Arch.Lifecycle
