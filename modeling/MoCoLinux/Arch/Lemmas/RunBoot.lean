import MoCoLinux.Arch.Lemmas.RunSlots

/-!
# The gate in the hands of a boot run
-/

namespace MoCoLinux.Arch.Lifecycle

open Threads (Prog)

variable {strict : Bool} {ok : Nat → Lifecycle → Lifecycle → Prop} {i j : Nat} {g : Stage} {l : Local} {s s' : Lifecycle}

def Stage.taken : Stage := ⟨false, false, false, false, true, false, 0⟩

theorem take_moves (hinv : Inv strict s) (hat : At i l s) (hgate : s.gate = .idle) :
    Moves strict i { l with stage := some .taken } s (take i { s with gate := ⟨.starting, 0⟩ }) := by
  have hstate : s.gate.state = .idle := by rw [hgate]; rfl
  have hholder : s.holder = none := by
    by_contra hne
    rcases hinv.gate.held.mp hne with h | h | h <;> rw [hstate] at h <;> cases h
  have hnil : s.testing = [] := by
    by_contra hne
    rcases hinv.gate.tests.mp hne with h | h | h <;> rw [hstate] at h <;> cases h
  have hnone : ∀ v t, (t, Role.join) ∉ s.owners v := fun v t hmem =>
    (hinv.slots.joined v t hmem).2.2.1 (hinv.gate.not_booting hholder)
  refine ⟨⟨?_, ?_, ?_⟩, fun j _ => ?_, ?_⟩
  · exact { hinv.gate with
      counted := by simp [take, hnil]
      tests := iff_of_false (not_not.mpr hnil) (by rintro (h | h | h) <;> cases h)
      held := iff_of_true nofun (.inl rfl)
      booting := fun h => absurd rfl h
      begun := fun h => absurd rfl h
      looping := nofun
      cleared := nofun
      freeing := nofun
      running := nofun
      serial := fun _ => Nat.succ_pos _ }
  · exact { hinv.slots with joined := fun v t hmem => absurd hmem (hnone v t), seated := nofun }
  · refine ⟨nofun, fun j n hn => ?_, fun j n hn => ?_, fun _ h => absurd h nofun⟩
    · have hle := (hinv.flag.found j n hn).1
      simp only [take]
      exact ⟨by omega, fun heq => by omega⟩
    · have hle := (hinv.flag.ended j n hn).1
      simp only [take]
      exact ⟨by omega, fun heq => by omega⟩
  · exact { Others.refl j s with
      holder := fun h => absurd (hholder.symm.trans h) nofun
      lock := fun h => ⟨h, fun hr => absurd (hstate.symm.trans hr) nofun⟩ }
  · refine { hat with stage := fun g hg => ?_, running := fun h => absurd (hstate.symm.trans (hat.running h).2) nofun }
    cases hg
    exact ⟨rfl, rfl, rfl, rfl, rfl, fun _ => ⟨nofun, hnone⟩, nofun, nofun⟩

theorem Held.others (h : Held i g s) (hj : j ≠ i) {flag cleared looping freeing : Bool} {booting : List Nat} :
    Others j s { s with
      abortAll := flag, cleared := cleared, looping := looping, freeing := freeing, booting := booting } :=
  { Others.refl j s with holder := fun hh => absurd (Option.some.inj (h.holder.symm.trans hh)).symm hj }

theorem clearRun_triple (hok : strict = true → ∀ i s s', ok i s s' → Timely i s s') (hstage : l.stage = some .taken) :
    Triple strict ok i l clearRun fun _ => { l with stage := some { Stage.taken with cleared := true } } := by
  refine .write fun s hinv hat hstep => ?_
  have hheld := hat.stage _ hstage
  refine ⟨⟨?_, { hinv.slots with }, ?_⟩, fun j hj => hheld.others hj, ?_⟩
  · exact { hinv.gate with begun := fun _ => rfl, cleared := fun _ => by rw [hheld.holder]; nofun }
  · refine { hinv.flag with ended := fun j n hn => ?_, told := fun _ _ h => absurd h nofun }
    obtain ⟨hle, hended⟩ := hinv.flag.ended j n hn
    refine ⟨hle, fun heq hh => ⟨(hended heq hh).1, fun hs hmem => ?_⟩⟩
    exact absurd rfl ((hok hs i s _ hstep).clear hheld.cleared rfl _ hmem heq _ hn)
  · refine { hat with stage := fun g hg => ?_ }
    cases hg
    exact { hheld with cleared := rfl }

def Stage.prepared : Stage := ⟨true, true, false, false, true, false, 0⟩

def Stage.refused : Stage := ⟨false, true, false, false, true, true, 0⟩

theorem Held.stopping (h : Held i g s) (hinv : Inv strict s) (hquiet : g.quiet = true)
    (hne : s.gate.state ≠ .starting) : s.gate.state = .stopping :=
  (h.isRun hinv).elim (fun heq => absurd heq hne) fun hrest => hrest.resolve_left (h.quiet hquiet).1

theorem recheck_triple (hstage : l.stage = some { Stage.taken with cleared := true }) :
    Triple strict ok i l (recheck i) fun b => { l with stage := some (cond b .prepared .refused) } := by
  refine .act fun s b t hinv hat hf _ => ?_
  have hheld := hat.stage _ hstage
  have hbooting : s.booting = [] := hheld.booting
  split at hf
  case isTrue hstarting =>
    cases hf
    refine ⟨⟨?_, ?_, ?_⟩, fun j hj => hheld.others hj, ?_⟩
    · exact { hinv.gate with
        booting := fun _ => ⟨i, by simp [hbooting], hheld.holder⟩
        begun := fun _ => hheld.cleared
        looping := fun _ => nofun
        running := fun _ => nofun }
    · exact { hinv.slots with joined := fun v t hmem => absurd hmem ((hheld.quiet rfl).2 v t) }
    · refine { hinv.flag with ended := fun j n hn => ?_ }
      obtain ⟨hle, hended⟩ := hinv.flag.ended j n hn
      exact ⟨hle, fun heq hh => absurd (hstarting.symm.trans (hended heq hh).1) nofun⟩
    · refine { hat with stage := fun g hg => ?_ }
      cases hg
      exact { hheld with booting := by simp [Stage.prepared, hbooting] }
  case isFalse hne =>
    cases hf
    refine .still hinv { hat with stage := fun g hg => ?_ }
    cases hg
    exact { hheld with closed := fun _ => hheld.stopping hinv rfl hne, scanned := nofun }

theorem setAbort_closed (hstage : l.stage = some g) (hclosed : g.closed = true) :
    Triple strict ok i l (setAbort true) fun _ => l := by
  refine .write fun s hinv hat _ => ?_
  have hheld := hat.stage _ hstage
  refine ⟨⟨{ hinv.gate with }, { hinv.slots with }, ?_⟩, fun j hj => hheld.others hj, ?_⟩
  · refine { hinv.flag with ended := fun j n hn => ?_, told := fun _ _ _ => hheld.closed hclosed }
    obtain ⟨hle, hended⟩ := hinv.flag.ended j n hn
    exact ⟨hle, fun heq hh => ⟨(hended heq hh).1, fun _ _ => rfl⟩⟩
  · exact { hat with stage := fun g hg => { hat.stage g hg with } }

theorem giveBack_moves (hinv : Inv strict s) (hat : At i l s) (hstage : l.stage = some g) (hquiet : g.quiet = true)
    (hstate : s.gate.state = .stopping) : Moves strict i { l with stage := none } s (giveBack { s with gate := .idle }) := by
  have hheld := hat.stage _ hstage
  have hnil := hinv.gate.no_tests (.inr (.inr hstate))
  refine ⟨⟨?_, ?_, ?_⟩, fun j hj => ?_, ?_⟩
  · exact { hinv.gate with
      counted := by simp [giveBack, hnil, Word.idle]
      tests := iff_of_false (not_not.mpr hnil) (by rintro (h | h | h) <;> cases h)
      held := iff_of_false (fun h => h rfl) (by rintro (h | h | h) <;> cases h)
      booting := fun h => absurd rfl h
      begun := fun h => absurd rfl h
      looping := fun h => by cases h
      cleared := fun h => by cases h
      freeing := fun h => by cases h
      running := fun h => by cases h
      serial := fun h => absurd rfl h }
  · exact { hinv.slots with
      joined := fun v t hmem => absurd hmem ((hheld.quiet hquiet).2 v t)
      seated := fun h => by cases h }
  · refine ⟨fun h => (by cases h), fun j n hn => ?_, fun j n hn => ?_, fun _ h => (by cases h)⟩
    · exact ⟨(hinv.flag.found j n hn).1, fun _ h => absurd rfl h⟩
    · exact ⟨(hinv.flag.ended j n hn).1, fun _ h => absurd rfl h⟩
  · exact { Others.refl j s with
      holder := fun hh => absurd (Option.some.inj (hheld.holder.symm.trans hh)).symm hj
      lock := fun h => ⟨h, fun hr => by cases hstate.symm.trans hr⟩ }
  · exact { hat with
      stage := fun g hg => by cases hg
      running := fun h => by cases hstate.symm.trans (hat.running h).2 }

theorem finish_triple (hstage : l.stage = some g) (hquiet : g.quiet = true) :
    Triple strict ok i l finish fun _ => { l with stage := none } := by
  refine .loop (.readAny fun old => ?_)
  split
  case isTrue => exact .ret _ fun _ _ hat => { hat with stage := nofun }
  case isFalse =>
    split
    case isTrue => exact .ret _ fun _ _ hat => { hat with stage := nofun }
    case isFalse hstopping =>
      refine .bind (n := fun ok => cond ok { l with stage := none } l)
        (.cas (fun _ _ hat _ => hat) fun s hinv hat hgate _ => ?_)
        fun ok => .ret _ fun _ _ hat => by cases ok <;> exact hat
      subst hgate
      exact giveBack_moves hinv hat hstage hquiet (not_not.mp hstopping)

theorem begin_triple (hok : strict = true → ∀ i s s', ok i s s' → Timely i s s') (hstage : l.stage = none) :
    Triple strict ok i l (begin i) fun b => cond b { l with stage := some .prepared } l := by
  refine .bind (n := fun b => cond b { l with stage := some .taken } l)
    (.cas (fun _ _ hat _ => hat) fun s hinv hat hgate _ => take_moves hinv hat hgate) fun b => ?_
  cases b with
  | false => exact .ret _ fun _ _ hat => hat
  | true =>
    refine .bind (clearRun_triple hok rfl) fun _ => .bind (recheck_triple rfl) fun b => ?_
    cases b with
    | true => exact .ret _ fun _ _ hat => hat
    | false =>
      refine .bind (setAbort_closed rfl rfl) fun _ => .bind (finish_triple rfl rfl) fun _ => ?_
      exact .ret _ fun _ _ hat => { hat with stage := fun g hg => by simp [hstage] at hg }

def Stage.open : Stage := ⟨true, true, true, false, false, false, 0⟩

theorem publish_moves (hinv : Inv strict s) (hat : At i l s) (hstage : l.stage = some .prepared)
    (hseat : l.seat = some ⟨0, .boot, .active⟩) (hgate : s.gate = ⟨.starting, 0⟩) :
    Moves strict i { l with stage := some .open } s { s with gate := ⟨.running, 0⟩, looping := true } := by
  have hheld := hat.stage _ hstage
  have hstate : s.gate.state = .starting := by rw [hgate]
  have hnil := hinv.gate.no_tests (.inl hstate)
  have hbooting : s.booting = [i] := hheld.booting
  have hnot : s.gate.state ≠ .stopping := by rw [hstate]; nofun
  refine ⟨⟨?_, ?_, ?_⟩, fun j hj => ?_, ?_⟩
  · exact { hinv.gate with
      counted := by simp [hnil]
      tests := iff_of_false (not_not.mpr hnil) (by rintro (h | h | h) <;> cases h)
      held := iff_of_true (by rw [hheld.holder]; nofun) (.inr (.inl rfl))
      looping := fun _ => by rw [hbooting]; nofun
      freeing := fun h => absurd (hinv.gate.freeing h) hnot
      running := fun _ => by rw [hbooting]; nofun }
  · exact { hinv.slots with
      joined := fun v t hmem => absurd hmem ((hheld.quiet rfl).2 v t)
      seated := fun _ => ⟨i, (hat.seat _ hseat).1⟩ }
  · refine ⟨nofun, fun j n hn => ?_, fun j n hn => ?_, fun hs hc ha => absurd (hinv.flag.told hs hc ha) hnot⟩
    · obtain ⟨hle, hfound⟩ := hinv.flag.found j n hn
      exact ⟨hle, fun heq hh => absurd (hfound heq hh) hnot⟩
    · obtain ⟨hle, hended⟩ := hinv.flag.ended j n hn
      exact ⟨hle, fun heq hh => absurd (hended heq hh).1 hnot⟩
  · exact { Others.refl j s with
      holder := fun hh => absurd (Option.some.inj (hheld.holder.symm.trans hh)).symm hj
      lock := fun h => ⟨h, fun _ => rfl⟩ }
  · refine { hat with stage := fun g hg => ?_, running := fun h => ⟨(hat.running h).1, rfl⟩ }
    cases hg
    exact { hheld with looping := rfl, quiet := nofun, closed := nofun, scanned := nofun }

theorem publish_triple (hstage : l.stage = some .prepared) (hseat : l.seat = some ⟨0, .boot, .active⟩) :
    Triple strict ok i l publish fun b =>
      { l with stage := some (cond b Stage.open Stage.prepared.close) } := by
  refine .cas (fun s hinv hat hne => ?_) fun s hinv hat hgate _ => publish_moves hinv hat hstage hseat hgate
  have hheld := hat.stage _ hstage
  have hstate : s.gate.state ≠ .starting := fun hstate => hne (by
    have hrefs := hinv.gate.counted
    rw [hinv.gate.no_tests (.inl hstate)] at hrefs
    exact Word.ext hstate hrefs)
  refine { hat with stage := fun g hg => ?_ }
  cases hg
  exact { hheld with closed := fun _ => hheld.stopping hinv rfl hstate, scanned := nofun }

theorem endLoop_triple (hstage : l.stage = some g) :
    Triple strict ok i l (Prog.write fun s => { s with looping := false })
      fun _ => { l with stage := some { g with looping := false } } := by
  refine .write fun s hinv hat _ => ?_
  have hheld := hat.stage _ hstage
  refine ⟨⟨{ hinv.gate with looping := nofun }, { hinv.slots with }, { hinv.flag with }⟩,
    fun j hj => hheld.others hj, { hat with stage := fun g hg => ?_ }⟩
  cases hg
  exact { hheld with looping := rfl }

theorem free_triple (hstage : l.stage = some g) (hquiet : g.quiet = true) (hclosed : g.closed = true) :
    Triple strict ok i l (Prog.write fun s => { s with freeing := true })
      fun _ => { l with stage := some { g with freeing := true } } := by
  refine .write fun s hinv hat _ => ?_
  have hheld := hat.stage _ hstage
  refine ⟨⟨{ hinv.gate with freeing := fun _ => hheld.closed hclosed }, ?_, { hinv.flag with }⟩,
    fun j hj => hheld.others hj, { hat with stage := fun g hg => ?_ }⟩
  · exact { hinv.slots with joined := fun v t hmem => absurd hmem ((hheld.quiet hquiet).2 v t) }
  · cases hg
    exact { hheld with freeing := rfl }

theorem scan_still (l : Local) (n : Nat) : Triple strict ok i l (scan n) fun _ => l := by
  induction n with
  | zero => exact .ret _ fun _ _ hat => hat
  | succ n ih => exact .readAny fun _ => .bind ih fun _ => .ret _ fun _ _ hat => hat

theorem scan_triple (n : Nat) (hn : n < maxVcpus) :
    ∀ {l : Local}, l.stage = some { g with scanned := maxVcpus - n } →
      Triple strict ok i l (scan n) fun b => { l with stage := some { g with scanned := cond b maxVcpus 0 } } := by
  induction n with
  | zero =>
    intro l hstage
    refine .ret _ fun _ _ hat => { hat with stage := fun g' hg' => ?_ }
    cases hg'
    exact hat.stage _ hstage
  | succ n ih =>
    intro l hstage
    refine .readThen fun s hinv hat => ?_
    by_cases hfree : s.active (maxVcpus - (n + 1)) = .free
    case neg =>
      refine ⟨l, hat, .bind (scan_still l n) fun others => .ret _ fun _ _ hat => { hat with stage := fun g' hg' => ?_ }⟩
      simp only [hfree, decide_false, Bool.false_and, cond_false] at hg'
      cases hg'
      exact { hat.stage _ hstage with scanned := nofun }
    case pos =>
      have hheld := hat.stage _ hstage
      have hnil := (hinv.slots.free _).mp hfree
      refine ⟨{ l with stage := some { g with scanned := maxVcpus - n } }, { hat with stage := fun g' hg' => ?_ }, ?_⟩
      · cases hg'
        refine { hheld with scanned := fun v hv hc t hmem => ?_ }
        by_cases hlast : v = maxVcpus - (n + 1)
        · subst hlast
          simp [hnil] at hmem
        · exact hheld.scanned v (by simp only at hv ⊢; omega) hc t hmem
      · rw [decide_eq_true hfree]
        exact .bind (ih (by omega) rfl) fun b => .ret _ fun _ _ hat => hat

theorem join_triple (hclosed : g.closed = true) (hstage : l.stage = some { g with scanned := 0 }) :
    Triple strict ok i l (Prog.loop joinRound) fun _ => { l with stage := some { g with quiet := true, scanned := 0 } } := by
  refine .loop (.weaken (k := { l with stage := some { g with scanned := 1 } }) ?_ fun s hinv hat => ?_)
  · refine .bind (scan_triple (maxVcpus - 1) (by decide) rfl) fun b => .ret _ fun s hinv hat => ?_
    cases b with
    | false => exact { hat with stage := fun g' hg' => hat.stage g' (hstage ▸ hg') }
    | true =>
      refine { hat with stage := fun g' hg' => ?_ }
      cases hg'
      have hheld := hat.stage _ rfl
      refine { hheld with quiet := fun _ => ⟨?_, fun v t hmem => ?_⟩, scanned := nofun }
      · rw [hheld.closed hclosed]
        nofun
      · exact hheld.scanned v (hinv.slots.joined v t hmem).1.2 hclosed t hmem
  · -- slot 0 is the boot processor's
    refine { hat with stage := fun g' hg' => ?_ }
    cases hg'
    refine { hat.stage _ hstage with scanned := fun v hv _ t hmem => ?_ }
    have := (hinv.slots.joined v t hmem).1.1
    simp only at hv
    omega

end MoCoLinux.Arch.Lifecycle
