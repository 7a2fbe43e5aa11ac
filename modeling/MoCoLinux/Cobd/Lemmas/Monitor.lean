import MoCoLinux.Cobd.Lemmas.Async

/-!
# The block workers: start and stop
-/

namespace MoCoLinux.Cobd.Async

open Function
open Threads (Prog)
open Threads.Prog (Safe)

variable {s s' : Async} {u : Nat}

abbrev MonitorSafe {α : Type} (Q : α → Async → Prop) (p : Prog Async α) (s : Async) : Prop :=
  p.Safe Inv (contract .monitor) (fun _ _ => True) Q s

theorem Inv.no_worker (hinv : s.Inv) (hb : s.built = false) (u : Nat) : s.alive u = false := by
  cases ha : s.alive u with
  | false => rfl
  | true => exact absurd (hb.symm.trans (hinv.alive u ha).2) Bool.false_ne_true

structure Frame (s s' : Async) : Prop where
  units : ∀ u, SameUnit u s s' ∧ Quiet u s s'
  alive : s'.alive = s.alive
  workerCount : s'.workerCount = s.workerCount
  subWait : ∀ u, s.subWait u = true → s'.subWait u = true
  inCall : s'.inCall = s.inCall
  signaller : s'.signaller = s.signaller

theorem Frame.guar (h : Frame s s') (hinv : s.Inv) (hlists : s'.built = true → Lists s')
    (hbuilt : ∀ u, s.alive u = true → s'.built = true) (hcalls : s.inCall ≠ [] → s'.phase = .running)
    (hrunning : s'.phase = .running → s'.built = true)
    (hstopped : s'.phase = .stopped → s'.built = false ∧ ∀ u < maxUnits, s'.late u = false → Served s' u) :
    MonitorGuar s s' := by
  refine ⟨⟨hlists, ?_, fun u ha => ?_, ?_, hrunning, fun u hs hq => ?_, fun u => ?_, fun u hu ha => ?_, hstopped⟩,
    h.inCall, h.signaller, fun u ha => ⟨by rw [h.alive]; exact ha, h.units u⟩, fun u ha ha' => ?_⟩
  · rw [h.workerCount]
    exact hinv.count
  · rw [h.alive] at ha
    rw [h.workerCount]
    exact ⟨(hinv.alive u ha).1, hbuilt u ha⟩
  · rw [h.inCall]
    exact hcalls
  · rw [(h.units u).1.sleepy] at hs
    rw [(h.units u).2.queue] at hq
    rw [h.signaller]
    exact (hinv.wake u hs hq).imp (h.subWait u) id
  · exact (hinv.ordered u).congr (h.units u).1 ⟨[], by rw [List.append_nil, (h.units u).2.accepted]⟩
  · rw [h.workerCount] at hu
    rw [h.alive] at ha
    obtain ⟨hrested, hempty⟩ := hinv.gone u hu ha
    rw [(h.units u).2.late, (h.units u).2.queue]
    exact ⟨(h.units u).1.rested hrested, hempty⟩
  · rw [h.alive, ha] at ha'
    cases ha'

/-! ## The start -/

structure Closed (s : Async) : Prop where
  phase : s.phase = .starting
  built : s.built = false

theorem Closed.stable (h : Closed s) (hr : MonitorRely s s') : Closed s' :=
  ⟨hr.run.phase.trans h.phase, hr.run.built.trans h.built⟩

structure Building (k : Nat) (s : Async) : Prop extends Closed s where
  workerCount : s.workerCount = 0
  chain : LinkedList.Chain s.next s.freeList s.free
  free : s.free = (List.range k).reverse
  fifoHead : s.fifoHead = fun _ => none
  fifoTail : s.fifoTail = fun _ => none
  queue : s.queue = fun _ => []
  held : s.held = fun _ => none
  accepted : s.accepted = fun _ => []
  popped : s.popped = fun _ => []
  rested : ∀ u < maxUnits, s.alive u = false ∧ Rested u s

theorem Building.stable {k : Nat} (h : Building k s) (hr : MonitorRely s s') : Building k s' := by
  have hsame := hr.lists h.built
  have hclosed := h.toClosed.stable hr
  have hcount := hr.run.workerCount.trans h.workerCount
  refine ⟨hclosed, hcount, ?_, hsame.free.trans h.free, hsame.fifoHead.trans h.fifoHead,
    hsame.fifoTail.trans h.fifoTail, hsame.queue.trans h.queue, hsame.held.trans h.held,
    hsame.accepted.trans h.accepted, hsame.popped.trans h.popped, fun u hu => ?_⟩
  · rw [hsame.next, hsame.freeList, hsame.free]
    exact h.chain
  · obtain ⟨ha, hrested⟩ := h.rested u hu
    obtain ⟨ha', hunit⟩ := hr.dead u ha
    exact ⟨ha', (hunit hu).rested hrested⟩

theorem reset_safe (va : Nat) (h : Closed s) : MonitorSafe (fun _ => Building 0) (Prog.write (reset va)) s := by
  refine Safe.writeLast (Safe.stays Closed.stable) (fun s h hinv _ => ?_) h
  have hdead := hinv.no_worker h.built
  have hbuilding : Building 0 (reset va s) :=
    ⟨⟨h.phase, h.built⟩, rfl, rfl, rfl, rfl, rfl, rfl, rfl, rfl, rfl, fun u _ => ⟨hdead u, rfl, rfl, rfl, rfl⟩⟩
  refine ⟨⟨⟨fun hb => ?_, Nat.zero_le _, fun u ha => ?_, hinv.calls, hinv.running, nofun, fun _ => ?_, nofun,
    fun hp => ?_⟩, rfl, rfl, fun u ha => ?_, fun u ha ha' => ?_⟩, fun t ht _ => hbuilding.stable ht⟩
  · exact absurd (h.built.symm.trans hb) Bool.false_ne_true
  · exact absurd ((hdead u).symm.trans ha) Bool.false_ne_true
  · exact ⟨List.nil_prefix, List.nil_prefix, List.nil_prefix⟩
  · exact absurd (h.phase.symm.trans hp) nofun
  · exact absurd ((hdead u).symm.trans ha) Bool.false_ne_true
  · exact absurd (ha.symm.trans ha') Bool.false_ne_true

theorem rebuild_safe (left : Nat) : ∀ {s : Async}, s.Inv → left ≤ workNodes → Building (workNodes - left) s →
    MonitorSafe (fun _ => Building workNodes) (rebuild left) s := by
  induction left with
  | zero =>
    intro s _ _ h
    exact Safe.done Building.stable h
  | succ left ih =>
    intro s _ hle h
    refine Safe.write (Safe.stays Building.stable)
      (fun s h hinv _ => ?_) h
    have hframe : Frame s (s.pushFree (workNodes - (left + 1))) :=
      ⟨fun u => ⟨⟨rfl, fun _ _ => rfl, rfl, rfl, rfl, rfl⟩, ⟨rfl, rfl, rfl⟩⟩, rfl, rfl, fun _ h => h, rfl, rfl⟩
    have hguar := hframe.guar hinv (fun hb => absurd (h.built.symm.trans hb) Bool.false_ne_true)
      (fun u ha => (hinv.alive u ha).2) hinv.calls hinv.running fun hp => absurd (h.phase.symm.trans hp) nofun
    refine ⟨hguar, ih hguar.inv (by omega) ?_⟩
    have hnext : workNodes - left = workNodes - (left + 1) + 1 := by omega
    have hnew : workNodes - (left + 1) ∉ s.free := by
      rw [h.free]
      simp
    refine ⟨⟨h.phase, h.built⟩, h.workerCount, h.chain.cons hnew, ?_, h.fifoHead, h.fifoTail, h.queue, h.held,
      h.accepted, h.popped, fun u hu => ⟨(h.rested u hu).1, ?_⟩⟩
    · rw [hnext, List.range_succ, List.reverse_append, ← h.free]
      rfl
    · exact (hframe.units u).1.rested (h.rested u hu).2

theorem Building.lists (h : Building workNodes s) : Lists { s with built := true } := by
  refine ⟨h.chain, fun u _ => ?_, ?_, fun u _ => ?_⟩
  · dsimp only
    rw [h.fifoHead, h.fifoTail, h.queue]
    exact .empty
  · have hnil : (List.range maxUnits).flatMap (fun _ => ([] : List Nat)) = [] := rfl
    dsimp only
    rw [h.free, h.queue, h.held]
    dsimp only [Option.toList_none]
    rw [hnil, List.append_nil, List.append_nil]
    exact List.reverse_perm _
  · dsimp only
    rw [h.accepted, h.popped, h.queue]
    rfl

structure Creating (k : Nat) (s : Async) : Prop where
  phase : s.phase = .starting
  built : s.built = true
  workerCount : s.workerCount = k
  waiting : ∀ u < maxUnits, k ≤ u → s.alive u = false ∧ Rested u s

theorem Creating.stable {k : Nat} (h : Creating k s) (hr : MonitorRely s s') : Creating k s' := by
  refine ⟨hr.run.phase.trans h.phase, hr.run.built.trans h.built, hr.run.workerCount.trans h.workerCount,
    fun u hu hk => ?_⟩
  obtain ⟨ha, hrested⟩ := h.waiting u hu hk
  obtain ⟨ha', hunit⟩ := hr.dead u ha
  exact ⟨ha', (hunit hu).rested hrested⟩

theorem enable_safe (h : Building workNodes s) :
    MonitorSafe (fun _ => Creating 0) (Prog.write fun s => { s with built := true }) s := by
  refine Safe.writeLast (Safe.stays Building.stable) (fun s h hinv _ => ?_) h
  have hframe : Frame s { s with built := true } :=
    ⟨fun u => ⟨⟨rfl, fun _ _ => rfl, rfl, rfl, rfl, rfl⟩, ⟨rfl, rfl, rfl⟩⟩, rfl, rfl, fun _ h => h, rfl, rfl⟩
  have hcreating : Creating 0 { s with built := true } :=
    ⟨h.phase, rfl, h.workerCount, fun u hu _ => ⟨(h.rested u hu).1, (hframe.units u).1.rested (h.rested u hu).2⟩⟩
  exact ⟨hframe.guar hinv (fun _ => h.lists) (fun _ _ => rfl) hinv.calls (fun _ => rfl)
    fun hp => absurd (h.phase.symm.trans hp) nofun, fun t ht _ => hcreating.stable ht⟩

theorem spawn_guar {k : Nat} (h : Creating k s) (hinv : s.Inv) (hk : k < maxUnits) :
    MonitorGuar s (s.spawn k) ∧ Creating (k + 1) (s.spawn k) := by
  have hcount : (s.spawn k).workerCount = k + 1 := congrArg Nat.succ h.workerCount
  have hself : (s.spawn k).alive k = true := update_self ..
  have hother : ∀ v, v ≠ k → (s.spawn k).alive v = s.alive v := fun v hv => update_of_ne hv _ _
  have hunit : ∀ v, SameUnit v s (s.spawn k) := fun v => ⟨rfl, fun _ _ => rfl, rfl, rfl, rfl, rfl⟩
  have hdead := (h.waiting k hk (Nat.le_refl k)).1
  constructor
  · refine ⟨⟨fun hb => (hinv.lists hb).congr ⟨rfl, rfl, rfl, rfl, rfl, rfl, rfl, rfl, rfl⟩ rfl, ?_, fun v ha => ?_,
      hinv.calls, hinv.running, hinv.wake, fun v => (hinv.ordered v).congr (hunit v) List.prefix_rfl, fun v hv ha => ?_,
      fun hp => absurd (h.phase.symm.trans hp) nofun⟩, rfl, rfl, fun v ha => ⟨?_, hunit v, ⟨rfl, rfl, rfl⟩⟩,
      fun v ha ha' => ?_⟩
    · rw [hcount]
      exact hk
    · rw [hcount]
      refine ⟨?_, h.built⟩
      by_cases hvk : v = k
      · omega
      · rw [hother v hvk] at ha
        have := (hinv.alive v ha).1
        rw [h.workerCount] at this
        omega
    · have hvk : v ≠ k := by
        rintro rfl
        exact absurd (hself.symm.trans ha) Bool.true_eq_false.mp
      rw [hother v hvk] at ha
      rw [hcount] at hv
      obtain ⟨hrested, hempty⟩ := hinv.gone v (by rw [h.workerCount]; omega) ha
      exact ⟨(hunit v).rested hrested, hempty⟩
    · have hvk : v ≠ k := by
        rintro rfl
        exact absurd (hdead.symm.trans ha) Bool.false_ne_true
      rw [hother v hvk]
      exact ha
    · by_cases hvk : v = k
      · subst hvk
        exact (hunit v).rested (h.waiting v hk (Nat.le_refl v)).2
      · rw [hother v hvk, ha] at ha'
        cases ha'
  · refine ⟨h.phase, h.built, hcount, fun v hv hk' => ?_⟩
    rw [hother v (by omega)]
    obtain ⟨ha, hrested⟩ := h.waiting v hv (by omega)
    exact ⟨ha, (hunit v).rested hrested⟩

theorem startWorkers_safe (left : Nat) : ∀ {s : Async}, s.Inv → left ≤ maxUnits → Creating (maxUnits - left) s →
    MonitorSafe (fun _ => Creating maxUnits) (startWorkers maxUnits left) s := by
  induction left with
  | zero =>
    intro s _ _ h
    exact Safe.done Creating.stable h
  | succ left ih =>
    intro s _ hle h
    rw [startWorkers, if_pos (by omega)]
    refine Safe.write (Safe.stays Creating.stable)
      (fun s h hinv _ => ?_) h
    obtain ⟨hguar, hnext⟩ := spawn_guar h hinv (by omega)
    rw [show maxUnits - (left + 1) + 1 = maxUnits - left by omega] at hnext
    exact ⟨hguar, ih hguar.inv (by omega) hnext⟩

theorem start_safe (va : Nat) (hinv : s.Inv) (h : Closed s) :
    MonitorSafe (fun ok s => ok = true ∧ Creating maxUnits s) (start va true maxUnits) s := by
  refine Safe.bind (lawful .monitor) hinv ((reset_safe va h).mono fun _ s hinv h => ?_)
  refine Safe.bind (lawful .monitor) hinv ((rebuild_safe workNodes hinv (Nat.le_refl _)
    (by rwa [Nat.sub_self])).mono fun _ s hinv h => ?_)
  refine Safe.bind (lawful .monitor) hinv ((enable_safe h).mono fun _ s hinv h => ?_)
  refine Safe.bind (lawful .monitor) hinv ((startWorkers_safe maxUnits hinv (Nat.le_refl _)
    (by rwa [Nat.sub_self])).mono fun _ s _ h => ?_)
  exact Safe.ret (Safe.stays Creating.stable) (fun _ h _ => ⟨rfl, h⟩) h

/-! ## The loop, and the stop -/

structure Manned (phase : Phase) (s : Async) : Prop where
  phase : s.phase = phase
  built : s.built = true
  workerCount : s.workerCount = maxUnits

theorem Manned.stable {phase : Phase} (h : Manned phase s) (hr : MonitorRely s s') : Manned phase s' :=
  ⟨hr.run.phase.trans h.phase, hr.run.built.trans h.built, hr.run.workerCount.trans h.workerCount⟩

theorem Frame.manned {phase : Phase} (h : Frame s s') (hm : Manned phase s) (hinv : s.Inv)
    (hlists : SameLists s s' ∧ s'.req = s.req) (hbuilt : s'.built = true)
    (hcalls : s.inCall ≠ [] → s'.phase = .running) (hstopped : s'.phase ≠ .stopped) : MonitorGuar s s' :=
  h.guar hinv (fun _ => (hinv.lists hm.built).congr hlists.1 hlists.2) (fun _ _ => hbuilt) hcalls (fun _ => hbuilt)
    fun hp => absurd hp hstopped

theorem wakeAll_safe (k : Nat) : ∀ {s : Async}, s.Inv → Manned .ending s →
    MonitorSafe (fun _ => Manned .ending) (wakeAll k) s := by
  induction k with
  | zero =>
    intro s _ h
    exact Safe.done Manned.stable h
  | succ k ih =>
    intro s hinv h
    refine Safe.bind (lawful .monitor) hinv ((ih hinv h).mono fun _ s _ h => ?_)
    refine Safe.writeLast (Safe.stays Manned.stable) (fun s h hinv _ => ⟨?_, ?_⟩) h
    · refine Frame.manned ⟨fun u => ⟨⟨rfl, fun _ _ => rfl, rfl, rfl, rfl, rfl⟩, ⟨rfl, rfl, rfl⟩⟩, rfl, rfl,
        fun u hu => ?_, rfl, rfl⟩ h hinv ⟨⟨rfl, rfl, rfl, rfl, rfl, rfl, rfl, rfl, rfl⟩, rfl⟩ h.built hinv.calls ?_
      · by_cases huk : u = k
        · rw [huk]
          exact update_self ..
        · exact (update_of_ne huk _ _).trans hu
      · dsimp only
        rw [h.phase]
        exact nofun
    · intro t ht _
      exact Manned.stable (s := { s with subWait := update s.subWait k true })
        { h with } ht

structure Joining (k : Nat) (s : Async) : Prop extends Manned .ending s where
  dead : ∀ u < k, s.alive u = false

theorem Joining.stable {k : Nat} (h : Joining k s) (hr : MonitorRely s s') : Joining k s' :=
  ⟨h.toManned.stable hr, fun u hu => (hr.dead u (h.dead u hu)).1⟩

theorem joinAll_safe (k : Nat) : ∀ {s : Async}, s.Inv → Manned .ending s →
    MonitorSafe (fun _ => Joining k) (joinAll k) s := by
  induction k with
  | zero =>
    intro s _ h
    exact Safe.done Joining.stable ⟨h, nofun⟩
  | succ k ih =>
    intro s hinv h
    refine Safe.bind (lawful .monitor) hinv ((ih hinv h).mono fun _ s _ h => ?_)
    refine Safe.await (Safe.stays Joining.stable) (fun s h hinv hdead _ => ?_) h
    have hdead : s.alive k = false := Bool.not_eq_true' _ ▸ hdead
    refine ⟨(lawful .monitor).still hinv, Safe.done Joining.stable ⟨h.toManned, fun u hu => ?_⟩⟩
    by_cases huk : u = k
    · rw [huk]
      exact hdead
    · exact h.dead u (by omega)

structure Joined (built : Bool) (s : Async) : Prop where
  phase : s.phase = .ending
  built : s.built = built
  dead : ∀ u, s.alive u = false
  served : ∀ u < maxUnits, s.late u = false → Served s u

theorem Joined.stable {built : Bool} (h : Joined built s) (hr : MonitorRely s s') : Joined built s' := by
  refine ⟨hr.run.phase.trans h.phase, hr.run.built.trans h.built, fun u => (hr.dead u (h.dead u)).1, fun u hu hl => ?_⟩
  have hsame := (hr.dead u (h.dead u)).2 hu
  have hquiet := hr.quiet (by rw [h.phase]; exact nofun) u (h.dead u)
  obtain ⟨htransferred, hcompleted⟩ := h.served u hu (hquiet.late.symm.trans hl)
  refine ⟨?_, ?_⟩
  · rw [hsame.transferred, hquiet.accepted]
    exact htransferred
  · rw [hsame.completed, hsame.transferred]
    exact hcompleted

theorem Joining.served (h : Joining maxUnits s) (hinv : s.Inv) {u : Nat} (hu : u < maxUnits) (hl : s.late u = false) :
    Served s u := by
  obtain ⟨hrested, hempty⟩ := hinv.gone u (by rw [h.workerCount]; exact hu) (h.dead u hu)
  refine ⟨?_, hrested.completed⟩
  rw [hrested.transferred, (hinv.lists h.built).accepted u hu, hempty hl, List.map_nil, List.append_nil]

theorem retire_safe (h : Joining maxUnits s) :
    MonitorSafe (fun _ => Joined true) (Prog.write fun s => { s with workerCount := 0 }) s := by
  refine Safe.writeLast (Safe.stays Joining.stable) (fun s h hinv _ => ?_) h
  have hdead : ∀ u, s.alive u = false := by
    intro u
    cases ha : s.alive u with
    | false => rfl
    | true =>
      have hlt := (hinv.alive u ha).1
      rw [h.workerCount] at hlt
      exact absurd ((h.dead u hlt).symm.trans ha) Bool.false_ne_true
  have hjoined : Joined true { s with workerCount := 0 } :=
    ⟨h.phase, h.built, hdead, fun u hu hl => h.served hinv hu hl⟩
  refine ⟨⟨⟨fun hb => (hinv.lists hb).congr ⟨rfl, rfl, rfl, rfl, rfl, rfl, rfl, rfl, rfl⟩ rfl, Nat.zero_le _,
    fun u ha => ?_, hinv.calls, hinv.running, hinv.wake, fun u => ?_, nofun, fun hp => ?_⟩, rfl, rfl, fun u ha => ?_,
    fun u ha ha' => ?_⟩, fun t ht _ => hjoined.stable ht⟩
  · exact absurd ((hdead u).symm.trans ha) Bool.false_ne_true
  · exact (hinv.ordered u).congr ⟨rfl, fun _ _ => rfl, rfl, rfl, rfl, rfl⟩ List.prefix_rfl
  · exact absurd (h.phase.symm.trans hp) nofun
  · exact absurd ((hdead u).symm.trans ha) Bool.false_ne_true
  · exact absurd (ha.symm.trans ha') Bool.false_ne_true

theorem clear_safe (h : Joined true s) : MonitorSafe (fun _ => Joined false) (Prog.write clear) s := by
  refine Safe.writeLast (Safe.stays Joined.stable) (fun s h hinv _ => ?_) h
  have hjoined : Joined false s.clear := { h with built := rfl }
  refine ⟨⟨⟨nofun, hinv.count, fun u ha => ?_, hinv.calls, fun hp => ?_, fun _ _ hq => absurd rfl hq, fun u => ?_,
    fun u hu ha => ?_, fun hp => ?_⟩, rfl, rfl, fun u ha => ?_, fun u ha ha' => ?_⟩, fun t ht _ => hjoined.stable ht⟩
  · exact absurd ((h.dead u).symm.trans ha) Bool.false_ne_true
  · exact absurd (h.phase.symm.trans hp) nofun
  · exact (hinv.ordered u).congr ⟨rfl, fun _ _ => rfl, rfl, rfl, rfl, rfl⟩ List.prefix_rfl
  · have hrested := (hinv.gone u hu ha).1
    exact ⟨{ hrested with }, fun _ => rfl⟩
  · exact absurd (h.phase.symm.trans hp) nofun
  · exact absurd ((h.dead u).symm.trans ha) Bool.false_ne_true
  · exact absurd (ha.symm.trans ha') Bool.false_ne_true

theorem Frame.trivial_lists (s : Async) (va : Nat) : Frame s { s with ioVa := va } :=
  ⟨fun _ => ⟨⟨rfl, fun _ _ => rfl, rfl, rfl, rfl, rfl⟩, ⟨rfl, rfl, rfl⟩⟩, rfl, rfl, fun _ h => h, rfl, rfl⟩

theorem stop_safe (h : Manned .ending s) : MonitorSafe (fun _ => Joined false) stop s := by
  refine Safe.read (lawful .monitor) (Safe.stays Manned.stable) (fun s h hinv => ?_) h
  rw [h.workerCount, if_neg (by decide)]
  refine Safe.write (Safe.stays Manned.stable) (fun s h hinv _ => ?_) h
  have hguar : MonitorGuar s { s with stopping := true } := by
    refine Frame.manned ⟨fun u => ⟨⟨rfl, fun _ _ => rfl, rfl, rfl, rfl, rfl⟩, ⟨rfl, rfl, rfl⟩⟩, rfl, rfl, fun _ h => h,
      rfl, rfl⟩ h hinv ⟨⟨rfl, rfl, rfl, rfl, rfl, rfl, rfl, rfl, rfl⟩, rfl⟩ h.built hinv.calls ?_
    dsimp only
    rw [h.phase]
    exact nofun
  have hstop : Manned .ending { s with stopping := true } := { h with }
  refine ⟨hguar, Safe.bind (lawful .monitor) hguar.inv ((wakeAll_safe maxUnits hguar.inv hstop).mono
    fun _ s hinv h => ?_)⟩
  refine Safe.bind (lawful .monitor) hinv ((joinAll_safe maxUnits hinv h).mono fun _ s hinv h => ?_)
  refine Safe.bind (lawful .monitor) hinv ((retire_safe h).mono fun _ s _ h => ?_)
  refine Safe.write (Safe.stays Joined.stable) (fun s h hinv _ => ⟨?_, ?_⟩) h
  · refine (Frame.trivial_lists s 0).guar hinv (fun _ => ?_) (fun u ha => (hinv.alive u ha).2) hinv.calls
      hinv.running hinv.stopped
    exact (hinv.lists h.built).congr ⟨rfl, rfl, rfl, rfl, rfl, rfl, rfl, rfl, rfl⟩ rfl
  · exact clear_safe { h with }

theorem loopAndStop_safe (h : Creating maxUnits s) : MonitorSafe (fun _ _ => True) loopAndStop s := by
  refine Safe.write (Safe.stays Creating.stable) (fun s h hinv _ => ⟨?_, ?_⟩) h
  · exact Frame.manned ⟨fun u => ⟨⟨rfl, fun _ _ => rfl, rfl, rfl, rfl, rfl⟩, ⟨rfl, rfl, rfl⟩⟩, rfl, rfl, fun _ h => h,
      rfl, rfl⟩ { h with } hinv ⟨⟨rfl, rfl, rfl, rfl, rfl, rfl, rfl, rfl, rfl⟩, rfl⟩ h.built
      (fun _ => rfl) nofun
  refine Safe.await (Safe.stays Manned.stable) (fun s h hinv hempty _ => ?_)
    ⟨rfl, h.built, h.workerCount⟩
  have hnil : s.inCall = [] := List.isEmpty_iff.mp hempty
  have hguar : MonitorGuar s { s with phase := .ending } :=
    Frame.manned ⟨fun u => ⟨⟨rfl, fun _ _ => rfl, rfl, rfl, rfl, rfl⟩, ⟨rfl, rfl, rfl⟩⟩, rfl, rfl, fun _ h => h,
      rfl, rfl⟩ h hinv ⟨⟨rfl, rfl, rfl, rfl, rfl, rfl, rfl, rfl, rfl⟩, rfl⟩ h.built (fun hne => absurd hnil hne) nofun
  have hending : Manned .ending { s with phase := .ending } := ⟨rfl, h.built, h.workerCount⟩
  refine ⟨hguar, Safe.bind (lawful .monitor) hguar.inv ((stop_safe hending).mono fun _ s hinv h => ?_)⟩
  refine Safe.writeLast (Safe.stays Joined.stable) (fun s h hinv _ => ⟨?_, ?_⟩) h
  · have hframe : Frame s { s with phase := .stopped } :=
      ⟨fun u => ⟨⟨rfl, fun _ _ => rfl, rfl, rfl, rfl, rfl⟩, ⟨rfl, rfl, rfl⟩⟩, rfl, rfl, fun _ h => h, rfl, rfl⟩
    refine hframe.guar hinv (fun hb => ?_) (fun u ha => ?_) (fun hne => ?_) nofun fun _ => ⟨h.built, h.served⟩
    · exact absurd (h.built.symm.trans hb) Bool.false_ne_true
    · exact absurd ((h.dead u).symm.trans ha) Bool.false_ne_true
    · exact absurd (h.phase.symm.trans (hinv.calls hne)) nofun
  · exact fun _ _ _ => trivial

theorem run_safe (va : Nat) : MonitorSafe (fun _ _ => True) (run va true maxUnits) s := by
  refine Safe.await Safe.always (fun s _ hinv hstopped _ => ?_) trivial
  have hstopped : s.phase = .stopped := of_decide_eq_true hstopped
  have hb := (hinv.stopped hstopped).1
  have hframe : Frame s { s with phase := .starting } :=
    ⟨fun u => ⟨⟨rfl, fun _ _ => rfl, rfl, rfl, rfl, rfl⟩, ⟨rfl, rfl, rfl⟩⟩, rfl, rfl, fun _ h => h, rfl, rfl⟩
  have hguar : MonitorGuar s { s with phase := .starting } := by
    refine hframe.guar hinv (fun h => ?_) (fun u ha => (hinv.alive u ha).2) (fun hne => ?_) nofun nofun
    · exact absurd (hb.symm.trans h) Bool.false_ne_true
    · exact absurd (hstopped.symm.trans (hinv.calls hne)) nofun
  refine ⟨hguar, Safe.bind (lawful .monitor) hguar.inv ((start_safe va hguar.inv ⟨rfl, hb⟩).mono fun ok s _ h => ?_)⟩
  obtain ⟨rfl, h⟩ := h
  exact loopAndStop_safe h

end MoCoLinux.Cobd.Async
