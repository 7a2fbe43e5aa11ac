import MoCoLinux.Cobd.Lemmas.Async

/-!
# The block workers: the loop of a worker
-/

namespace MoCoLinux.Cobd.Async

open Function
open Threads (Prog)
open Threads.Prog (Safe)

variable {s s' : Async} {u node : Nat}

abbrev WorkerSafe {α : Type} (u : Nat) (Q : α → Async → Prop) (p : Prog Async α) (s : Async) : Prop :=
  p.Safe Inv (contract (.worker u)) (fun _ _ => True) Q s

theorem Inv.worker (hinv : s.Inv) (ha : s.alive u = true) : u < maxUnits ∧ s.built = true ∧ Lists s := by
  obtain ⟨hlt, hb⟩ := hinv.alive u ha
  exact ⟨Nat.lt_of_lt_of_le hlt hinv.count, hb, hinv.lists hb⟩

theorem Inv.worker_phase (hinv : s.Inv) (ha : s.alive u = true) : s.phase ≠ .stopped := by
  intro hp
  have hb := (hinv.alive u ha).2
  rw [(hinv.stopped hp).1] at hb
  cases hb

structure Looking (u : Nat) (s : Async) : Prop where
  alive : s.alive u = true
  rested : Rested u s

structure Idle (u : Nat) (s : Async) : Prop where
  alive : s.alive u = true
  held : s.held u = none
  transferred : (s.transferred u).map Prod.fst = s.popped u
  completed : s.completed u = (s.transferred u).map report
  empty : s.late u = false → s.queue u = []

structure Popped (u node : Nat) (s : Async) : Prop where
  alive : s.alive u = true
  held : s.held u = some node
  popped : s.popped u = (s.transferred u).map Prod.fst ++ [s.req node]
  completed : s.completed u = (s.transferred u).map report
  awake : s.sleepy u = false

structure Moved (u node result : Nat) (s : Async) : Prop where
  alive : s.alive u = true
  held : s.held u = some node
  transferred : (s.transferred u).map Prod.fst = s.popped u
  completed : (s.transferred u).map report = s.completed u ++ [((s.req node).unit, (s.req node).tag, result)]
  awake : s.sleepy u = false

structure Finished (u node : Nat) (s : Async) : Prop where
  alive : s.alive u = true
  held : s.held u = some node
  transferred : (s.transferred u).map Prod.fst = s.popped u
  completed : s.completed u = (s.transferred u).map report
  awake : s.sleepy u = false

theorem Looking.stable (h : Looking u s) (hr : WorkerRely u s s') : Looking u s' :=
  ⟨(hr.busy h.alive).1, (hr.busy h.alive).2.1.rested h.rested⟩

theorem Idle.stable (h : Idle u s) (hr : WorkerRely u s s') : Idle u s' := by
  obtain ⟨ha, hsame, hlate⟩ := hr.busy h.alive
  refine ⟨ha, hsame.held.trans h.held, ?_, ?_, fun hl => ?_⟩
  · rw [hsame.transferred, hsame.popped]
    exact h.transferred
  · rw [hsame.completed, hsame.transferred]
    exact h.completed
  · obtain ⟨hl', hq⟩ := hlate hl
    rw [hq]
    exact h.empty hl'

theorem Popped.stable (h : Popped u node s) (hr : WorkerRely u s s') : Popped u node s' := by
  obtain ⟨ha, hsame, -⟩ := hr.busy h.alive
  refine ⟨ha, hsame.held.trans h.held, ?_, ?_, hsame.sleepy.trans h.awake⟩
  · rw [hsame.popped, hsame.transferred, hsame.req node h.held]
    exact h.popped
  · rw [hsame.completed, hsame.transferred]
    exact h.completed

theorem Moved.stable {result : Nat} (h : Moved u node result s) (hr : WorkerRely u s s') :
    Moved u node result s' := by
  obtain ⟨ha, hsame, -⟩ := hr.busy h.alive
  refine ⟨ha, hsame.held.trans h.held, ?_, ?_, hsame.sleepy.trans h.awake⟩
  · rw [hsame.transferred, hsame.popped]
    exact h.transferred
  · rw [hsame.completed, hsame.transferred, hsame.req node h.held]
    exact h.completed

theorem Finished.stable (h : Finished u node s) (hr : WorkerRely u s s') : Finished u node s' := by
  obtain ⟨ha, hsame, -⟩ := hr.busy h.alive
  refine ⟨ha, hsame.held.trans h.held, ?_, ?_, hsame.sleepy.trans h.awake⟩
  · rw [hsame.transferred, hsame.popped]
    exact h.transferred
  · rw [hsame.completed, hsame.transferred]
    exact h.completed

theorem WorkerGuar.step (hinv : s.Inv) (ha : s.alive u = true) (hrun : SameRun s s') (hcall : s'.inCall = s.inCall)
    (hsignal : s'.signaller = s.signaller) (halive : ∀ v, v ≠ u → s'.alive v = s.alive v)
    (hothers : ∀ v, v ≠ u → SameUnit v s s' ∧ Quiet v s s' ∧ s'.subWait v = s.subWait v) (hlists : Lists s')
    (hwake : s'.sleepy u = true → s'.queue u ≠ [] → s'.subWait u = true ∨ ∃ n, s'.signaller n = some u)
    (hordered : Ordered u s')
    (hgone : s'.alive u = false → Rested u s' ∧ (s'.late u = false → s'.queue u = [])) : WorkerGuar u s s' := by
  have hphase := hinv.worker_phase ha
  refine ⟨⟨fun _ => hlists, ?_, fun v hv => ?_, ?_, ?_, fun v hs hq => ?_, fun v => ?_, fun v hv hd => ?_, fun hp => ?_⟩,
    .inl ha, hrun, hcall, hsignal, halive, fun v hv => ⟨(hothers v hv).1, (hothers v hv).2.1⟩⟩
  · rw [hrun.workerCount]
    exact hinv.count
  · rw [hrun.workerCount, hrun.built]
    by_cases hvu : v = u
    · rw [hvu]
      exact hinv.alive u ha
    · exact hinv.alive v (by rw [← halive v hvu]; exact hv)
  · rw [hcall, hrun.phase]
    exact hinv.calls
  · rw [hrun.phase, hrun.built]
    exact hinv.running
  · by_cases hvu : v = u
    · subst hvu
      exact hwake hs hq
    · obtain ⟨hsame, hquiet, hwait⟩ := hothers v hvu
      rw [hsame.sleepy] at hs
      rw [hquiet.queue] at hq
      rw [hwait, hsignal]
      exact hinv.wake v hs hq
  · by_cases hvu : v = u
    · subst hvu
      exact hordered
    · obtain ⟨hsame, hquiet, -⟩ := hothers v hvu
      exact (hinv.ordered v).congr hsame ⟨[], by rw [List.append_nil, hquiet.accepted]⟩
  · by_cases hvu : v = u
    · subst hvu
      exact hgone hd
    · obtain ⟨hsame, hquiet, -⟩ := hothers v hvu
      obtain ⟨hrested, hempty⟩ := hinv.gone v (by rw [← hrun.workerCount]; exact hv) (by rw [← halive v hvu]; exact hd)
      rw [hquiet.late, hquiet.queue]
      exact ⟨hsame.rested hrested, hempty⟩
  · exact absurd (hrun.phase.symm.trans hp) hphase

theorem update_other {α : Type} {v : Nat} {f : Nat → α} {a : α} (h : v ≠ u) : update f u a v = f v :=
  update_of_ne h _ _

theorem popNone_guar (h : Looking u s) (hinv : s.Inv) (hq : s.queue u = []) : WorkerGuar u s (s.popNone u) := by
  refine .step hinv h.alive ⟨rfl, rfl, rfl⟩ rfl rfl (fun _ _ => rfl) (fun v hv => ⟨?_, ?_, rfl⟩) ?_
    (fun _ hne => absurd hq hne) ?_ fun hd => ?_
  · exact ⟨rfl, fun _ _ => rfl, rfl, rfl, rfl, update_other hv⟩
  · exact ⟨rfl, update_other hv, rfl⟩
  · exact (hinv.worker h.alive).2.2.congr ⟨rfl, rfl, rfl, rfl, rfl, rfl, rfl, rfl, rfl⟩ rfl
  · exact { hinv.ordered u with }
  · exact absurd (h.alive.symm.trans hd) Bool.true_eq_false.mp

theorem Lists.pop (h : Lists s) (hu : u < maxUnits) (hheld : s.held u = none) (hhead : s.fifoHead u = some node) :
    Lists (s.popNode u node) := by
  have hqueue := h.queue u hu
  rw [hhead] at hqueue
  obtain ⟨hq, hrest⟩ := hqueue.dequeue
  refine ⟨h.free, fun v hv => ?_, ?_, fun v hv => ?_⟩
  · by_cases hvu : v = u
    · subst hvu
      simp only [popNode, update_self]
      exact hrest
    · simp only [popNode, update_of_ne hvu]
      exact h.queue v hv
  · refine List.perm_iff_count.mpr fun a => ?_
    have hcount := h.count a
    have hqueues := LinkedList.count_flatMap_update (List.nodup_range (n := maxUnits)) (List.mem_range.mpr hu)
      s.queue (s.queue u).tail a
    have hhelds := LinkedList.count_flatMap_update (List.nodup_range (n := maxUnits)) (List.mem_range.mpr hu)
      (fun v => (s.held v).toList) [node] a
    have hsplit : (s.queue u).count a = (s.queue u).tail.count a + [node].count a := by
      rw [hq, List.tail_cons, ← List.singleton_append, List.count_append, Nat.add_comm]
    rw [hheld, Option.toList_none, List.count_nil] at hhelds
    rw [List.count_append, List.count_append]
    simp only [popNode, held_update, Option.toList_some]
    omega
  · by_cases hvu : v = u
    · subst hvu
      simp only [popNode, update_self]
      rw [h.accepted v hv, List.append_assoc]
      conv_lhs => rw [hq]
      rfl
    · simp only [popNode, update_of_ne hvu]
      exact h.accepted v hv

theorem popNode_guar (h : Looking u s) (hinv : s.Inv) (hhead : s.fifoHead u = some node) :
    WorkerGuar u s (s.popNode u node) ∧ Popped u node (s.popNode u node) := by
  obtain ⟨hu, -, hlists⟩ := hinv.worker h.alive
  have hpop := hlists.pop hu h.rested.held hhead
  have hpopped : (s.popNode u node).popped u = s.popped u ++ [s.req node] := update_self ..
  constructor
  · refine .step hinv h.alive ⟨rfl, rfl, rfl⟩ rfl rfl (fun _ _ => rfl) (fun v hv => ⟨?_, ?_, rfl⟩) hpop
      (fun hs => ?_) ⟨(hinv.ordered u).completed, ?_, ?_⟩ fun hd => ?_
    · exact ⟨update_other hv, fun _ _ => rfl, update_other hv, rfl, rfl, rfl⟩
    · exact ⟨rfl, update_other hv, update_other hv⟩
    · exact absurd (h.rested.awake.symm.trans hs) Bool.false_ne_true
    · rw [hpopped]
      exact (hinv.ordered u).transferred.trans (List.prefix_append _ _)
    · rw [hpop.accepted u hu]
      exact List.prefix_append _ _
    · exact absurd (h.alive.symm.trans hd) Bool.true_eq_false.mp
  · refine ⟨h.alive, update_self .., ?_, h.rested.completed, h.rested.awake⟩
    rw [hpopped, ← h.rested.transferred]
    rfl

theorem sleep_safe (h : Idle u s) : WorkerSafe u (fun _ s => s.alive u = true → Rested u s) (sleep u) s := by
  refine Safe.await (Safe.stays Idle.stable) (fun s h hinv _ _ => ?_) h
  have hrested : Rested u { s with subWait := update s.subWait u false,
                                   sleepy := update s.sleepy u false } :=
    { h with awake := update_self .. }
  refine ⟨.step hinv h.alive ⟨rfl, rfl, rfl⟩ rfl rfl (fun _ _ => rfl) (fun v hv => ⟨?_, ⟨rfl, rfl, rfl⟩, update_other hv⟩) ?_
    (fun hs => ?_) ?_ fun hd => ?_, fun t ht _ ha => ?_⟩
  · exact ⟨rfl, fun _ _ => rfl, rfl, rfl, rfl, update_other hv⟩
  · exact (hinv.worker h.alive).2.2.congr ⟨rfl, rfl, rfl, rfl, rfl, rfl, rfl, rfl, rfl⟩ rfl
  · exact absurd (hrested.awake.symm.trans hs) Bool.false_ne_true
  · exact { hinv.ordered u with }
  · exact absurd (h.alive.symm.trans hd) Bool.true_eq_false.mp
  · exact (ht.busy h.alive).2.1.rested hrested

theorem leave_safe (h : Idle u s) : WorkerSafe u (fun _ s => s.alive u = true → Rested u s) (leave u) s := by
  refine Safe.writeLast (Safe.stays Idle.stable) (fun s h hinv _ => ?_) h
  have hdead : update s.alive u false u = false := update_self ..
  have hrested : Rested u { s with alive := update s.alive u false,
                                   sleepy := update s.sleepy u false } :=
    { h with awake := update_self .. }
  refine ⟨.step hinv h.alive ⟨rfl, rfl, rfl⟩ rfl rfl (fun v hv => update_other hv)
    (fun v hv => ⟨?_, ⟨rfl, rfl, rfl⟩, rfl⟩) ?_ (fun hs => ?_) ?_ fun _ => ⟨hrested, h.empty⟩, fun t ht _ ha => ?_⟩
  · exact ⟨rfl, fun _ _ => rfl, rfl, rfl, rfl, update_other hv⟩
  · exact (hinv.worker h.alive).2.2.congr ⟨rfl, rfl, rfl, rfl, rfl, rfl, rfl, rfl, rfl⟩ rfl
  · exact absurd (hrested.awake.symm.trans hs) Bool.false_ne_true
  · exact { hinv.ordered u with }
  · exact ht.born hdead ha

theorem rest_safe (h : Idle u s) : WorkerSafe u (fun _ s => s.alive u = true → Rested u s) (rest u) s := by
  refine Safe.read (lawful (.worker u)) (Safe.stays Idle.stable) (fun s h _ => ?_) h
  cases s.stopping with
  | true => exact leave_safe h
  | false => exact sleep_safe h

theorem transfer_safe (result : Nat) (h : Popped u node s) :
    WorkerSafe u (fun _ => Moved u node result) (transfer u node result) s := by
  refine Safe.writeLast (Safe.stays Popped.stable) (fun s h hinv _ => ?_) h
  have htransferred : update s.transferred u (s.transferred u ++ [(s.req node, result)]) u =
      s.transferred u ++ [(s.req node, result)] := update_self ..
  have hmoved : Moved u node result
      { s with transferred := update s.transferred u (s.transferred u ++ [(s.req node, result)]) } := by
    refine ⟨h.alive, h.held, ?_, ?_, h.awake⟩
    · dsimp only
      rw [htransferred, h.popped, List.map_append]
      rfl
    · dsimp only
      rw [htransferred, h.completed, List.map_append]
      rfl
  refine ⟨.step hinv h.alive ⟨rfl, rfl, rfl⟩ rfl rfl (fun _ _ => rfl) (fun v hv => ⟨?_, ⟨rfl, rfl, rfl⟩, rfl⟩) ?_
    (fun hs => ?_) ⟨?_, ?_, (hinv.ordered u).popped⟩ fun hd => ?_, fun t ht _ => hmoved.stable ht⟩
  · exact ⟨rfl, fun _ _ => rfl, rfl, update_other hv, rfl, rfl⟩
  · exact (hinv.worker h.alive).2.2.congr ⟨rfl, rfl, rfl, rfl, rfl, rfl, rfl, rfl, rfl⟩ rfl
  · exact absurd (h.awake.symm.trans hs) Bool.false_ne_true
  · rw [hmoved.completed]
    exact List.prefix_append _ _
  · exact ⟨[], by rw [List.append_nil]; exact hmoved.transferred⟩
  · exact absurd (h.alive.symm.trans hd) Bool.true_eq_false.mp

theorem countError_safe (result : Nat) (h : Moved u node result s) :
    WorkerSafe u (fun _ => Moved u node result) (countError result) s := by
  unfold countError
  split
  · exact Safe.done Moved.stable h
  refine Safe.writeLast (Safe.stays Moved.stable) (fun s h hinv _ => ?_) h
  have hmoved : Moved u node result { s with errors := ulong (s.errors + 1) } :=
    { h with }
  refine ⟨.step hinv h.alive ⟨rfl, rfl, rfl⟩ rfl rfl (fun _ _ => rfl) (fun v _ => ⟨?_, ⟨rfl, rfl, rfl⟩, rfl⟩) ?_
    (hinv.wake u) ?_ fun hd => ?_, fun t ht _ => hmoved.stable ht⟩
  · exact ⟨rfl, fun _ _ => rfl, rfl, rfl, rfl, rfl⟩
  · exact (hinv.worker h.alive).2.2.congr ⟨rfl, rfl, rfl, rfl, rfl, rfl, rfl, rfl, rfl⟩ rfl
  · exact { hinv.ordered u with }
  · exact absurd (h.alive.symm.trans hd) Bool.true_eq_false.mp

theorem complete_safe {result : Nat} (h : Moved u node result s) :
    WorkerSafe u (fun _ => Finished u node) (complete u node result) s := by
  refine Safe.writeLast (Safe.stays Moved.stable) (fun s h hinv _ => ?_) h
  have hcompleted : update s.completed u
      (s.completed u ++ [((s.req node).unit, (s.req node).tag, result)]) u = (s.transferred u).map report := by
    rw [h.completed, update_self]
  have hfinished : Finished u node { s with
      completed := update s.completed u
        (s.completed u ++ [((s.req node).unit, (s.req node).tag, result)]) } :=
    { h with completed := hcompleted }
  refine ⟨.step hinv h.alive ⟨rfl, rfl, rfl⟩ rfl rfl (fun _ _ => rfl) (fun v hv => ⟨?_, ⟨rfl, rfl, rfl⟩, rfl⟩) ?_
    (hinv.wake u) ⟨?_, (hinv.ordered u).transferred, (hinv.ordered u).popped⟩ fun hd => ?_,
    fun t ht _ => hfinished.stable ht⟩
  · exact ⟨rfl, fun _ _ => rfl, rfl, rfl, update_other hv, rfl⟩
  · exact (hinv.worker h.alive).2.2.congr ⟨rfl, rfl, rfl, rfl, rfl, rfl, rfl, rfl, rfl⟩ rfl
  · exact ⟨[], by rw [List.append_nil]; exact hcompleted⟩
  · exact absurd (h.alive.symm.trans hd) Bool.true_eq_false.mp

theorem Lists.giveBack (h : Lists s) (hu : u < maxUnits) (hheld : s.held u = some node) :
    Lists { s with
      next := update s.next node s.freeList
      freeList := some node
      free := node :: s.free
      held := update s.held u none } := by
  obtain ⟨hfree, hqueue⟩ := h.held_node hu hheld
  refine ⟨h.free.cons hfree, fun v hv => (h.queue v hv).update (hqueue v hv) _, ?_, h.accepted⟩
  refine List.perm_iff_count.mpr fun a => ?_
  have hcount := h.count a
  have hhelds := LinkedList.count_flatMap_update (List.nodup_range (n := maxUnits)) (List.mem_range.mpr hu)
    (fun v => (s.held v).toList) [] a
  rw [hheld, Option.toList_some, List.count_nil] at hhelds
  rw [List.count_append, List.count_append, ← List.singleton_append, List.count_append]
  simp only [held_update, Option.toList_none]
  omega

theorem nodeFree_safe (h : Finished u node s) :
    WorkerSafe u (fun _ s => s.alive u = true → Rested u s) (nodeFree u node) s := by
  refine Safe.writeLast (Safe.stays Finished.stable) (fun s h hinv _ => ?_) h
  obtain ⟨hu, -, hlists⟩ := hinv.worker h.alive
  have hrested : Rested u { s with
      next := update s.next node s.freeList
      freeList := some node
      free := node :: s.free
      held := update s.held u none } :=
    { h with held := update_self .. }
  refine ⟨.step hinv h.alive ⟨rfl, rfl, rfl⟩ rfl rfl (fun _ _ => rfl) (fun v hv => ⟨?_, ⟨rfl, rfl, rfl⟩, rfl⟩)
    (hlists.giveBack hu h.held) (hinv.wake u) ?_ fun hd => ?_, fun t ht _ _ => (ht.busy h.alive).2.1.rested hrested⟩
  · exact ⟨update_other hv, fun _ _ => rfl, rfl, rfl, rfl, rfl⟩
  · exact { hinv.ordered u with }
  · exact absurd (h.alive.symm.trans hd) Bool.true_eq_false.mp

theorem serve_safe (hinv : s.Inv) (h : Popped u node s) :
    WorkerSafe u (fun _ s => s.alive u = true → Rested u s) (serve u node) s := by
  refine Safe.pick fun works => ?_
  generalize (if works = 0 then 1 else 0) = result
  refine Safe.bind (lawful (.worker u)) hinv ((transfer_safe result h).mono fun _ s hinv h => ?_)
  refine Safe.bind (lawful (.worker u)) hinv ((countError_safe result h).mono fun _ s hinv h => ?_)
  exact Safe.bind (lawful (.worker u)) hinv ((complete_safe h).mono fun _ s _ h => nodeFree_safe h)

theorem turn_safe (ha : s.alive u = true) (hidle : s.alive u = true → Rested u s) :
    WorkerSafe u (fun _ s => s.alive u = true → Rested u s) (turn u) s := by
  refine Safe.act (Safe.stays Looking.stable) (fun s r t h hinv hf _ => ?_) ⟨ha, hidle ha⟩
  obtain ⟨hu, -, hlists⟩ := hinv.worker h.alive
  have hqueue := hlists.queue u hu
  cases hhead : s.fifoHead u with
  | none =>
    rw [hhead] at hf hqueue
    cases hf
    have hq := hqueue.chain.eq_nil
    refine ⟨popNone_guar h hinv hq, rest_safe ?_⟩
    exact ⟨h.alive, h.rested.held, h.rested.transferred, h.rested.completed, fun _ => hq⟩
  | some node =>
    rw [hhead] at hf
    cases hf
    obtain ⟨hguar, hpopped⟩ := popNode_guar h hinv hhead
    exact ⟨hguar, serve_safe hguar.inv hpopped⟩

end MoCoLinux.Cobd.Async
