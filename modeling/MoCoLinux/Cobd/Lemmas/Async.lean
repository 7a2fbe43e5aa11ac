import Mathlib.Data.List.Nodup
import MoCoLinux.Cobd.Async

/-!
# The block workers: invariant and contracts
-/

namespace MoCoLinux.Cobd.Async

open Function
open Threads (Contract)

structure Rested (u : Nat) (s : Async) : Prop where
  held : s.held u = none
  transferred : (s.transferred u).map Prod.fst = s.popped u
  completed : s.completed u = (s.transferred u).map report
  awake : s.sleepy u = false

structure Lists (s : Async) : Prop where
  free : LinkedList.Chain s.next s.freeList s.free
  queue : ∀ u < maxUnits, LinkedList.Queue s.next (s.fifoHead u) (s.fifoTail u) (s.queue u)
  parts : (s.free ++ (List.range maxUnits).flatMap s.queue ++
    (List.range maxUnits).flatMap fun u => (s.held u).toList).Perm (List.range workNodes)
  accepted : ∀ u < maxUnits, s.accepted u = s.popped u ++ (s.queue u).map s.req

structure Ordered (u : Nat) (s : Async) : Prop where
  completed : s.completed u <+: (s.transferred u).map report
  transferred : (s.transferred u).map Prod.fst <+: s.popped u
  popped : s.popped u <+: s.accepted u

structure Inv (s : Async) : Prop where
  lists : s.built = true → Lists s
  count : s.workerCount ≤ maxUnits
  alive : ∀ u, s.alive u = true → u < s.workerCount ∧ s.built = true
  calls : s.inCall ≠ [] → s.phase = .running
  running : s.phase = .running → s.built = true
  wake : ∀ u, s.sleepy u = true → s.queue u ≠ [] → s.subWait u = true ∨ ∃ n, s.signaller n = some u
  ordered : ∀ u, Ordered u s
  gone : ∀ u < s.workerCount, s.alive u = false → Rested u s ∧ (s.late u = false → s.queue u = [])
  stopped : s.phase = .stopped → s.built = false ∧ ∀ u < maxUnits, s.late u = false → Served s u

variable {s s' s'' : Async} {u v n : Nat}

structure SameUnit (u : Nat) (s s' : Async) : Prop where
  held : s'.held u = s.held u
  req : ∀ node, s.held u = some node → s'.req node = s.req node
  popped : s'.popped u = s.popped u
  transferred : s'.transferred u = s.transferred u
  completed : s'.completed u = s.completed u
  sleepy : s'.sleepy u = s.sleepy u

structure SameLists (s s' : Async) : Prop where
  next : s'.next = s.next
  freeList : s'.freeList = s.freeList
  free : s'.free = s.free
  fifoHead : s'.fifoHead = s.fifoHead
  fifoTail : s'.fifoTail = s.fifoTail
  queue : s'.queue = s.queue
  held : s'.held = s.held
  accepted : s'.accepted = s.accepted
  popped : s'.popped = s.popped

structure SameRun (s s' : Async) : Prop where
  phase : s'.phase = s.phase
  built : s'.built = s.built
  workerCount : s'.workerCount = s.workerCount

structure Quiet (u : Nat) (s s' : Async) : Prop where
  accepted : s'.accepted u = s.accepted u
  late : s'.late u = s.late u
  queue : s'.queue u = s.queue u

structure WorkerRely (u : Nat) (s s' : Async) : Prop where
  busy : s.alive u = true → s'.alive u = true ∧ SameUnit u s s' ∧
    (s'.late u = false → s.late u = false ∧ s'.queue u = s.queue u)
  born : s.alive u = false → s'.alive u = true → Rested u s'

structure WorkerGuar (u : Nat) (s s' : Async) : Prop where
  inv : s'.Inv
  own : s.alive u = true ∨ s' = s
  run : SameRun s s'
  inCall : s'.inCall = s.inCall
  signaller : s'.signaller = s.signaller
  alive : ∀ v, v ≠ u → s'.alive v = s.alive v
  others : ∀ v, v ≠ u → SameUnit v s s' ∧ Quiet v s s'

structure VcpuRely (n : Nat) (s s' : Async) : Prop where
  inCall : s'.inCall.count n = s.inCall.count n
  signaller : s'.signaller n = s.signaller n

structure VcpuGuar (n : Nat) (s s' : Async) : Prop where
  inv : s'.Inv
  run : SameRun s s'
  alive : s'.alive = s.alive
  units : ∀ u < maxUnits, SameUnit u s s'
  late : ∀ u, s'.late u = false → s.late u = false ∧ s'.queue u = s.queue u
  inCall : ∀ m, m ≠ n → s'.inCall.count m = s.inCall.count m
  signaller : ∀ m, m ≠ n → s'.signaller m = s.signaller m
  quiet : s.phase ≠ .running → SameLists s s' ∧ ∀ u, Quiet u s s'

structure MonitorRely (s s' : Async) : Prop where
  run : SameRun s s'
  dead : ∀ u, s.alive u = false → s'.alive u = false ∧ (u < maxUnits → SameUnit u s s')
  quiet : s.phase ≠ .running → ∀ u, s.alive u = false → Quiet u s s'
  lists : s.built = false → SameLists s s'

structure MonitorGuar (s s' : Async) : Prop where
  inv : s'.Inv
  inCall : s'.inCall = s.inCall
  signaller : s'.signaller = s.signaller
  busy : ∀ u, s.alive u = true → s'.alive u = true ∧ SameUnit u s s' ∧ Quiet u s s'
  born : ∀ u, s.alive u = false → s'.alive u = true → Rested u s'

def contract : Party → Contract Async
  | .monitor => ⟨MonitorRely, MonitorGuar, fun _ => True⟩
  | .worker u => ⟨WorkerRely u, WorkerGuar u, fun s => s.alive u = true → Rested u s⟩
  | .vcpu n => ⟨VcpuRely n, VcpuGuar n, fun s => s.inCall.count n = 0 ∧ s.signaller n = none⟩

theorem SameUnit.refl (u : Nat) (s : Async) : SameUnit u s s := ⟨rfl, fun _ _ => rfl, rfl, rfl, rfl, rfl⟩

theorem SameUnit.trans (h : SameUnit u s s') (h' : SameUnit u s' s'') : SameUnit u s s'' where
  held := h'.held.trans h.held
  req node hn := (h'.req node (by rw [h.held]; exact hn)).trans (h.req node hn)
  popped := h'.popped.trans h.popped
  transferred := h'.transferred.trans h.transferred
  completed := h'.completed.trans h.completed
  sleepy := h'.sleepy.trans h.sleepy

theorem SameUnit.rested (h : SameUnit u s s') (hr : Rested u s) : Rested u s' := by
  refine ⟨h.held.trans hr.held, ?_, ?_, h.sleepy.trans hr.awake⟩
  · rw [h.transferred, h.popped]
    exact hr.transferred
  · rw [h.completed, h.transferred]
    exact hr.completed

theorem Ordered.congr (h : Ordered u s) (hsame : SameUnit u s s') (ha : s.accepted u <+: s'.accepted u) :
    Ordered u s' := by
  refine ⟨?_, ?_, ?_⟩
  · rw [hsame.completed, hsame.transferred]
    exact h.completed
  · rw [hsame.transferred, hsame.popped]
    exact h.transferred
  · rw [hsame.popped]
    exact h.popped.trans ha

theorem Lists.congr (h : Lists s) (hsame : SameLists s s') (hreq : s'.req = s.req) : Lists s' := by
  obtain ⟨hfree, hqueue, hparts, haccepted⟩ := h
  refine ⟨?_, fun u hu => ?_, ?_, fun u hu => ?_⟩
  · rw [hsame.next, hsame.freeList, hsame.free]
    exact hfree
  · rw [hsame.next, hsame.fifoHead, hsame.fifoTail, hsame.queue]
    exact hqueue u hu
  · rw [hsame.free, hsame.queue, hsame.held]
    exact hparts
  · rw [hsame.accepted, hsame.popped, hsame.queue, hreq]
    exact haccepted u hu

theorem SameLists.refl (s : Async) : SameLists s s := ⟨rfl, rfl, rfl, rfl, rfl, rfl, rfl, rfl, rfl⟩

theorem SameLists.trans (h : SameLists s s') (h' : SameLists s' s'') : SameLists s s'' :=
  ⟨h'.next.trans h.next, h'.freeList.trans h.freeList, h'.free.trans h.free, h'.fifoHead.trans h.fifoHead,
    h'.fifoTail.trans h.fifoTail, h'.queue.trans h.queue, h'.held.trans h.held, h'.accepted.trans h.accepted,
    h'.popped.trans h.popped⟩

theorem SameRun.refl (s : Async) : SameRun s s := ⟨rfl, rfl, rfl⟩

theorem SameRun.trans (h : SameRun s s') (h' : SameRun s' s'') : SameRun s s'' :=
  ⟨h'.phase.trans h.phase, h'.built.trans h.built, h'.workerCount.trans h.workerCount⟩

theorem Quiet.refl (u : Nat) (s : Async) : Quiet u s s := ⟨rfl, rfl, rfl⟩

theorem Quiet.trans (h : Quiet u s s') (h' : Quiet u s' s'') : Quiet u s s'' :=
  ⟨h'.accepted.trans h.accepted, h'.late.trans h.late, h'.queue.trans h.queue⟩

theorem WorkerRely.refl (u : Nat) (s : Async) : WorkerRely u s s :=
  ⟨fun h => ⟨h, .refl u s, fun hl => ⟨hl, rfl⟩⟩, fun h h' => by rw [h] at h'; cases h'⟩

theorem WorkerRely.trans (h : WorkerRely u s s') (h' : WorkerRely u s' s'') : WorkerRely u s s'' := by
  constructor
  · intro ha
    obtain ⟨ha', hsame, hlate⟩ := h.busy ha
    obtain ⟨ha'', hsame', hlate'⟩ := h'.busy ha'
    refine ⟨ha'', hsame.trans hsame', fun hl => ?_⟩
    obtain ⟨hl', hq'⟩ := hlate' hl
    obtain ⟨hl, hq⟩ := hlate hl'
    exact ⟨hl, hq'.trans hq⟩
  · intro ha ha''
    cases ha' : s'.alive u with
    | true => exact (h'.busy ha').2.1.rested (h.born ha ha')
    | false => exact h'.born ha' ha''

theorem MonitorRely.trans (h : MonitorRely s s') (h' : MonitorRely s' s'') : MonitorRely s s'' := by
  refine ⟨h.run.trans h'.run, fun u ha => ?_, fun hp u ha => ?_, fun hb => ?_⟩
  · obtain ⟨ha', hsame⟩ := h.dead u ha
    obtain ⟨ha'', hsame'⟩ := h'.dead u ha'
    exact ⟨ha'', fun hu => (hsame hu).trans (hsame' hu)⟩
  · exact (h.quiet hp u ha).trans (h'.quiet (by rwa [h.run.phase]) u (h.dead u ha).1)
  · exact (h.lists hb).trans (h'.lists (by rwa [h.run.built]))

theorem lawful (p : Party) : (contract p).Lawful Inv := by
  cases p with
  | monitor =>
    refine ⟨fun s => ?_, MonitorRely.trans, fun {s} h => ?_, fun _ h => h.inv, fun _ _ _ => trivial⟩
    · exact ⟨.refl s, fun u h => ⟨h, fun _ => .refl u s⟩, fun _ u _ => .refl u s, fun _ => .refl s⟩
    · exact ⟨h, rfl, rfl, fun u ha => ⟨ha, .refl u s, .refl u s⟩, fun u ha ha' => by rw [ha] at ha'; cases ha'⟩
  | worker u =>
    refine ⟨WorkerRely.refl u, WorkerRely.trans, fun {s} h => ?_, fun _ h => h.inv, fun {s s'} hidle hr _ ha' => ?_⟩
    · exact ⟨h, .inr rfl, .refl s, rfl, rfl, fun _ _ => rfl, fun v _ => ⟨.refl v s, .refl v s⟩⟩
    · cases ha : s.alive u with
      | true => exact (hr.busy ha).2.1.rested (hidle ha)
      | false => exact hr.born ha ha'
  | vcpu n =>
    refine ⟨fun s => ⟨rfl, rfl⟩, fun h h' => ⟨h'.inCall.trans h.inCall, h'.signaller.trans h.signaller⟩,
      fun {s} h => ?_, fun _ h => h.inv, fun hidle hr _ => ?_⟩
    · exact ⟨h, .refl s, rfl, fun u _ => .refl u s, fun _ hl => ⟨hl, rfl⟩, fun _ _ => rfl, fun _ _ => rfl,
        fun _ => ⟨.refl s, fun u => .refl u s⟩⟩
    · exact ⟨hr.inCall.trans hidle.1, hr.signaller.trans hidle.2⟩

variable {q : Party}

theorem MonitorGuar.fits (h : MonitorGuar s s') (hq : Party.monitor ≠ q) : (contract q).rely s s' := by
  cases q with
  | monitor => exact absurd rfl hq
  | worker u =>
    refine ⟨fun ha => ?_, h.born u⟩
    obtain ⟨ha', hsame, hquiet⟩ := h.busy u ha
    exact ⟨ha', hsame, fun hl => ⟨hquiet.late.symm.trans hl, hquiet.queue⟩⟩
  | vcpu n => exact ⟨by rw [h.inCall], by rw [h.signaller]⟩

theorem WorkerGuar.fits (h : WorkerGuar u s s') (hinv : s.Inv) (hq : Party.worker u ≠ q) :
    (contract q).rely s s' := by
  rcases h.own with hown | rfl
  swap
  · exact (lawful q).refl _
  cases q with
  | monitor =>
    have hne : ∀ v, s.alive v = false → v ≠ u := by
      rintro v hv rfl
      rw [hown] at hv
      cases hv
    refine ⟨h.run, fun v hv => ?_, fun _ v hv => (h.others v (hne v hv)).2, fun hb => ?_⟩
    · rw [h.alive v (hne v hv)]
      exact ⟨hv, fun _ => (h.others v (hne v hv)).1⟩
    · rw [(hinv.alive u hown).2] at hb
      cases hb
  | worker v =>
    have hvu : v ≠ u := fun hvu => hq (congrArg Party.worker hvu.symm)
    obtain ⟨hsame, hquiet⟩ := h.others v hvu
    refine ⟨fun ha => ⟨(h.alive v hvu).trans ha, hsame, fun hl => ?_⟩, fun ha ha' => ?_⟩
    · exact ⟨hquiet.late.symm.trans hl, hquiet.queue⟩
    · rw [h.alive v hvu, ha] at ha'
      cases ha'
  | vcpu n => exact ⟨by rw [h.inCall], by rw [h.signaller]⟩

theorem VcpuGuar.fits (h : VcpuGuar n s s') (hinv : s.Inv) (hq : Party.vcpu n ≠ q) :
    (contract q).rely s s' := by
  cases q with
  | monitor =>
    refine ⟨h.run, fun u ha => ⟨by rw [h.alive]; exact ha, h.units u⟩, fun hp u _ => (h.quiet hp).2 u,
      fun hb => (h.quiet fun hp => ?_).1⟩
    rw [hinv.running hp] at hb
    cases hb
  | worker u =>
    refine ⟨fun ha => ⟨by rw [h.alive]; exact ha, h.units u ?_, h.late u⟩, fun ha ha' => ?_⟩
    · exact Nat.lt_of_lt_of_le (hinv.alive u ha).1 hinv.count
    rw [h.alive, ha] at ha'
    cases ha'
  | vcpu m =>
    have hmn : m ≠ n := fun hmn => hq (congrArg Party.vcpu hmn.symm)
    exact ⟨h.inCall m hmn, h.signaller m hmn⟩

theorem fits {p : Party} (hpq : p ≠ q) (hinv : s.Inv) (h : (contract p).guar s s') : (contract q).rely s s' := by
  cases p with
  | monitor => exact MonitorGuar.fits h hpq
  | worker u => exact WorkerGuar.fits h hinv hpq
  | vcpu n => exact VcpuGuar.fits h hinv hpq

theorem Lists.count (h : Lists s) (node : Nat) :
    s.free.count node + ((List.range maxUnits).flatMap s.queue).count node +
      ((List.range maxUnits).flatMap fun u => (s.held u).toList).count node = (List.range workNodes).count node := by
  rw [← h.parts.count_eq node, List.count_append, List.count_append]

theorem Lists.count_le (h : Lists s) (node : Nat) :
    s.free.count node + ((List.range maxUnits).flatMap s.queue).count node +
      ((List.range maxUnits).flatMap fun u => (s.held u).toList).count node ≤ 1 := by
  rw [h.count node]
  exact List.nodup_iff_count_le_one.mp List.nodup_range node

variable {node : Nat}

theorem count_queue_pos (hu : u < maxUnits) (h : node ∈ s.queue u) :
    0 < ((List.range maxUnits).flatMap s.queue).count node :=
  List.count_pos_iff.mpr (List.mem_flatMap.mpr ⟨u, List.mem_range.mpr hu, h⟩)

theorem count_held_pos (hu : u < maxUnits) (h : s.held u = some node) :
    0 < ((List.range maxUnits).flatMap fun u => (s.held u).toList).count node :=
  List.count_pos_iff.mpr (List.mem_flatMap.mpr ⟨u, List.mem_range.mpr hu, by simp [h]⟩)

theorem Lists.free_head (h : Lists s) (hf : s.freeList = some node) :
    s.free = node :: s.free.tail ∧ node ∉ s.free.tail ∧ (∀ u < maxUnits, node ∉ s.queue u) ∧
    ∀ u < maxUnits, s.held u ≠ some node := by
  have hchain := h.free
  rw [hf] at hchain
  obtain ⟨hfree, -⟩ := hchain.eq_cons
  have hle := h.count_le node
  rw [hfree, List.count_cons_self] at hle
  refine ⟨hfree, fun hm => ?_, fun u hu hm => ?_, fun u hu hm => ?_⟩
  · have := List.count_pos_iff.mpr hm
    omega
  · have := count_queue_pos hu hm
    omega
  · have := count_held_pos hu hm
    omega

theorem Lists.held_node (h : Lists s) (hu : u < maxUnits) (hh : s.held u = some node) :
    node ∉ s.free ∧ ∀ v < maxUnits, node ∉ s.queue v := by
  have hle := h.count_le node
  have hpos := count_held_pos hu hh
  refine ⟨fun hm => ?_, fun v hv hm => ?_⟩
  · have := List.count_pos_iff.mpr hm
    omega
  · have := count_queue_pos hv hm
    omega

theorem Lists.queue_nodup (h : Lists s) (hu : u < maxUnits) : (s.queue u).Nodup := by
  refine List.nodup_iff_count_le_one.mpr fun node => ?_
  have hle := h.count_le node
  have hupd := LinkedList.count_flatMap_update (List.nodup_range (n := maxUnits)) (List.mem_range.mpr hu)
    s.queue [] node
  rw [List.count_nil] at hupd
  omega

theorem Lists.queue_free (h : Lists s) (hu : u < maxUnits) (hm : node ∈ s.queue u) : node ∉ s.free := by
  intro hm'
  have hle := h.count_le node
  have hpos := count_queue_pos hu hm
  have := List.count_pos_iff.mpr hm'
  omega

theorem Lists.queue_disjoint (h : Lists s) (hu : u < maxUnits) (hv : v < maxUnits) (huv : v ≠ u)
    (hm : node ∈ s.queue u) : node ∉ s.queue v := by
  intro hm'
  have hle := h.count_le node
  have hupd := LinkedList.count_flatMap_update (List.nodup_range (n := maxUnits)) (List.mem_range.mpr hu)
    s.queue [] node
  have hmem : 0 < ((List.range maxUnits).flatMap (update s.queue u [])).count node := by
    refine List.count_pos_iff.mpr (List.mem_flatMap.mpr ⟨v, List.mem_range.mpr hv, ?_⟩)
    rw [update_of_ne huv]
    exact hm'
  have := List.count_pos_iff.mpr hm
  rw [List.count_nil] at hupd
  omega

theorem held_update (s : Async) (u : Nat) (h : Option Nat) :
    (fun v => (update s.held u h v).toList) =
      update (fun v => (s.held v).toList) u h.toList := by
  funext v
  by_cases hv : v = u
  · subst hv
    rw [update_self, update_self]
  · rw [update_of_ne hv, update_of_ne hv]

theorem Lists.partitioned (h : Lists s) : s.Partitioned := ⟨s.free, s.queue, h.free, h.queue, h.parts⟩

end MoCoLinux.Cobd.Async
