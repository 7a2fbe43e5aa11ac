import MoCoLinux.Cogpu.Lemmas.Vq

/-!
# Chains and signals

Every chain that was popped is somewhere, and once. As many chains are parked or in service as descriptors are
outstanding, and each signal that is not drained yet has its own chain among them, so that neither table overflows.
-/

namespace MoCoLinux.Cogpu

open Function

def Job.key (j : Job) : Nat × Nat := (j.vq, j.number)

def Stage.fence : Stage → Option (Fence × Nat)
  | .idle => none
  | .serving _ fence => fence

namespace Loop

variable {nums : List Nat} {s : Loop} {rest : List Served} {c : Served} {f g : Fence} {q head : Nat}

/-! ## Chains -/

def live (s : Loop) : List Job := s.parked.map (fun p => p.chain.job) ++ s.stage.job.toList

structure Chains (nums : List Nat) (rest : List Served) (s : Loop) : Prop where
  queues : ∀ (q num : Nat), nums[q]? = some num → (s.queue q).Keeps num (s.pushedOn q)
  jobs : ∀ j ∈ s.popped, j.vq < nums.length ∧ j.number < (s.queue j.vq).pops ∧
    (s.queue j.vq).offered[j.number]? = some j.head
  keys : (s.popped.map Job.key).Nodup
  order : s.popped = s.served.map Served.job ++ s.stage.job.toList
  once : s.served.Perm (s.pushed ++ (s.parked.map Parked.chain ++ rest))
  table : s.table.length = 512

theorem Chains.queue (h : s.Chains nums rest) (hq : q < nums.length) : (s.queue q).Inv :=
  (h.queues q _ (List.getElem?_eq_getElem hq)).inv

theorem Chains.popped_perm (h : s.Chains nums rest) :
    s.popped.Perm (s.pushed.map Served.job ++ (rest.map Served.job ++ s.live)) := by
  have hserved := (h.once.map Served.job).append_right s.stage.job.toList
  rw [← h.order] at hserved
  refine hserved.trans ?_
  simp only [List.map_append, List.map_map, List.append_assoc, live]
  refine List.Perm.append_left _ ?_
  rw [← List.append_assoc, ← List.append_assoc]
  exact List.Perm.append_right _ List.perm_append_comm

theorem Chains.unpublished (h : s.Chains nums rest) {j : Job} (hj : j ∈ rest.map Served.job ++ s.live) :
    j ∈ s.popped ∧ j.number ∉ (s.queue j.vq).published := by
  have hperm := h.popped_perm
  have hpopped : j ∈ s.popped := hperm.mem_iff.mpr (List.mem_append_right _ hj)
  refine ⟨hpopped, fun hmem => ?_⟩
  obtain ⟨c, hc, hvq, hnumber⟩ : ∃ c ∈ s.pushed, c.job.vq = j.vq ∧ c.job.number = j.number := by
    rw [(h.queues _ _ (List.getElem?_eq_getElem (h.jobs j hpopped).1)).numbers] at hmem
    simpa [pushedOn, and_assoc] using hmem
  have hkeys := (hperm.map Job.key).nodup_iff.mp h.keys
  rw [List.map_append] at hkeys
  have hkey : c.job.key = j.key := Prod.ext hvq hnumber
  exact (List.nodup_append.mp hkeys).2.2 _ (List.mem_map_of_mem (List.mem_map_of_mem hc)) _
    (List.mem_map_of_mem hj) hkey

def slots (nums : List Nat) : List (Nat × Nat) :=
  nums.zipIdx.flatMap fun e => (List.range e.1).map fun head => (e.2, head)

theorem length_slots (nums : List Nat) : (slots nums).length = nums.sum := by
  simp [slots, List.length_flatMap]

theorem mem_slots {num : Nat} (hq : nums[q]? = some num) (hhead : head < num) : (q, head) ∈ slots nums := by
  refine List.mem_flatMap.mpr ⟨(num, q), ?_, List.mem_map.mpr ⟨head, List.mem_range.mpr hhead, rfl⟩⟩
  exact List.mem_zipIdx_iff_getElem?.mpr hq

theorem Chains.length_live (h : s.Chains nums []) : s.live.length ≤ nums.sum := by
  have hout : ∀ j ∈ s.live, j ∈ s.popped ∧ j.number ∉ (s.queue j.vq).published := fun j hj => h.unpublished hj
  have hnodup : s.live.Nodup := by
    have hpopped := h.popped_perm.nodup_iff.mp (List.Nodup.of_map _ h.keys)
    exact (List.nodup_append.mp hpopped).2.1
  have hheads : (s.live.map fun j => (j.vq, j.head)).Nodup := by
    refine hnodup.map_on fun a ha b hb heq => ?_
    obtain ⟨hvq, hhead⟩ := Prod.mk.inj heq
    obtain ⟨hpa, houta⟩ := hout a ha
    obtain ⟨hpb, houtb⟩ := hout b hb
    obtain ⟨hq, -, hofa⟩ := h.jobs a hpa
    obtain ⟨-, -, hofb⟩ := h.jobs b hpb
    rw [← hvq] at hofb houtb
    have hnumber := (h.queue hq).distinct hofa (hhead ▸ hofb) houta houtb
    cases a
    cases b
    simp_all
  have hsub : (s.live.map fun j => (j.vq, j.head)) ⊆ slots nums := by
    intro x hx
    obtain ⟨j, hj, rfl⟩ := List.mem_map.mp hx
    obtain ⟨hq, -, hof⟩ := h.jobs j (hout j hj).1
    have hkeeps := h.queues j.vq _ (List.getElem?_eq_getElem hq)
    exact mem_slots (List.getElem?_eq_getElem hq) (hkeeps.size ▸ hkeeps.inv.head_lt hof)
  have hle := (List.subperm_of_subset hheads hsub).length_le
  rwa [List.length_map, length_slots] at hle

theorem queue_update {v : Vq} (q' : Nat) (P : Vq → Prop) (hnew : q' = q → P v) (hold : q' ≠ q → P (s.queue q')) :
    P (update s.queue q v q') := by
  by_cases heq : q' = q
  · subst heq
    rw [update_self]
    exact hnew rfl
  · rw [update_of_ne heq]
    exact hold heq

theorem Chains.push (h : s.Chains nums (c :: rest)) : (s.push c).Chains nums rest := by
  obtain ⟨hpopped, hout⟩ := h.unpublished (j := c.job) (by simp)
  obtain ⟨hq, hlt, -⟩ := h.jobs c.job hpopped
  constructor
  case queues =>
    intro q num hnum
    have hold := h.queues q num hnum
    refine queue_update q (fun v => v.Keeps num ((s.push c).pushedOn q)) (fun heq => ?_) fun hne => ?_
    · subst heq
      rw [show (s.push c).pushedOn c.job.vq = s.pushedOn c.job.vq ++ [c] by simp [pushedOn, Loop.push]]
      exact hold.push hlt hout
    · rwa [show (s.push c).pushedOn q = s.pushedOn q by simp [pushedOn, Loop.push, Ne.symm hne]]
  case jobs =>
    intro j hj
    obtain ⟨hjq, hjlt, hjof⟩ := h.jobs j hj
    refine ⟨hjq, queue_update j.vq (fun v => j.number < v.pops ∧ v.offered[j.number]? = some j.head) (fun heq => ?_)
      fun _ => ⟨hjlt, hjof⟩⟩
    exact heq ▸ ⟨hjlt, hjof⟩
  case keys => exact h.keys
  case order => exact h.order
  case once =>
    refine h.once.trans ?_
    rw [Loop.push, List.append_assoc]
    exact List.Perm.append_left _ List.perm_middle
  case table => exact h.table

theorem Chains.pushes {cs : List Served} (h : s.Chains nums (cs ++ rest)) : (cs.foldl Loop.push s).Chains nums rest := by
  induction cs generalizing s with
  | nil => exact h
  | cons c cs ih => exact ih h.push

theorem Chains.offer (h : s.Chains nums []) (hfree : (s.queue q).Free head) :
    Chains nums [] { s with queue := update s.queue q ((s.queue q).offer head) } := by
  constructor
  case queues =>
    intro q' num hnum
    have hold := h.queues q' num hnum
    refine queue_update q' (fun v => v.Keeps num (s.pushedOn q')) (fun heq => ?_) fun _ => hold
    subst heq
    exact ⟨hold.inv.offer hfree, hold.size, hold.numbers, hold.publishes.idx, hold.publishes.ring⟩
  case jobs =>
    intro j hj
    obtain ⟨hjq, hjlt, hjof⟩ := h.jobs j hj
    refine ⟨hjq, queue_update j.vq (fun v => j.number < v.pops ∧ v.offered[j.number]? = some j.head) (fun heq => ?_)
      fun _ => ⟨hjlt, hjof⟩⟩
    subst heq
    refine ⟨hjlt, ?_⟩
    obtain ⟨hbelow, -⟩ := List.getElem?_eq_some_iff.mp hjof
    exact (List.getElem?_append_left hbelow).trans hjof
  case keys => exact h.keys
  case order => exact h.order
  case once => exact h.once
  case table => exact h.table

theorem Chains.pop (h : s.Chains nums []) (hq : q < nums.length) (hidle : s.stage = .idle)
    (desc : Nat → Nat → Desc) (resolve : Nat → Nat → Option Nat) : (s.pop q desc resolve).Chains nums [] := by
  rw [Loop.pop]
  split
  · exact h
  · rename_i chain hpop
    obtain ⟨hinv, hof⟩ := (h.queue hq).pop hpop
    constructor
    case queues =>
      intro q' num hnum
      have hold := h.queues q' num hnum
      refine queue_update q' (fun v => v.Keeps num (s.pushedOn q')) (fun heq => ?_) fun _ => hold
      subst heq
      exact ⟨hinv, hold.size, hold.numbers, hold.publishes.idx, hold.publishes.ring⟩
    case jobs =>
      intro j hj
      rcases List.mem_append.mp hj with hj | hj
      · obtain ⟨hjq, hjlt, hjof⟩ := h.jobs j hj
        refine ⟨hjq, queue_update j.vq (fun v => j.number < v.pops ∧ v.offered[j.number]? = some j.head)
          (fun heq => ?_) fun _ => ⟨hjlt, hjof⟩⟩
        subst heq
        exact ⟨Nat.lt_succ_of_lt hjlt, hjof⟩
      · obtain rfl := List.mem_singleton.mp hj
        dsimp only
        rw [update_self]
        exact ⟨hq, Nat.lt_succ_self _, hof⟩
    case keys =>
      rw [List.map_append]
      refine List.nodup_append.mpr ⟨h.keys, List.nodup_singleton _, fun x hx y hy heq => ?_⟩
      obtain rfl := List.mem_singleton.mp hy
      obtain ⟨j, hj, rfl⟩ := List.mem_map.mp hx
      obtain ⟨hvq, hnumber⟩ := Prod.mk.inj heq
      have hlt := (h.jobs j hj).2.1
      dsimp only at hvq hnumber
      rw [hvq] at hlt
      omega
    case order =>
      have horder := h.order
      rw [hidle] at horder
      simp only [Stage.job, Option.toList_none, List.append_nil] at horder
      simp [horder, Stage.job]
    case once => exact h.once
    case table => exact h.table

/-! ## The table of parked chains -/

variable {table : List (Option Parked)}

theorem parked_place {p : Parked}
    (h : SlotTable.place Option.isNone (some p) s.table = some table) :
    (table.filterMap id).Perm (p :: s.parked) := by
  have hused := (SlotTable.place_perm rfl h).filterMap id
  have hsome : ∀ t : List (Option Parked), (SlotTable.used Option.isNone t).filterMap id = t.filterMap id := by
    intro t
    induction t with
    | nil => rfl
    | cons slot t ih =>
      cases slot with
      | none => simpa [SlotTable.used_cons] using ih
      | some p => simpa [SlotTable.used_cons] using ih
  have hcons : (some p :: SlotTable.used Option.isNone s.table).filterMap id =
      p :: (SlotTable.used Option.isNone s.table).filterMap id := rfl
  rw [hcons, hsome, hsome] at hused
  exact hused

theorem parked_full {p : Parked} (h : SlotTable.place Option.isNone (some p) s.table = none) :
    s.parked.length = s.table.length := by
  have hused := SlotTable.place_none h
  have hall : ∀ slot ∈ s.table, slot.isNone = false := by
    intro slot hslot
    rw [← hused] at hslot
    exact (SlotTable.mem_used.mp hslot).2
  rw [parked]
  generalize s.table = t at hall
  induction t with
  | nil => rfl
  | cons slot t ih =>
    cases slot with
    | none => simpa using hall none
    | some p =>
      simp only [List.filterMap_cons, id_eq, List.length_cons, Nat.add_right_cancel_iff]
      exact ih fun slot hslot => hall slot (List.mem_cons_of_mem _ hslot)

theorem parked_unpark (s : Loop) (g : Fence) :
    (s.unpark g).parked = s.parked.filter fun p => !decide (g.Covers p.fence) := by
  rw [unpark, parked, parked]
  dsimp only
  generalize (fun p : Parked => !decide (g.Covers p.fence)) = keep
  generalize s.table = table
  induction table with
  | nil => rfl
  | cons slot table ih =>
    cases slot with
    | none => simpa using ih
    | some p => cases hkeep : keep p <;> simpa [hkeep, Option.filter] using ih

/-! ## Signals -/

def waiting (s : Loop) : List (Fence × Nat) :=
  s.parked.map (fun p => (p.fence, p.since)) ++ s.stage.fence.toList

structure Signals (s : Loop) : Prop where
  window : Ring.Window 256 s.sig 0 s.drained s.queued
  head : s.sigHead = u32 s.queued.length
  tail : s.sigTail = u32 s.drained
  since : ∀ w ∈ s.waiting, w.2 ≤ s.queued.length
  quiet : ∀ w ∈ s.waiting, ∀ i g, w.2 ≤ i → i < s.drained → s.queued[i]? = some g → ¬ g.Covers w.1
  released : ∀ p ∈ s.released, ∃ g ∈ s.queued, g.Covers p.fence

/-- What holds besides while the ids rise: each signal that is not drained yet has its own chain. -/
structure Exact (s : Loop) : Prop where
  called : s.dropped = 0 ∧ s.queued = s.called
  created : ∀ f ∈ s.created, (∃ w ∈ s.waiting, w.1 = f) ∨ ∃ g ∈ s.queued, g.Covers f
  pending : ∀ g ∈ s.queued.drop s.drained, ∃ w ∈ s.waiting, w.1 = g

theorem Signals.drained_le (h : s.Signals) : s.drained ≤ s.queued.length := by
  have hle := h.window.tail_le
  omega

theorem Signals.undrained (h : s.Signals) : u32Sub s.sigHead s.sigTail = s.queued.length - s.drained := by
  have hfits := h.window.fits
  have hle := h.drained_le
  rw [h.head, h.tail]
  exact Ring.index_sub hle (by omega)

theorem length_waiting_le (s : Loop) : s.waiting.length ≤ s.live.length := by
  simp only [waiting, live, List.length_append, List.length_map]
  cases s.stage with
  | idle => simp [Stage.fence, Stage.job]
  | serving job fence => cases fence <;> simp [Stage.fence, Stage.job]

theorem Exact.waits (h : s.Exact) (hcreated : f ∈ s.created)
    (hlast : ∀ g ∈ s.called, g.ctxId = f.ctxId → g.ringIdx = f.ringIdx → g.id < f.id) : ∃ w ∈ s.waiting, w.1 = f := by
  refine (h.created f hcreated).resolve_right ?_
  rintro ⟨g, hg, hctx, hring, hid⟩
  have hlt := hlast g (h.called.2 ▸ hg) hctx.symm hring.symm
  omega

theorem Exact.room (h : s.Exact) (hrising : s.Rising) (hcreated : f ∈ s.created)
    (hlast : ∀ g ∈ s.called, g.ctxId = f.ctxId → g.ringIdx = f.ringIdx → g.id < f.id) :
    s.queued.length - s.drained < s.live.length := by
  have hfirst : f ∉ s.queued := fun hmem => Nat.lt_irrefl _ (hlast f (h.called.2 ▸ hmem) rfl rfl)
  have hnodup : (f :: s.queued.drop s.drained).Nodup := by
    refine List.nodup_cons.mpr ⟨fun hmem => hfirst (List.mem_of_mem_drop hmem), ?_⟩
    rw [h.called.2]
    refine (hrising.imp fun {a b} hlt heq => ?_).sublist (List.drop_sublist _ _)
    subst heq
    exact Nat.lt_irrefl _ (hlt rfl rfl)
  have hsub : (f :: s.queued.drop s.drained) ⊆ s.waiting.map Prod.fst := by
    intro g hg
    rw [List.mem_map]
    rcases List.mem_cons.mp hg with rfl | hg
    · exact h.waits hcreated hlast
    · exact h.pending g hg
  have hle := (List.subperm_of_subset hnodup hsub).length_le
  have hlive := s.length_waiting_le
  simp only [List.length_cons, List.length_drop, List.length_map] at hle
  omega

theorem Signals.callback (h : s.Signals) (f : Fence) : (s.callback f).Signals := by
  have hle := h.drained_le
  have hcell : s.sigHead % 256 = s.queued.length % 256 := by
    rw [h.head]
    exact Ring.index_cell (by decide) _
  rw [Loop.callback]
  dsimp only
  split
  next hfits =>
    rw [h.undrained] at hfits
    constructor
    case window =>
      have hwritten := (h.window.update (v := f) (q := s.queued.length) (by omega) (by omega)).publish (n := 1) (by omega)
      simp only [Ring.slice, Nat.zero_add, update_self] at hwritten
      rw [hcell]
      exact hwritten
    case head =>
      simp only [h.head, List.length_append, List.length_singleton]
      unfold u32
      omega
    case tail => exact h.tail
    case since =>
      intro w hw
      have hsince := h.since w hw
      simp only [List.length_append]
      omega
    case quiet =>
      intro w hw i g hi hlt hg
      rw [List.getElem?_append_left (by dsimp only at hlt; omega)] at hg
      exact h.quiet w hw i g hi hlt hg
    case released =>
      intro p hp
      obtain ⟨g, hg, hcovers⟩ := h.released p hp
      exact ⟨g, List.mem_append_left _ hg, hcovers⟩
  next => exact { h with }

theorem callback_called (s : Loop) (f : Fence) : (s.callback f).called = s.called ++ [f] := by
  rw [Loop.callback]
  dsimp only
  split <;> rfl

theorem Exact.callback (h : s.Exact) (hs : s.Signals) (hlive : s.live.length ≤ 256) (hcreated : f ∈ s.created)
    (hrising : (s.callback f).Rising) : (s.callback f).Exact := by
  rw [Rising, callback_called] at hrising
  obtain ⟨hbefore, -, hlast⟩ := List.pairwise_append.mp hrising
  have hlast : ∀ g ∈ s.called, g.ctxId = f.ctxId → g.ringIdx = f.ringIdx → g.id < f.id := fun g hg =>
    hlast g hg f (List.mem_singleton_self f)
  have hroom := h.room hbefore hcreated hlast
  have hwaits := h.waits hcreated hlast
  have hle := hs.drained_le
  have hfits : u32Sub s.sigHead s.sigTail < 256 := by
    rw [hs.undrained]
    omega
  rw [Loop.callback]
  simp only [hfits, if_true]
  constructor
  case called => exact ⟨h.called.1, by rw [h.called.2]⟩
  case created =>
    intro f' hf'
    refine (h.created f' hf').imp_right ?_
    rintro ⟨g, hg, hcovers⟩
    exact ⟨g, List.mem_append_left _ hg, hcovers⟩
  case pending =>
    intro g hg
    dsimp only at hg
    rw [List.drop_append_of_le_length hle] at hg
    rcases List.mem_append.mp hg with hg | hg
    · exact h.pending g hg
    · exact List.mem_singleton.mp hg ▸ hwaits

/-- Nothing of the signals changes, and the same fences wait. -/
def Frame (s s' : Loop) : Prop :=
  ∃ queue table stage popped served pushed, s' = { s with
    queue := queue, table := table, stage := stage, popped := popped, served := served, pushed := pushed } ∧
    ∀ w, w ∈ s'.waiting ↔ w ∈ s.waiting

variable {s' : Loop}

theorem Signals.frame (h : s.Signals) (hf : s.Frame s') : s'.Signals := by
  obtain ⟨_, _, _, _, _, _, rfl, hw⟩ := hf
  exact { h with
    since := fun w hmem => h.since w ((hw w).mp hmem)
    quiet := fun w hmem => h.quiet w ((hw w).mp hmem) }

theorem Exact.frame (h : s.Exact) (hf : s.Frame s') : s'.Exact := by
  obtain ⟨_, _, _, _, _, _, rfl, hw⟩ := hf
  refine { h with created := fun f hf => ?_, pending := fun g hg => ?_ }
  · refine (h.created f hf).imp_left ?_
    rintro ⟨w, hmem, heq⟩
    exact ⟨w, (hw w).mpr hmem, heq⟩
  · obtain ⟨w, hmem, heq⟩ := h.pending g hg
    exact ⟨w, (hw w).mpr hmem, heq⟩

theorem frame_pop (hidle : s.stage = .idle) (desc : Nat → Nat → Desc) (resolve : Nat → Nat → Option Nat) :
    s.Frame (s.pop q desc resolve) := by
  rw [Loop.pop]
  split
  · exact ⟨_, _, _, _, _, _, rfl, fun _ => Iff.rfl⟩
  · exact ⟨_, _, _, _, _, _, rfl, fun w => by simp [waiting, parked, hidle, Stage.fence]⟩

theorem frame_finish (hparked : s.parked.length < s.table.length) (written : Nat) : s.Frame (s.finish written) := by
  rw [Loop.finish]
  cases hstage : s.stage with
  | idle => exact ⟨_, _, _, _, _, _, rfl, fun _ => Iff.rfl⟩
  | serving job fence =>
    cases fence with
    | none => exact ⟨_, _, _, _, _, _, rfl, fun w => by simp [waiting, parked, hstage, Stage.fence, Loop.push]⟩
    | some fence =>
      obtain ⟨f, since⟩ := fence
      dsimp only
      split
      next table hplace =>
        refine ⟨_, _, _, _, _, _, rfl, fun w => ?_⟩
        have hmem := ((parked_place hplace).map fun p => (p.fence, p.since)).mem_iff (a := w)
        simp only [waiting, hstage, Stage.fence, Option.toList_none, List.append_nil, Option.toList_some,
          List.mem_append, List.mem_singleton]
        rw [parked, hmem, List.map_cons, List.mem_cons, or_comm]
      next hfull => exact absurd (parked_full hfull) (Nat.ne_of_lt hparked)

theorem mem_waiting_fence {job : Job} (hstage : s.stage = .serving job none) (w : Fence × Nat) :
    w ∈ (s.fence f).waiting ↔ w ∈ s.waiting ∨ w = (f, s.queued.length) := by
  simp [waiting, parked, Loop.fence, hstage, Stage.fence]

theorem Signals.fence (h : s.Signals) {job : Job} (hstage : s.stage = .serving job none) (f : Fence) :
    (s.fence f).Signals := by
  have hle := h.drained_le
  have hw := mem_waiting_fence (f := f) hstage
  rw [Loop.fence, hstage] at hw ⊢
  refine { h with since := fun w hmem => ?_, quiet := fun w hmem i g hi hlt hg => ?_ }
  · rcases (hw w).mp hmem with hmem | rfl
    · exact h.since w hmem
    · exact Nat.le_refl _
  · rcases (hw w).mp hmem with hmem | rfl
    · exact h.quiet w hmem i g hi hlt hg
    · dsimp only at hi hlt
      omega

theorem Exact.fence (h : s.Exact) {job : Job} (hstage : s.stage = .serving job none) (f : Fence) :
    (s.fence f).Exact := by
  have hw := mem_waiting_fence (f := f) hstage
  rw [Loop.fence, hstage] at hw ⊢
  refine { h with created := fun f' hf' => ?_, pending := fun g hg => ?_ }
  · rcases List.mem_append.mp hf' with hf' | hf'
    · refine (h.created f' hf').imp_left ?_
      rintro ⟨w, hmem, heq⟩
      exact ⟨w, (hw w).mpr (.inl hmem), heq⟩
    · exact .inl ⟨_, (hw _).mpr (.inr rfl), (List.mem_singleton.mp hf').symm⟩
  · obtain ⟨w, hmem, heq⟩ := h.pending g hg
    exact ⟨w, (hw w).mpr (.inl hmem), heq⟩

/-! ## Parking -/

theorem Chains.serve (h : s.Chains nums []) {job : Job} {fence : Option (Fence × Nat)}
    (hstage : s.stage = .serving job fence) (written : Nat) :
    Chains nums [⟨job, written⟩] { s with stage := .idle, served := s.served ++ [⟨job, written⟩] } := by
  refine { h with order := ?_, once := ?_ }
  · rw [h.order, hstage]
    simp [Stage.job]
  · have honce := h.once.append_right [(⟨job, written⟩ : Served)]
    rw [List.append_nil, List.append_assoc] at honce
    exact honce

theorem Chains.park (h : s.Chains nums [c]) {f : Fence} {since : Nat}
    (hplace : SlotTable.place Option.isNone (some ⟨c, f, since⟩) s.table = some table) :
    Chains nums [] { s with table := table } := by
  refine { h with once := h.once.trans (List.Perm.append_left _ ?_), table := ?_ }
  · rw [List.append_nil]
    exact (List.perm_append_singleton _ _).trans ((parked_place hplace).map Parked.chain).symm
  · exact (SlotTable.place_length hplace).trans h.table

theorem Chains.finish (h : s.Chains nums []) (written : Nat) : (s.finish written).Chains nums [] := by
  cases hstage : s.stage with
  | idle =>
    rw [Loop.finish, hstage]
    exact h
  | serving job fence =>
    have hserved := h.serve hstage written
    rw [Loop.finish, hstage]
    cases fence with
    | none => exact hserved.push
    | some fence =>
      dsimp only
      split
      · exact hserved.park ‹_›
      · exact hserved.push

/-! ## Draining -/

theorem foldl_push (cs : List Served) (s : Loop) :
    ∃ queue, cs.foldl Loop.push s = { s with queue := queue, pushed := s.pushed ++ cs } := by
  induction cs generalizing s with
  | nil => exact ⟨s.queue, by simp⟩
  | cons c cs ih =>
    obtain ⟨queue, heq⟩ := ih (s.push c)
    refine ⟨queue, ?_⟩
    rw [List.foldl_cons, heq]
    simp [Loop.push]

theorem Signals.next (h : s.Signals) (hmore : s.drained < s.queued.length) :
    s.queued.drop s.drained = s.sig (s.sigTail % 256) :: s.queued.drop (s.drained + 1) := by
  have hread := h.window.read (p := s.drained) (n := 1) (Nat.le_refl _) (by omega)
  have hcell : s.sigTail % 256 = s.drained % 256 := by
    rw [h.tail]
    exact Ring.index_cell (by decide) _
  rw [Nat.sub_zero, List.drop_eq_getElem_cons hmore] at hread
  simp only [Ring.slice, List.take_succ_cons, List.take_zero, List.cons.injEq, and_true] at hread
  rw [List.drop_eq_getElem_cons hmore, hcell, hread]

theorem Chains.turn (h : s.Chains nums []) : s.turn.Chains nums [] := by
  refine Chains.pushes { h with once := ?_, table := ?_ }
  · refine h.once.trans (List.Perm.append_left _ ?_)
    rw [List.append_nil, List.append_nil, parked_unpark, ← List.map_append]
    refine List.Perm.map _ (List.Perm.trans ?_ List.perm_append_comm)
    exact (List.filter_append_perm _ _).symm
  · exact (List.length_map _).trans h.table

theorem Chains.drainLoop (h : s.Chains nums []) (turns : Nat) : (drainLoop turns s).Chains nums [] := by
  induction turns generalizing s with
  | zero => exact h
  | succ turns ih =>
    rw [Loop.drainLoop]
    split
    · exact h
    · exact ih h.turn

theorem mem_waiting_unpark (hidle : s.stage = .idle) (w : Fence × Nat) :
    w ∈ (s.unpark g).waiting ↔ w ∈ s.waiting ∧ ¬ g.Covers w.1 := by
  have hstage : (s.unpark g).stage = .idle := hidle
  simp only [waiting, parked_unpark, hidle, hstage, Stage.fence, Option.toList_none, List.append_nil, List.mem_map,
    List.mem_filter, Bool.not_eq_true', decide_eq_false_iff_not]
  constructor
  · rintro ⟨p, ⟨hp, hnot⟩, rfl⟩
    exact ⟨⟨p, hp, rfl⟩, hnot⟩
  · rintro ⟨⟨p, hp, rfl⟩, hnot⟩
    exact ⟨p, ⟨hp, hnot⟩, rfl⟩

theorem Signals.unpark (h : s.Signals) (hidle : s.stage = .idle) (hmore : s.drained < s.queued.length) :
    (s.takeSignal.unpark (s.sig (s.sigTail % 256))).Signals := by
  have hnext := h.next hmore
  have hin : s.sig (s.sigTail % 256) ∈ s.queued := List.mem_of_mem_drop (hnext ▸ List.mem_cons_self)
  have hat : s.queued[s.drained]? = some (s.sig (s.sigTail % 256)) := by
    have hhead := congrArg List.head? hnext
    rwa [List.head?_drop] at hhead
  have hkeep : ∀ w, w ∈ (s.takeSignal.unpark (s.sig (s.sigTail % 256))).waiting ↔ w ∈ s.waiting ∧ _ :=
    mem_waiting_unpark (s := s.takeSignal) hidle
  have hle : s.drained + 1 ≤ 0 + s.queued.length := by omega
  constructor
  case window => exact h.window.release (Nat.le_succ _) hle
  case head => exact h.head
  case tail =>
    have htail : u32 (s.sigTail + 1) = u32 (s.drained + 1) := by
      rw [h.tail]
      unfold u32
      omega
    exact htail
  case since => exact fun w hw => h.since w ((hkeep w).mp hw).1
  case quiet =>
    intro w hw i g hi hlt hg
    obtain ⟨hw, hnot⟩ := (hkeep w).mp hw
    rcases Nat.lt_succ_iff_lt_or_eq.mp hlt with hlt | rfl
    · exact h.quiet w hw i g hi hlt hg
    · have heq := hat.symm.trans hg
      exact Option.some.inj heq ▸ hnot
  case released =>
    intro p hp
    rcases List.mem_append.mp hp with hp | hp
    · exact h.released p hp
    · exact ⟨_, hin, of_decide_eq_true (List.mem_filter.mp hp).2⟩

theorem Exact.unpark (h : s.Exact) (hs : s.Signals) (hrising : s.Rising) (hidle : s.stage = .idle)
    (hmore : s.drained < s.queued.length) : (s.takeSignal.unpark (s.sig (s.sigTail % 256))).Exact := by
  have hnext := hs.next hmore
  have hin : s.sig (s.sigTail % 256) ∈ s.queued := List.mem_of_mem_drop (hnext ▸ List.mem_cons_self)
  rw [Rising, ← h.called.2] at hrising
  have hafter := (List.pairwise_cons.mp (hnext ▸ hrising.sublist (List.drop_sublist _ _))).1
  have hkeep : ∀ w, w ∈ (s.takeSignal.unpark (s.sig (s.sigTail % 256))).waiting ↔ w ∈ s.waiting ∧ _ :=
    mem_waiting_unpark (s := s.takeSignal) hidle
  constructor
  case called => exact h.called
  case created =>
    intro f hf
    rcases h.created f hf with ⟨w, hw, rfl⟩ | hcovered
    · by_cases hcovers : (s.sig (s.sigTail % 256)).Covers w.1
      · exact .inr ⟨_, hin, hcovers⟩
      · exact .inl ⟨w, (hkeep w).mpr ⟨hw, hcovers⟩, rfl⟩
    · exact .inr hcovered
  case pending =>
    intro g hg
    obtain ⟨w, hw, rfl⟩ := h.pending g (hnext ▸ List.mem_cons_of_mem _ hg)
    refine ⟨w, (hkeep w).mpr ⟨hw, fun hcovers => ?_⟩, rfl⟩
    -- the fences of a ring come in order, so no signal stands for a later one
    have hlt := hafter w.1 hg hcovers.1.symm hcovers.2.1.symm
    exact Nat.not_lt.mpr hcovers.2.2 hlt

theorem turn_eq (s : Loop) : ∃ queue pushed,
    s.turn = { s.takeSignal.unpark (s.sig (s.sigTail % 256)) with queue := queue, pushed := pushed } := by
  obtain ⟨queue, heq⟩ := foldl_push
    ((s.takeSignal.parked.filter fun p => decide ((s.sig (s.sigTail % 256)).Covers p.fence)).map Parked.chain)
    (s.takeSignal.unpark (s.sig (s.sigTail % 256)))
  exact ⟨queue, _, heq⟩

theorem turn_frame (s : Loop) : (s.takeSignal.unpark (s.sig (s.sigTail % 256))).Frame s.turn := by
  obtain ⟨queue, pushed, heq⟩ := s.turn_eq
  exact ⟨_, _, _, _, _, _, heq, fun _ => by rw [heq]; rfl⟩

/-- Along a drain: the signals, and what holds besides while the ids rise. -/
structure Drained (s s' : Loop) : Prop where
  signals : s'.Signals
  exact : s.Rising → s.Exact → s'.Exact
  drained : s'.drained = s.queued.length
  queued : s'.queued = s.queued
  called : s'.called = s.called

theorem Signals.drainLoop (h : s.Signals) (hidle : s.stage = .idle) {turns : Nat}
    (hturns : turns = s.queued.length - s.drained) : s.Drained (drainLoop turns s) := by
  induction turns generalizing s with
  | zero =>
    have hle := h.drained_le
    exact ⟨h, fun _ hx => hx, by rw [Loop.drainLoop]; omega, rfl, rfl⟩
  | succ turns ih =>
    have hle := h.drained_le
    have hundrained := h.undrained
    have hne : s.sigTail ≠ s.sigHead := by
      intro heq
      have hsame : u32Sub s.sigHead s.sigHead = 0 := by
        unfold u32Sub
        omega
      rw [heq, hsame] at hundrained
      omega
    have hmore : s.drained < s.queued.length := by omega
    obtain ⟨hstage, hdrained, hqueued, hcalled⟩ : s.turn.stage = s.stage ∧ s.turn.drained = s.drained + 1 ∧
        s.turn.queued = s.queued ∧ s.turn.called = s.called := by
      obtain ⟨queue, pushed, heq⟩ := s.turn_eq
      rw [heq]
      exact ⟨rfl, rfl, rfl, rfl⟩
    have hrest := ih ((h.unpark hidle hmore).frame s.turn_frame) (hstage.trans hidle)
      (by rw [hdrained, hqueued]; omega)
    rw [Loop.drainLoop, if_neg hne]
    refine ⟨hrest.signals, fun hrising hx => hrest.exact ?_ ((hx.unpark h hrising hidle hmore).frame s.turn_frame), ?_,
      hrest.queued.trans hqueued, hrest.called.trans hcalled⟩
    · rwa [Rising, hcalled]
    · rw [hrest.drained, hqueued]

/-! ## Every step keeps the chains -/

theorem Chains.step (h : s.Chains nums []) {event : Event} (he : s.Enabled nums event) :
    (s.step event).Chains nums [] := by
  cases event with
  | offer q head => exact h.offer he.2
  | pop q desc resolve => exact h.pop he.1 he.2 desc resolve
  | fence f =>
    obtain ⟨job, hstage⟩ := he
    rw [Loop.step, Loop.fence, hstage]
    exact { h with order := by rw [h.order, hstage]; rfl }
  | finish written => exact h.finish written
  | callback f =>
    rw [Loop.step, Loop.callback]
    dsimp only
    split <;> exact { h with }
  | drain => exact h.drainLoop _

def Sized (nums : List Nat) : Prop := ∀ n ∈ nums, ∃ k ≤ 15, n = 2 ^ k

theorem Start.chains (h : s.Start nums) (hsized : Sized nums) : s.Chains nums [] := by
  obtain ⟨hpopped, hserved, hpushed, -⟩ := h.history
  have hparked : s.parked = [] := by
    rw [parked, h.table]
    decide +kernel
  have hqueues : ∀ (q num : Nat), nums[q]? = some num → (s.queue q).Keeps num (s.pushedOn q) := by
    intro q num hq
    obtain ⟨hvr, havail, hused, hoffered, hpops, hpublished⟩ := h.queue q num hq
    obtain ⟨k, hk, rfl⟩ := hsized num (List.mem_of_getElem? hq)
    have hnone : s.pushedOn q = [] := by rw [pushedOn, hpushed, List.filter_nil]
    rw [hnone]
    refine ⟨?_, by rw [hvr], hpublished, hused, by simp⟩
    constructor <;> simp only [hvr, hused, hoffered, hpops, hpublished, List.length_nil, Nat.add_zero]
    case num => exact Nat.pow_dvd_pow 2 (Nat.le_succ_of_le hk)
    case avail => exact havail
    case window => exact Ring.Window.nil (Nat.zero_le _)
    all_goals simp
  constructor
  case queues => exact hqueues
  case table =>
    rw [h.table]
    exact List.length_replicate
  all_goals simp [hpopped, hserved, hpushed, hparked, h.stage, Stage.job]

theorem Start.signalsOk (h : s.Start nums) : s.Signals ∧ s.Exact := by
  obtain ⟨-, -, -, hreleased⟩ := h.history
  obtain ⟨hcreated, hcalled, hqueued, hdrained⟩ := h.fences
  obtain ⟨hhead, htail, hdropped⟩ := h.signals
  have hwaiting : s.waiting = [] := by
    rw [waiting, parked, h.table, h.stage]
    decide +kernel
  constructor
  · constructor
    case window =>
      rw [hqueued, hdrained]
      exact Ring.Window.nil (Nat.zero_le _)
    all_goals simp [hhead, htail, hqueued, hdrained, hwaiting, hreleased, u32]
  · constructor <;> simp [hdropped, hqueued, hcalled, hcreated]

end Loop

end MoCoLinux.Cogpu
