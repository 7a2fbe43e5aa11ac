import MoCoLinux.Cogpu.Lemmas.Fences
import Mathlib.Algebra.Order.BigOperators.Group.List
import Mathlib.Algebra.Order.Group.Nat

/-!
# The main loop and the fences: results
-/

namespace MoCoLinux.Cogpu.Loop

variable {nums : List Nat} {s : Loop}

structure Inv (nums : List Nat) (s : Loop) : Prop where
  chains : s.Chains nums []
  signals : s.Signals
  exact : s.Rising → s.Exact

theorem sized (hpow : ∀ n ∈ nums, ∃ k, n = 2 ^ k) (hsum : nums.sum ≤ 256) : Sized nums := by
  intro n hn
  obtain ⟨k, hk⟩ := hpow n hn
  have hle : 2 ^ k ≤ 2 ^ 8 := hk ▸ Nat.le_trans (List.single_le_sum (fun _ _ => Nat.zero_le _) n hn) hsum
  have hk8 : k ≤ 8 := (Nat.pow_le_pow_iff_right (by decide)).mp hle
  exact ⟨k, by omega, hk⟩

theorem Inv.drain (h : s.Inv nums) (hidle : s.stage = .idle) :
    s.drain.Inv nums ∧ s.drain.drained = s.queued.length ∧ s.drain.queued = s.queued := by
  have hd : s.Drained s.drain := h.signals.drainLoop hidle h.signals.undrained
  refine ⟨⟨h.chains.drainLoop _, hd.signals, fun hrising => ?_⟩, hd.drained, hd.queued⟩
  rw [Rising, hd.called] at hrising
  exact hd.exact hrising (h.exact hrising)

theorem Inv.frame {s' : Loop} (h : s.Inv nums) (hc : s'.Chains nums []) (hf : s.Frame s') : s'.Inv nums := by
  refine ⟨hc, h.signals.frame hf, fun hrising => (h.exact ?_).frame hf⟩
  obtain ⟨_, _, _, _, _, _, rfl, -⟩ := hf
  exact hrising

theorem Inv.step (h : s.Inv nums) (hsum : nums.sum ≤ 256) {event : Event} (he : s.Enabled nums event) :
    (s.step event).Inv nums := by
  have hchains := h.chains.step he
  have hlive := Nat.le_trans h.chains.length_live hsum
  cases event with
  | offer q head => exact h.frame hchains ⟨_, _, _, _, _, _, rfl, fun _ => Iff.rfl⟩
  | pop q desc resolve => exact h.frame hchains (frame_pop he.2 desc resolve)
  | fence f =>
    obtain ⟨job, hstage⟩ := he
    refine ⟨hchains, h.signals.fence hstage f, fun hrising => (h.exact ?_).fence hstage f⟩
    rwa [Loop.step, Loop.fence, hstage] at hrising
  | finish written =>
    refine h.frame hchains (frame_finish ?_ written)
    simp only [live, List.length_append, List.length_map] at hlive
    rw [h.chains.table]
    omega
  | callback f =>
    refine ⟨hchains, h.signals.callback f, fun hrising => ?_⟩
    have hbefore : s.Rising := by
      rw [Rising, Loop.step, callback_called] at hrising
      exact hrising.sublist (List.sublist_append_left _ _)
    exact (h.exact hbefore).callback h.signals hlive he hrising
  | drain => exact (h.drain he).1

theorem Inv.delivers (h : s.Inv nums) : s.Delivers nums where
  popped := ⟨List.Nodup.of_map _ h.chains.keys, h.chains.order⟩
  once := by simpa only [List.append_nil] using h.chains.once
  head := fun job hjob => (h.chains.jobs job hjob).2.2
  used := fun q hq => (h.chains.queues q _ (List.getElem?_eq_getElem hq)).publishes
  signalled := h.signals.released
  undropped := fun hrising => (h.exact hrising).called
  drained := by
    intro hidle p hp g hg
    obtain ⟨hinv, hdrained, hqueued⟩ := h.drain hidle
    obtain ⟨i, hi⟩ := List.mem_iff_getElem?.mp hg
    rw [List.getElem?_drop] at hi
    have hwaits : (p.fence, p.since) ∈ s.drain.waiting := List.mem_append_left _ (List.mem_map.mpr ⟨p, hp, rfl⟩)
    refine hinv.signals.quiet _ hwaits (p.since + i) g (Nat.le_add_right _ _) ?_ (hqueued ▸ hi)
    rw [hdrained]
    exact (List.getElem?_eq_some_iff.mp hi).1

/-- For all queues with powers of two of descriptors, 256 at most, and every run of the main loop among the guest and
the renderer's threads: chains are delivered once, after their signals, and no signal is lost while the ids rise. -/
theorem loop_delivers (nums : List Nat) (hpow : ∀ n ∈ nums, ∃ k, n = 2 ^ k) (hsum : nums.sum ≤ 256) (s : Loop)
    (h : Reachable nums (fun _ _ => True) s) : s.Delivers nums := by
  refine (Runs.Reach.invariant (P := Inv nums) (fun s hs => ?_) (fun s event s' hinv hs => ?_) h).delivers
  · exact ⟨hs.chains (sized hpow hsum), hs.signalsOk.1, fun _ => hs.signalsOk.2⟩
  · obtain ⟨he, -, rfl⟩ := hs
    exact hinv.step hsum he

theorem Reachable.step {ok : Loop → Event → Prop} (h : Reachable nums ok s) (event : Event)
    (he : s.Enabled nums event) (hok : ok s event) : Reachable nums ok (s.step event) := .next h ⟨he, hok, rfl⟩

def oneQueue : Loop where
  queue := fun _ => ⟨⟨2, 0, 0⟩, 0, fun _ => 0, fun _ => ⟨0, 0⟩, 0, 0, [], 0, []⟩
  table := List.replicate 512 none
  sig := fun _ => ⟨0, 0, 0⟩
  sigHead := 0
  sigTail := 0
  dropped := 0
  stage := .idle
  popped := []
  served := []
  pushed := []
  released := []
  created := []
  called := []
  queued := []
  drained := 0

theorem oneQueue_start : oneQueue.Start [2] where
  queue := by
    intro q num hq
    obtain rfl : num = 2 := by
      have hmem := List.mem_of_getElem? hq
      simpa using hmem
    exact ⟨rfl, rfl, rfl, rfl, rfl, rfl⟩
  table := rfl
  signals := ⟨rfl, rfl, rfl⟩
  stage := rfl
  history := ⟨rfl, rfl, rfl, rfl⟩
  fences := ⟨rfl, rfl, rfl, rfl⟩

def popEmpty (q : Nat) : Event := .pop q (fun _ _ => ⟨0, 0, 0, 0⟩) fun _ _ => none

def fencedOnce : Loop := ((oneQueue.step (.offer 0 1)).step (popEmpty 0)).step (.fence ⟨3, 1, 7⟩)

theorem fencedOnce_reachable : Reachable [2] (fun _ _ => True) fencedOnce := by
  have hoffered : Reachable [2] (fun _ _ => True) (oneQueue.step (.offer 0 1)) := by
    refine Reachable.step (.start oneQueue_start) (.offer 0 1) ⟨by decide, by decide, ?_⟩ trivial
    intro k hk
    cases hk
  have hpopped := hoffered.step (popEmpty 0) ⟨by decide, rfl⟩ trivial
  exact hpopped.step (.fence ⟨3, 1, 7⟩) ⟨⟨0, 0, 1⟩, by decide +kernel⟩ trivial

/-- The fence fires before its chain is parked, and the next drain pushes the chain. -/
theorem loop_delivers_early : (((fencedOnce.step (.callback ⟨3, 1, 7⟩)).step (.finish 24)).step .drain).Delivers [2] ∧
    ((((fencedOnce.step (.callback ⟨3, 1, 7⟩)).step (.finish 24)).step .drain).queue 0).used 0 = ⟨1, 24⟩ := by
  have hcreated : (⟨3, 1, 7⟩ : Fence) ∈ fencedOnce.created := by decide +kernel
  have hcalled := fencedOnce_reachable.step (.callback ⟨3, 1, 7⟩) hcreated trivial
  have hbusy : (fencedOnce.step (.callback ⟨3, 1, 7⟩)).stage ≠ .idle := by decide +kernel
  have hfinished := hcalled.step (.finish 24) hbusy trivial
  have hidle : ((fencedOnce.step (.callback ⟨3, 1, 7⟩)).step (.finish 24)).stage = .idle := by decide +kernel
  have hpow : ∀ n ∈ [2], ∃ k, n = 2 ^ k := by
    intro n hn
    exact ⟨1, List.mem_singleton.mp hn⟩
  exact ⟨loop_delivers [2] hpow (by decide) _ (hfinished.step .drain hidle trivial), by decide +kernel⟩

/-! ## Ids that do not rise -/

/-- A queue of one descriptor after `k` chains. -/
def spent (k : Nat) : Vq where
  vr := ⟨1, k, k⟩
  availIdx := k
  ring := fun _ => 0
  used := fun _ => ⟨0, 0⟩
  usedIdx := k
  base := 0
  offered := List.replicate k 0
  pops := k
  published := List.range k

/-- The same with one more, which was popped. -/
def taken (k : Nat) : Vq := { spent (k + 1) with vr := ⟨1, k + 1, k⟩, usedIdx := k, published := List.range k }

theorem spent_free (k : Nat) : (spent k).Free 0 := by
  refine ⟨Nat.one_pos, fun i hi => ?_⟩
  have hlt := (List.getElem?_eq_some_iff.mp hi).1
  rw [spent, List.length_replicate] at hlt
  exact List.mem_range.mpr hlt

theorem update_const {α : Type} (i : Nat) (a : α) : Function.update (fun _ => a) i a = fun _ => a :=
  Function.update_eq_self i fun _ => a

variable {k q : Nat}

theorem spent_offer (hk : k < 1000) :
    (spent k).offer 0 = { spent (k + 1) with vr := ⟨1, k, k⟩, usedIdx := k, pops := k, published := List.range k } := by
  have hidx : u16 (k + 1) = k + 1 := Nat.mod_eq_of_lt (by omega)
  simp only [Vq.offer, spent, hidx, update_const, List.replicate_succ']

theorem offered_popped (hk : k < 1000) : ((spent k).offer 0).popped = taken k := by
  have hidx : u16 (k + 1) = k + 1 := Nat.mod_eq_of_lt (by omega)
  rw [spent_offer hk]
  simp only [Vq.popped, Vring.popped, taken, spent, hidx]

theorem taken_push (hk : k < 1000) : (taken k).push k ⟨0, 0⟩ = spent (k + 1) := by
  have hidx : u16 (k + 1) = k + 1 := Nat.mod_eq_of_lt (by omega)
  simp only [Vq.push, taken, spent, Vring.pushed, hidx, update_const, List.range_succ]

theorem pop_offered (hk : k < 1000) : (Vring.pop ((spent k).offer 0).vr
    (((spent k).offer 0).view (fun _ _ => ⟨0, 0, 0, 0⟩) fun _ _ => none)).1 = some ⟨0, [], [], 0, 0⟩ := by
  have hidx : u16 (k + 1) = k + 1 := Nat.mod_eq_of_lt (by omega)
  have hsub : u16Sub (k + 1) k = 1 := by unfold u16Sub; omega
  rw [spent_offer hk]
  simp only [spent, Vring.pop, Vq.view, hidx, hsub]
  simp [Vring.walk, Vring.hopLimit, u16, addDesc, Desc.hasNext]

/-- The one fence the guest ever asks for. -/
def same : Fence := ⟨0, 0, 7⟩

def submit (s : Loop) (q : Nat) : Loop := (((s.step (.offer q 0)).step (popEmpty q)).step (.fence same)).step (.finish 0)

theorem submit_reachable (h : Reachable [1, 1] InOrder s) (hq : q < 2) (hk : k < 1000) (hidle : s.stage = .idle)
    (hqueue : s.queue q = spent k) {table : List (Option Parked)}
    (htable : SlotTable.place Option.isNone (some ⟨⟨⟨q, k, 0⟩, 0⟩, same, s.queued.length⟩) s.table = some table) :
    Reachable [1, 1] InOrder (submit s q) ∧ submit s q = { s with
      queue := Function.update s.queue q (taken k), table := table, popped := s.popped ++ [⟨q, k, 0⟩]
      served := s.served ++ [⟨⟨q, k, 0⟩, 0⟩], created := s.created ++ [same] } := by
  have hpop : ((s.step (.offer q 0)).step (popEmpty q)) = { s with
      queue := Function.update s.queue q (taken k), popped := s.popped ++ [⟨q, k, 0⟩]
      stage := .serving ⟨q, k, 0⟩ none } := by
    simp only [Loop.step, popEmpty, Loop.pop, Function.update_self, hqueue, pop_offered hk, offered_popped hk,
      Function.update_idem]
    simp [spent_offer hk]
  have hoffered : Reachable [1, 1] InOrder (s.step (.offer q 0)) := h.step _ ⟨hq, hqueue ▸ spent_free k⟩ trivial
  have hpopped := hoffered.step (popEmpty q) ⟨hq, hidle⟩ trivial
  have hstage : ((s.step (.offer q 0)).step (popEmpty q)).stage = .serving ⟨q, k, 0⟩ none := by rw [hpop]
  have hfenced := hpopped.step (.fence same) ⟨_, hstage⟩ trivial
  refine ⟨hfenced.step (.finish 0) ?_ trivial, ?_⟩
  · rw [hpop]
    simp [Loop.step, Loop.fence, Enabled]
  · rw [submit, hpop]
    simp [Loop.step, Loop.fence, Loop.finish, htable, hidle]

/-- All slots of the table but two. -/
def empties : List (Option Parked) := List.replicate 510 none

theorem empties_parked : empties.filterMap (fun slot => slot) = [] := by
  rw [empties, List.filterMap_replicate_of_none rfl]

theorem empties_map (keep : Parked → Bool) : empties.map (Option.filter keep) = empties := by
  rw [empties, List.map_replicate]
  rfl

structure Doubled (n : Nat) (s : Loop) : Prop where
  reach : Reachable [1, 1] InOrder s
  stage : s.stage = .idle
  queue : s.queue 0 = spent n ∧ s.queue 1 = spent n
  table : s.table = none :: none :: empties
  signals : s.sig = (fun _ => same) ∧ s.sigHead = n ∧ s.sigTail = n ∧ s.dropped = 0
  fences : s.created = List.replicate (2 * n) same ∧ s.called = List.replicate n same

theorem callback_same {c d : Nat} (h : Reachable [1, 1] InOrder s) (hcreated : s.created = List.replicate c same)
    (hcalled : s.called = List.replicate d same) (hlt : d < c) : Reachable [1, 1] InOrder (s.step (.callback same)) := by
  refine h.step _ ?_ ?_
  · show same ∈ s.created
    rw [hcreated]
    exact List.mem_replicate.mpr ⟨by omega, rfl⟩
  · show List.Sublist _ _
    have hring : same.sameRing same = true := rfl
    rw [hcreated, hcalled, ← List.replicate_succ', List.filter_replicate_of_pos hring, List.filter_replicate_of_pos hring]
    exact (List.replicate_sublist_replicate _).mpr hlt

theorem Doubled.next {n : Nat} (h : Doubled n s) (hn : n < 999) :
    Doubled (n + 1) (((submit (submit s 0) 1).step (.callback same)).step .drain) := by
  obtain ⟨hq0, hq1⟩ := h.queue
  obtain ⟨hsig, hhead, htail, hdropped⟩ := h.signals
  obtain ⟨hcreated, hcalled⟩ := h.fences
  have hplace : SlotTable.place Option.isNone (some ⟨⟨⟨0, n, 0⟩, 0⟩, same, s.queued.length⟩) s.table =
      some (some ⟨⟨⟨0, n, 0⟩, 0⟩, same, s.queued.length⟩ :: none :: empties) := by
    rw [h.table]
    rfl
  obtain ⟨hreach₁, heq₁⟩ := submit_reachable h.reach (by decide) (by omega) h.stage hq0 hplace
  have hplace₁ : SlotTable.place Option.isNone (some ⟨⟨⟨1, n, 0⟩, 0⟩, same, (submit s 0).queued.length⟩)
      (submit s 0).table = some (some ⟨⟨⟨0, n, 0⟩, 0⟩, same, s.queued.length⟩ ::
        some ⟨⟨⟨1, n, 0⟩, 0⟩, same, s.queued.length⟩ :: empties) := by
    rw [heq₁]
    rfl
  have hq1' : (submit s 0).queue 1 = spent n := by
    rw [heq₁]
    exact (Function.update_of_ne Nat.one_ne_zero (taken n) s.queue).trans hq1
  obtain ⟨hreach₂, heq₂⟩ := submit_reachable hreach₁ (by decide) (by omega) (by rw [heq₁]; exact h.stage) hq1' hplace₁
  have hreach₃ := callback_same (c := 2 * n + 2) (d := n) hreach₂
    (by rw [heq₂, heq₁]; simp [hcreated, List.replicate_succ'])
    (by rw [heq₂, heq₁]; exact hcalled) (by omega)
  have hnext : u32 (n + 1) = n + 1 := Nat.mod_eq_of_lt (by omega)
  have hnone : u32Sub n n = 0 := by unfold u32Sub; omega
  have hone : u32Sub (n + 1) n = 1 := by unfold u32Sub; omega
  have hcovers : same.Covers same := by decide
  have hidle : ((submit (submit s 0) 1).step (.callback same)).stage = .idle := by
    rw [heq₂, heq₁]
    simp [Loop.step, Loop.callback, hhead, htail, hnone, h.stage]
  have hreach := hreach₃.step .drain hidle trivial
  have hpush := taken_push (k := n) (by omega)
  generalize hfinal : ((submit (submit s 0) 1).step (.callback same)).step .drain = t at hreach ⊢
  rw [heq₂, heq₁] at hfinal
  simp [Loop.step, Loop.callback, Loop.drain, drainLoop, turn, release, unpark, takeSignal, hhead, htail, hsig, hnone,
    hone, hnext, parked, hcovers, Loop.push, Served.elem, hpush, empties_parked, empties_map, Option.filter_some] at hfinal
  subst hfinal
  constructor
  case reach => exact hreach
  case table => rfl
  all_goals simp [h.stage, hdropped, hcreated, hcalled, Nat.mul_add, List.replicate_succ']

theorem doubled_zero : Doubled 0 { oneQueue with queue := fun _ => spent 0, sig := fun _ => same } := by
  constructor
  case reach =>
    refine .start ⟨fun q num hq => ?_, rfl, ⟨rfl, rfl, rfl⟩, rfl, ⟨rfl, rfl, rfl, rfl⟩, ⟨rfl, rfl, rfl, rfl⟩⟩
    obtain rfl : num = 1 := by
      have hmem := List.mem_of_getElem? hq
      simpa using hmem
    exact ⟨rfl, rfl, rfl, rfl, rfl, rfl⟩
  case stage => rfl
  case queue => exact ⟨rfl, rfl⟩
  case table => rfl
  case signals => exact ⟨rfl, rfl, rfl, rfl⟩
  case fences => exact ⟨rfl, rfl⟩

theorem doubled (n : Nat) (hn : n ≤ 999) : ∃ s, Doubled n s := by
  induction n with
  | zero => exact ⟨_, doubled_zero⟩
  | succ n ih =>
    obtain ⟨s, hs⟩ := ih (by omega)
    exact ⟨_, hs.next (by omega)⟩

/-- After `m` callbacks for fences whose chains are gone. -/
theorem pending {n m : Nat} (hm : m ≤ 256) (hn : 256 < n) (hn' : n ≤ 999) : ∃ s, Reachable [1, 1] InOrder s ∧
    s.sigHead = n + m ∧ s.sigTail = n ∧ s.dropped = 0 ∧ s.created = List.replicate (2 * n) same ∧
    s.called = List.replicate (n + m) same := by
  induction m with
  | zero =>
    obtain ⟨s, hs⟩ := doubled n hn'
    exact ⟨s, hs.reach, hs.signals.2.1, hs.signals.2.2.1, hs.signals.2.2.2, hs.fences.1, hs.fences.2⟩
  | succ m ih =>
    obtain ⟨s, hreach, hhead, htail, hdropped, hcreated, hcalled⟩ := ih (by omega)
    have hroom : u32Sub (n + m) n = m := by unfold u32Sub; omega
    have hnext : u32 (n + m + 1) = n + m + 1 := Nat.mod_eq_of_lt (by omega)
    have hlt : m < 256 := by omega
    refine ⟨_, callback_same hreach hcreated hcalled (by omega), ?_⟩
    simp [Loop.step, Loop.callback, hhead, htail, hroom, hlt, hnext, hdropped, hcreated, hcalled, ← Nat.add_assoc,
      List.replicate_succ']

/-- Every request asks for a fence of the same id. Each signal releases two chains, so that 257 fences are left to be
called back when no chain waits any more, and the queue of signals has room for 256. -/
theorem signal_dropped : ∃ s, Reachable [1, 1] InOrder s ∧ s.dropped = 1 := by
  obtain ⟨s, hreach, hhead, htail, hdropped, hcreated, hcalled⟩ := pending (n := 257) (m := 256) (by decide) (by decide)
    (by decide)
  refine ⟨_, callback_same hreach hcreated hcalled (by decide), ?_⟩
  have hfull : u32Sub (257 + 256) 257 = 256 := by decide
  simp [Loop.step, Loop.callback, hhead, htail, hfull, hdropped]

end MoCoLinux.Cogpu.Loop
