import MoCoLinux.Cogpu.Fences
import Mathlib.Data.List.Nodup
import Mathlib.Data.List.Perm.Subperm

/-!
# One queue

Popping takes the heads in the order in which the guest made them available, whatever is pushed in between, because the
guest never has more chains outstanding than the ring has slots.
-/

namespace MoCoLinux.Cogpu

variable {chain chain' : Chain}

theorem chainAdd_head {write : Bool} {addr len : Nat}
    (h : chainAdd chain write addr len = some chain') : chain'.head = chain.head := by
  cases write with
  | false =>
    simp only [chainAdd, Bool.false_eq_true, if_false, Option.map_eq_some_iff] at h
    obtain ⟨bufs, -, rfl⟩ := h
    rfl
  | true =>
    simp only [chainAdd, if_true, Option.map_eq_some_iff] at h
    obtain ⟨bufs, -, rfl⟩ := h
    rfl

theorem addPages_head {resolve : Nat → Nat → Option Nat} {write : Bool} {turns addr left : Nat}
    (h : addPages resolve write turns addr left chain = some chain') : chain'.head = chain.head := by
  induction turns generalizing addr left chain with
  | zero =>
    cases h
    rfl
  | succ turns ih =>
    simp only [addPages] at h
    split at h
    · cases h
      rfl
    · split at h
      · cases h
      · split at h
        · cases h
        · rename_i hadd
          exact (ih h).trans (chainAdd_head hadd)

theorem addDesc_head {resolve : Nat → Nat → Option Nat} {d : Desc}
    (h : addDesc resolve d chain = some chain') : chain'.head = chain.head := by
  simp only [addDesc] at h
  split at h
  · cases h
    rfl
  · obtain ⟨added, hadded, rfl⟩ := Option.map_eq_some_iff.mp h
    have hhead : added.head = chain.head := by
      split at hadded
      · exact chainAdd_head hadded
      · exact addPages_head hadded
    split <;> exact hhead

theorem Vring.walk_head {num hops i : Nat} {view : View}
    (h : (walk num view hops i chain).1 = some chain') : chain'.head = chain.head := by
  induction hops generalizing i chain with
  | zero =>
    simp only [walk] at h
    split at h <;> cases h
  | succ hops ih =>
    simp only [walk] at h
    split at h
    · cases h
    · split at h
      · cases h
      · rename_i hadd
        split at h
        · exact (ih h).trans (addDesc_head hadd)
        · cases h
          exact addDesc_head hadd

theorem Vring.pop_some {vr : Vring} {view : View} (h : (vr.pop view).1 = some chain) :
    u16 view.availIdx ≠ vr.lastAvail ∧ chain.head = u16 (view.ring (vr.lastAvail % vr.num)) := by
  simp only [pop] at h
  split at h
  · cases h
  · rename_i hnew
    split at h
    · cases h
    · split at h
      · cases h
      · exact ⟨hnew, walk_head h⟩

namespace Vq

open Function

variable {v : Vq} {head number : Nat} {desc : Nat → Nat → Desc} {resolve : Nat → Nat → Option Nat}

structure Inv (v : Vq) : Prop where
  num : v.vr.num ∣ 2 ^ 16
  avail : v.availIdx = u16 (v.base + v.offered.length)
  last : v.vr.lastAvail = u16 (v.base + v.pops)
  used : v.vr.usedIdx = u16 (v.base + v.published.length)
  idx : v.usedIdx = v.vr.usedIdx
  pops : v.pops ≤ v.offered.length
  published : ∀ k ∈ v.published, k < v.pops
  once : v.published.Nodup
  heads : ∀ head ∈ v.offered, head < v.vr.num
  reused : ∀ i j head, i < j → v.offered[i]? = some head → v.offered[j]? = some head → i ∈ v.published
  window : Ring.Window v.vr.num v.ring v.base (v.base + v.published.length) v.offered

def outstanding (v : Vq) : List Nat := (List.range v.offered.length).filter fun k => k ∉ v.published

variable {k : Nat}

theorem mem_outstanding : k ∈ v.outstanding ↔ k < v.offered.length ∧ k ∉ v.published := by
  simp [outstanding]

section

variable (h : v.Inv)
include h

theorem Inv.length_outstanding : v.outstanding.length + v.published.length = v.offered.length := by
  have hpublished : ((List.range v.offered.length).filter fun k => k ∈ v.published).Perm v.published := by
    refine (List.perm_ext_iff_of_nodup (List.nodup_range.filter _) h.once).mpr fun k => ?_
    simp only [List.mem_filter, List.mem_range, decide_eq_true_eq, and_iff_right_iff_imp]
    exact fun hk => Nat.lt_of_lt_of_le (h.published k hk) h.pops
  have hsplit := List.length_eq_length_filter_add (l := List.range v.offered.length) fun k => decide (k ∈ v.published)
  rw [List.length_range, hpublished.length_eq] at hsplit
  have hsame : (List.range v.offered.length).filter (fun k => !decide (k ∈ v.published)) = v.outstanding := by
    simp [outstanding]
  rw [hsame] at hsplit
  omega

theorem Inv.head_lt (hk : v.offered[k]? = some head) : head < v.vr.num :=
  h.heads head (List.mem_of_getElem? hk)

theorem Inv.distinct {i j : Nat} (hi : v.offered[i]? = some head) (hj : v.offered[j]? = some head)
    (hiout : i ∉ v.published) (hjout : j ∉ v.published) : i = j := by
  rcases Nat.lt_trichotomy i j with hlt | heq | hgt
  · exact absurd (h.reused i j head hlt hi hj) hiout
  · exact heq
  · exact absurd (h.reused j i head hgt hj hi) hjout

theorem Inv.cell (p : Nat) : u16 p % v.vr.num = p % v.vr.num := Ring.index_cell h.num p

theorem Inv.room (hfree : v.Free head) : v.outstanding.length < v.vr.num := by
  have hhead : ∀ k ∈ v.outstanding, ∃ head, v.offered[k]? = some head := fun k hk =>
    ⟨_, List.getElem?_eq_getElem (mem_outstanding.mp hk).1⟩
  have hnodup : (head :: v.outstanding.map fun k => v.offered[k]?.getD 0).Nodup := by
    refine List.nodup_cons.mpr ⟨fun hmem => ?_, ?_⟩
    · obtain ⟨k, hk, heq⟩ := List.mem_map.mp hmem
      obtain ⟨head', hhead'⟩ := hhead k hk
      rw [hhead', Option.getD_some] at heq
      exact (mem_outstanding.mp hk).2 (hfree.2 k (heq ▸ hhead'))
    · refine (List.nodup_range.filter _).map_on fun i hi j hj heq => ?_
      obtain ⟨head', hi'⟩ := hhead i hi
      obtain ⟨head'', hj'⟩ := hhead j hj
      rw [hi', hj', Option.getD_some, Option.getD_some] at heq
      exact h.distinct hi' (heq ▸ hj') (mem_outstanding.mp hi).2 (mem_outstanding.mp hj).2
  have hbelow : (head :: v.outstanding.map fun k => v.offered[k]?.getD 0) ⊆ List.range v.vr.num := by
    intro x hx
    rw [List.mem_range]
    rcases List.mem_cons.mp hx with rfl | hx
    · exact hfree.1
    · obtain ⟨k, hk, rfl⟩ := List.mem_map.mp hx
      obtain ⟨head', hhead'⟩ := hhead k hk
      rw [hhead', Option.getD_some]
      exact h.head_lt hhead'
  have hle := (List.subperm_of_subset hnodup hbelow).length_le
  simp only [List.length_cons, List.length_map, List.length_range] at hle
  exact hle

theorem Inv.offer (hfree : v.Free head) : (v.offer head).Inv := by
  have hroom := h.room hfree
  have hcount := h.length_outstanding
  have hold : ∀ {k head'}, (v.offered ++ [head])[k]? = some head' →
      v.offered[k]? = some head' ∨ k = v.offered.length ∧ head' = head := by
    intro k head' hk
    rcases Nat.lt_trichotomy k v.offered.length with hlt | rfl | hgt
    · exact .inl (List.getElem?_append_left hlt ▸ hk)
    · exact .inr ⟨rfl, by simpa [eq_comm] using hk⟩
    · rw [List.getElem?_append_right (Nat.le_of_lt hgt), List.getElem?_eq_none (by simp; omega)] at hk
      cases hk
  constructor
  case num => exact h.num
  case avail =>
    simp only [Vq.offer, h.avail, List.length_append, List.length_singleton]
    unfold u16
    omega
  case last => exact h.last
  case used => exact h.used
  case idx => exact h.idx
  case pops =>
    simp only [Vq.offer, List.length_append]
    exact Nat.le_add_right_of_le h.pops
  case published => exact h.published
  case once => exact h.once
  case heads =>
    intro head' hmem
    rcases List.mem_append.mp hmem with hmem | hmem
    · exact h.heads head' hmem
    · exact List.mem_singleton.mp hmem ▸ hfree.1
  case reused =>
    intro i j head' hlt hi hj
    rcases hold hj with hj | ⟨rfl, rfl⟩
    · refine h.reused i j head' hlt ?_ hj
      have hbelow := (List.getElem?_eq_some_iff.mp hj).1
      exact (hold hi).resolve_right fun heq => by omega
    · exact hfree.2 i ((hold hi).resolve_right fun heq => by omega)
  case window =>
    have hcell : v.availIdx % v.vr.num = (v.base + v.offered.length) % v.vr.num := by rw [h.avail, h.cell]
    have hwritten := (h.window.update (v := head) (Nat.le_refl _) (by omega)).publish (n := 1) (by omega)
    simp only [Ring.slice, Function.update_self] at hwritten
    simpa only [Vq.offer, hcell] using hwritten

theorem Inv.published_le : v.published.length ≤ v.pops := by
  have hle := (List.subperm_of_subset h.once fun k hk => List.mem_range.mpr (h.published k hk)).length_le
  rwa [List.length_range] at hle

theorem Inv.ring_at (hout : v.published.length ≤ k) (hk : k < v.offered.length) :
    v.offered[k]? = some (v.ring ((v.base + k) % v.vr.num)) := by
  have hread := h.window.read (p := v.base + k) (n := 1) (by omega) (by omega)
  rw [Nat.add_sub_cancel_left, List.drop_eq_getElem_cons hk] at hread
  simp only [Ring.slice, List.take_succ_cons, List.take_zero, List.cons.injEq, and_true] at hread
  rw [hread, List.getElem?_eq_getElem hk]

theorem Inv.pop {chain : Chain} (hpop : (v.vr.pop (v.view desc resolve)).1 = some chain) :
    v.popped.Inv ∧ v.offered[v.pops]? = some chain.head := by
  obtain ⟨hnew, hhead⟩ := Vring.pop_some hpop
  have hmore : v.pops < v.offered.length := by
    refine Nat.lt_of_le_of_ne h.pops fun heq => hnew ?_
    simp only [Vq.view, h.avail, h.last, heq]
    exact Nat.mod_mod ..
  have hat := h.ring_at h.published_le hmore
  have hword : v.vr.num ≤ 2 ^ 16 := Nat.le_of_dvd (by decide) h.num
  constructor
  · constructor
    case num => exact h.num
    case avail => exact h.avail
    case last =>
      simp only [Vq.popped, Vring.popped, h.last]
      unfold u16
      omega
    case used => exact h.used
    case idx => exact h.idx
    case pops => exact hmore
    case published => exact fun k hk => Nat.lt_succ_of_lt (h.published k hk)
    case once => exact h.once
    case heads => exact h.heads
    case reused => exact h.reused
    case window => exact h.window
  · rw [hhead, h.last, h.cell, hat]
    exact congrArg some (Nat.mod_eq_of_lt (Nat.lt_of_lt_of_le (h.head_lt hat) hword)).symm

theorem Inv.push (hpopped : number < v.pops) (hout : number ∉ v.published) (e : UsedElem) :
    (v.push number e).Inv := by
  have honce : (v.published ++ [number]).Nodup := List.concat_eq_append ▸ h.once.concat hout
  have hbelow : ∀ k ∈ v.published ++ [number], k < v.pops := by
    intro k hk
    rcases List.mem_append.mp hk with hk | hk
    · exact h.published k hk
    · exact List.mem_singleton.mp hk ▸ hpopped
  have hle := (List.subperm_of_subset honce fun k hk => List.mem_range.mpr (hbelow k hk)).length_le
  rw [List.length_append, List.length_singleton, List.length_range] at hle
  have hpops := h.pops
  constructor
  case num => exact h.num
  case avail => exact h.avail
  case last => exact h.last
  case used =>
    simp only [Vq.push, Vring.pushed, h.used, List.length_append, List.length_singleton]
    unfold u16
    omega
  case idx => rfl
  case pops => exact h.pops
  case published => exact hbelow
  case once => exact honce
  case heads => exact h.heads
  case reused => exact fun i j head hlt hi hj => List.mem_append_left _ (h.reused i j head hlt hi hj)
  case window =>
    refine h.window.release ?_ ?_
    · simp only [Vq.push, List.length_append]
      omega
    · simp only [Vq.push, List.length_append, List.length_singleton]
      omega

end

/-! ## The used ring -/

/-- The queue has so many descriptors, and these are the chains that were pushed on it. -/
structure Keeps (num : Nat) (pushed : List Served) (v : Vq) : Prop where
  inv : v.Inv
  size : v.vr.num = num
  numbers : v.published = pushed.map fun c => c.job.number
  publishes : v.Publishes (pushed.map Served.elem)

variable {num : Nat} {pushed : List Served} {c : Served}

theorem Publishes.push (h : v.Publishes (pushed.map Served.elem)) (hinv : v.Inv)
    (hnumbers : v.published = pushed.map fun c => c.job.number) :
    (v.push c.job.number c.elem).Publishes ((pushed ++ [c]).map Served.elem) := by
  have hlen : v.published.length = (pushed.map Served.elem).length := by
    rw [hnumbers, List.length_map, List.length_map]
  have hcell : v.vr.pushSlot = (v.base + (pushed.map Served.elem).length) % v.vr.num := by
    rw [Vring.pushSlot, hinv.used, hinv.cell, hlen]
  rw [List.map_append, List.map_singleton]
  generalize pushed.map Served.elem = elems at *
  constructor
  case idx =>
    simp only [Vq.push, Vring.pushed, hinv.used, hlen, List.length_append, List.length_singleton]
    unfold u16
    omega
  case ring =>
    intro i e hi hlast
    rw [List.length_append, List.length_singleton] at hlast
    change elems.length + 1 ≤ i + v.vr.num at hlast
    show update v.used v.vr.pushSlot c.elem ((v.base + i) % v.vr.num) = e
    rw [hcell]
    rcases Nat.lt_or_ge i elems.length with hlt | hge
    · rw [List.getElem?_append_left hlt] at hi
      rw [update_of_ne (Ring.cell_ne (by omega) (by omega))]
      exact h.ring i e hi (by omega)
    · obtain rfl : i = elems.length := by
        have := (List.getElem?_eq_some_iff.mp hi).1
        rw [List.length_append, List.length_singleton] at this
        omega
      rw [List.getElem?_concat_length, Option.some.injEq] at hi
      rw [update_self, hi]

theorem Keeps.push (h : v.Keeps num pushed) (hpopped : c.job.number < v.pops) (hout : c.job.number ∉ v.published) :
    (v.push c.job.number c.elem).Keeps num (pushed ++ [c]) where
  inv := h.inv.push hpopped hout _
  size := h.size
  numbers := by rw [Vq.push, h.numbers, List.map_append]; rfl
  publishes := h.publishes.push h.inv h.numbers

end Vq

end MoCoLinux.Cogpu
