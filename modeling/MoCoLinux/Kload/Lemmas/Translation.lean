import MoCoLinux.Kload.Lemmas.Window
import MoCoLinux.Kload.Translation
import MoCoLinux.Lib.LinearProbing

/-!
# The reverse map is an inverse of the p2m

`Translated` says that the m2p is a linear-probing table with one value for each backed page, hashed by the
page's machine frame. Lookups then answer exactly for the frames of backed pages, and the table always has
an empty slot, so an insertion ends.
-/

namespace MoCoLinux.Kload

open Function
open LinearProbing

variable {k : Kload} {p2m m2p : Nat → Nat} {mfn N : Nat}

def m2pTable (m2p : Nat → Nat) (slot : Nat) : Option Nat :=
  if m2p slot = 0 then none else some (m2p slot - 1)

theorem m2pTable_eq_none {slot : Nat} : m2pTable m2p slot = none ↔ m2p slot = 0 := by
  unfold m2pTable; split <;> simp_all

theorem m2pTable_update (slot v : Nat) :
    m2pTable (update m2p slot (v + 1)) = update (m2pTable m2p) slot (some v) := by
  funext s
  by_cases hs : s = slot
  · subst hs; simp [m2pTable]
  · simp [m2pTable, hs]

structure Geometry (k : Kload) : Prop where
  slots : ∃ e ≤ 32, k.m2pSlots = 2 ^ e
  mask : k.m2pMaskValue = k.m2pSlots - 1
  capacity : k.p2mCapacity < k.m2pSlots
  pages : 0 < k.p2mCapacity

theorem Geometry.congr {k' : Kload} (g : k.Geometry) (hs : k'.m2pSlots = k.m2pSlots)
    (hm : k'.m2pMaskValue = k.m2pMaskValue) (hc : k'.p2mCapacity = k.p2mCapacity) : k'.Geometry :=
  ⟨hs ▸ g.slots, hm ▸ hs ▸ g.mask, hs ▸ hc ▸ g.capacity, hc ▸ g.pages⟩

theorem Geometry.pos (g : k.Geometry) : 0 < k.m2pSlots := by have := g.capacity; omega

theorem Geometry.le (g : k.Geometry) : k.m2pSlots ≤ 2 ^ 32 := by
  obtain ⟨e, he, hs⟩ := g.slots
  rw [hs]
  exact Nat.pow_le_pow_right (by decide) he

theorem Geometry.capacity_lt (g : k.Geometry) : k.p2mCapacity < 2 ^ 32 :=
  Nat.lt_of_lt_of_le g.capacity g.le

theorem Geometry.and_mask (g : k.Geometry) (a : Nat) : a &&& k.m2pMaskValue = a % k.m2pSlots := by
  obtain ⟨e, -, hs⟩ := g.slots
  rw [g.mask, hs, Nat.and_two_pow_sub_one_eq_mod]

theorem Geometry.mod_mod (g : k.Geometry) (a : Nat) {b : Nat} (hb : 32 ≤ b) :
    a % 2 ^ b % k.m2pSlots = a % k.m2pSlots := by
  obtain ⟨e, he, hs⟩ := g.slots
  rw [hs]
  exact Nat.mod_mod_of_dvd a (Nat.pow_dvd_pow 2 (by omega))

def frameKey (mfn : Nat) : Nat := mfn * 11400714819323198485

theorem Geometry.m2pHash_eq (g : k.Geometry) (mfn : Nat) : k.m2pHash mfn = frameKey mfn % k.m2pSlots := by
  have hlt : frameKey mfn % k.m2pSlots < 2 ^ 32 := Nat.lt_of_lt_of_le (Nat.mod_lt _ g.pos) g.le
  rw [m2pHash, g.and_mask, ullong, g.mod_mod _ (by decide)]
  exact ulong_of_lt hlt

theorem Geometry.m2pNext_eq (g : k.Geometry) (slot : Nat) : k.m2pNext slot = (slot + 1) % k.m2pSlots := by
  rw [m2pNext, g.and_mask, ulong, g.mod_mod _ (le_refl _)]

theorem Geometry.machineToPseudoLoop_eq (g : k.Geometry) (p2m m2p : Nat → Nat) (mfn fuel slot : Nat) :
    machineToPseudoLoop k p2m m2p mfn fuel slot =
      find (m2pTable m2p) k.m2pSlots (fun v => decide (v < k.backedPages ∧ p2m v = mfn)) fuel slot := by
  induction fuel generalizing slot with
  | zero => rfl
  | succ fuel ih =>
    rw [machineToPseudoLoop, find]
    by_cases h0 : m2p slot = 0
    · simp [h0, m2pTable_eq_none.mpr h0]
    · have hs : m2pTable m2p slot = some (m2p slot - 1) := by simp [m2pTable, h0]
      simp only [h0, if_false, hs, ih, g.m2pNext_eq, decide_eq_true_eq]

theorem Geometry.m2pFree_eq (g : k.Geometry) (m2p : Nat → Nat) (fuel slot : Nat) :
    m2pFree k m2p fuel slot = freeSlot (m2pTable m2p) k.m2pSlots fuel slot := by
  induction fuel generalizing slot with
  | zero => rfl
  | succ fuel ih =>
    rw [m2pFree, freeSlot]
    by_cases h0 : m2p slot = 0
    · simp [h0, m2pTable_eq_none.mpr h0]
    · have hs : m2pTable m2p slot = some (m2p slot - 1) := by simp [m2pTable, h0]
      simp only [h0, ne_eq, not_false_eq_true, if_true, hs, ih, g.m2pNext_eq]

structure Filled (k : Kload) (m2p : Nat → Nat) (N : Nat) : Prop where
  stored : ∀ s < k.m2pSlots, ∀ v, m2pTable m2p s = some v → v < N
  occupied : occupied (m2pTable m2p) k.m2pSlots = N

/-- The m2p holds the first `N` pages of the p2m, hashed by their frames, and no frame twice. -/
structure Mirror (k : Kload) (p2m m2p : Nat → Nat) (N : Nat) : Prop extends Filled k m2p N where
  reachable : Reachable (m2pTable m2p) k.m2pSlots fun v => frameKey (p2m v)
  present : ∀ v < N, ∃ s < k.m2pSlots, m2pTable m2p s = some v
  inj : ∀ i < N, ∀ j < N, p2m i = p2m j → i = j

theorem Filled.empty (hz : ∀ s < k.m2pSlots, m2p s = 0) : Filled k m2p 0 where
  stored s hs v hv := by simp [m2pTable_eq_none.mpr (hz s hs)] at hv
  occupied := occupied_empty fun s hs => m2pTable_eq_none.mpr (hz s hs)

theorem Mirror.empty (hz : ∀ s < k.m2pSlots, m2p s = 0) : Mirror k p2m m2p 0 where
  toFilled := Filled.empty hz
  reachable s hs v hv := by simp [m2pTable_eq_none.mpr (hz s hs)] at hv
  present v hv := by omega
  inj i hi := by omega

theorem Mirror.congr {p2m' : Nat → Nat} (h : Mirror k p2m m2p N) (heq : ∀ i < N, p2m' i = p2m i) :
    Mirror k p2m' m2p N where
  toFilled := h.toFilled
  reachable := h.reachable.congr fun s hs v hv => by rw [heq v (h.stored s hs v hv)]
  present := h.present
  inj i hi j hj he := h.inj i hi j hj (by rwa [heq i hi, heq j hj] at he)

theorem Filled.probe (h : Filled k m2p N) (g : k.Geometry) (hN : N < k.p2mCapacity) (mfn : Nat) :
    ∃ d < k.m2pSlots, m2pFree k m2p k.m2pSlots (k.m2pHash mfn) = some ((frameKey mfn + d) % k.m2pSlots) ∧
      m2pTable m2p ((frameKey mfn + d) % k.m2pSlots) = none ∧
      ∀ j < d, m2pTable m2p ((frameKey mfn + j) % k.m2pSlots) ≠ none := by
  have hcap := g.capacity
  have hfree := exists_free (t := m2pTable m2p) (n := k.m2pSlots) (by rw [h.occupied]; omega)
  obtain ⟨d, hd, hslot, hrest⟩ := freeSlot_eq_some (frameKey mfn) hfree
  exact ⟨d, hd, by rw [g.m2pFree_eq, g.m2pHash_eq, hslot], hrest⟩

theorem Filled.insert (h : Filled k m2p N) {slot : Nat} (hlt : slot < k.m2pSlots)
    (hnone : m2pTable m2p slot = none) : Filled k (update m2p slot (N + 1)) (N + 1) where
  stored s hs v hv := by
    rw [m2pTable_update] at hv
    by_cases he : s = slot
    · rw [he, update_self, Option.some.injEq] at hv
      omega
    · rw [update_of_ne he] at hv
      exact Nat.lt_succ_of_lt (h.stored s hs v hv)
  occupied := by rw [m2pTable_update, occupied_insert hlt hnone, h.occupied]

theorem Mirror.insert (h : Mirror k p2m m2p N) {d : Nat} (hd : d < k.m2pSlots)
    (hnone : m2pTable m2p ((frameKey mfn + d) % k.m2pSlots) = none)
    (hocc : ∀ j < d, m2pTable m2p ((frameKey mfn + j) % k.m2pSlots) ≠ none) (hfresh : ∀ i < N, p2m i ≠ mfn) :
    Mirror k (update p2m N mfn)
      (update m2p ((frameKey mfn + d) % k.m2pSlots) (N + 1)) (N + 1) := by
  have hlt : (frameKey mfn + d) % k.m2pSlots < k.m2pSlots := Nat.mod_lt _ (by omega)
  have hold : ∀ i < N, update p2m N mfn i = p2m i := fun i hi =>
    update_of_ne (by omega) _ _
  have hkey : frameKey (update p2m N mfn N) = frameKey mfn := by rw [update_self]
  refine ⟨h.toFilled.insert hlt hnone, ?_, fun v hv => ?_, fun i hi j hj he => ?_⟩
  · rw [m2pTable_update, ← hkey]
    refine Reachable.insert (h.congr hold).reachable hd ?_
    rwa [hkey]
  · rw [m2pTable_update]
    rcases Nat.lt_succ_iff_lt_or_eq.mp hv with hv | rfl
    · obtain ⟨s, hs, hsv⟩ := h.present v hv
      refine ⟨s, hs, ?_⟩
      rw [update_of_ne (fun he => by rw [he, hnone] at hsv; cases hsv)]
      exact hsv
    · exact ⟨_, hlt, update_self ..⟩
  · rcases Nat.lt_succ_iff_lt_or_eq.mp hi with hi | rfl <;> rcases Nat.lt_succ_iff_lt_or_eq.mp hj with hj | rfl
    · rw [hold i hi, hold j hj] at he
      exact h.inj i hi j hj he
    · rw [hold i hi, update_self] at he
      exact absurd he (hfresh i hi)
    · rw [hold j hj, update_self] at he
      exact absurd he.symm (hfresh j hj)
    · rfl

variable {first n : Nat} {frame : Nat → Nat}

theorem Filled.insertPages (h : Filled k m2p first) (g : k.Geometry) (hn : first + n ≤ k.p2mCapacity)
    (p2m frame : Nat → Nat) :
    ∃ m2p', k.insertPages first frame p2m m2p n = some (Slots.fill (first + ·) frame p2m n, m2p') ∧
      Filled k m2p' (first + n) := by
  have hcap := g.capacity_lt
  induction n with
  | zero => exact ⟨m2p, rfl, h⟩
  | succ n ih =>
    obtain ⟨m2p', heq, h'⟩ := ih (by omega)
    obtain ⟨d, hd, hslot, hnone, hocc⟩ := h'.probe g (by omega) (frame n)
    refine ⟨_, by simp only [Kload.insertPages, heq, Option.bind_eq_bind, Option.bind_some, hslot]; rfl, ?_⟩
    rw [ulong_of_lt (by omega)]
    exact h'.insert (Nat.mod_lt _ g.pos) hnone

/-- The frames are distinct from each other and from those of the first `first` pages. -/
structure FreshFrames (p2m : Nat → Nat) (first : Nat) (frame : Nat → Nat) (n : Nat) : Prop where
  inj : ∀ i < n, ∀ j < n, frame i = frame j → i = j
  new : ∀ i < first, ∀ j < n, p2m i ≠ frame j

theorem Mirror.insertPages (h : Mirror k p2m m2p first) (g : k.Geometry) (hn : first + n ≤ k.p2mCapacity)
    (hf : FreshFrames p2m first frame n) :
    ∃ m2p', k.insertPages first frame p2m m2p n = some (Slots.fill (first + ·) frame p2m n, m2p') ∧
      Mirror k (Slots.fill (first + ·) frame p2m n) m2p' (first + n) := by
  have hcap := g.capacity_lt
  induction n with
  | zero => exact ⟨m2p, rfl, h⟩
  | succ n ih =>
    obtain ⟨m2p', heq, h'⟩ := ih (by omega)
      ⟨fun i hi j hj => hf.inj i (by omega) j (by omega), fun i hi j hj => hf.new i hi j (by omega)⟩
    obtain ⟨d, hd, hslot, hnone, hocc⟩ := h'.probe g (by omega) (frame n)
    refine ⟨_, by simp only [Kload.insertPages, heq, Option.bind_eq_bind, Option.bind_some, hslot]; rfl, ?_⟩
    rw [ulong_of_lt (by omega)]
    refine h'.insert hd hnone hocc fun i hi => ?_
    by_cases hif : i < first
    · rw [Slots.fill_of_ne fun j hj => by omega]
      exact hf.new i hif n (by omega)
    · obtain ⟨j, rfl⟩ : ∃ j, i = first + j := ⟨i - first, by omega⟩
      rw [Slots.fill_slot (fun a _ b _ hab => by omega) (by omega : j < n)]
      exact fun he => absurd (hf.inj j (by omega) n (by omega) he) (by omega)

end MoCoLinux.Kload
