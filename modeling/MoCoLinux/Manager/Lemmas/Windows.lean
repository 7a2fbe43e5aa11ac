import MoCoLinux.Kload.Lemmas.Arena
import MoCoLinux.Kload.Lemmas.Effects
import MoCoLinux.Manager.Requests

/-!
# What the window requests do
-/

namespace MoCoLinux

open Kload (windowFirst windowSlot)

def LockRefused (host : LockHost) (va size : Nat) : Prop :=
  size = 0 ∨ size % 4096 ≠ 0 ∨ va = 0 ∨ va % 4096 ≠ 0 ∨ host.mdl = none ∨ host.pfnsOk = false

theorem and_pageOffset (n : Nat) : n &&& (Arch.pageSize - 1) = n % 4096 := Nat.and_two_pow_sub_one_eq_mod n 12

theorem userLockPages_refused {host : LockHost} {va size : Nat} (h : LockRefused host va size) :
    ∃ rc, rc ≠ .ok ∧ userLockPages host va size = .error rc := by
  rw [userLockPages, and_pageOffset, and_pageOffset]
  split
  · exact ⟨.invalidParameter, by decide, rfl⟩
  next hsize =>
    split
    · exact ⟨.invalidParameter, by decide, rfl⟩
    next hva =>
      cases hmdl : host.mdl with
      | none => exact ⟨.outOfMemory, by decide, rfl⟩
      | some id =>
        have hno : host.pfnsOk = false := by
          rw [LockRefused, hmdl] at h
          simp only [not_or, not_not] at hsize hva
          tauto
        exact ⟨.outOfMemory, by decide, by simp [hno]⟩

theorem userLockPages_locks {host : LockHost} {va size : Nat} (h : ¬ LockRefused host va size) :
    ∃ mdl, userLockPages host va size = .ok mdl ∧ mdl.pfns.length = size / 4096 ∧ 0 < mdl.pfns.length ∧
      ∀ i < mdl.pfns.length, mdl.pfn i = host.pfn i := by
  simp only [LockRefused, not_or, not_not] at h
  obtain ⟨h0, hal, hva, hval, hmdl, hok⟩ := h
  obtain ⟨id, hid⟩ := Option.ne_none_iff_exists'.mp hmdl
  refine ⟨⟨id, (List.range (size >>> 12)).map host.pfn⟩, ?_, ?_, ?_, ?_⟩
  · rw [userLockPages, and_pageOffset, and_pageOffset, if_neg (by omega), if_neg (by omega), hid]
    simpa using hok
  · simp [Nat.shiftRight_eq_div_pow]
  · simp only [List.length_map, List.length_range, Nat.shiftRight_eq_div_pow]
    omega
  · intro i hi
    simp only [List.length_map, List.length_range] at hi
    simp [Mdl.pfn, hi]

namespace Kload

open Manager (SetsNothing)

variable {k : Kload} {f : Nat → Nat} {count pseudo : Nat}

def MapRefused (k : Kload) (f : Nat → Nat) (count : Nat) : Prop :=
  k.p2m = none ∨ k.windowNext < count ∨ k.windowNext - count < k.windowBasePages ∨ ∃ i < count, f i = 0

def MapAtRefused (k : Kload) (f : Nat → Nat) (count pseudo : Nat) : Prop :=
  pseudo % 4096 ≠ 0 ∨ k.p2m = none ∨ k.windowOutOfBounds (windowFirst pseudo) count ∨
    (∃ p2m, k.p2m = some p2m ∧ ∃ i < count, p2m (windowSlot (windowFirst pseudo) i) ≠ 0) ∨ ∃ i < count, f i = 0

theorem setsNothing_refl (k : Kload) : SetsNothing k k := fun p2m hp => ⟨p2m, hp, fun _ _ => rfl⟩

theorem windowMap_refused (h : k.MapRefused f count) :
    (k.windowMap (some f) count).rc ≠ .ok ∧ SetsNothing k (k.windowMap (some f) count).k := by
  rcases k.windowMap_cases (some f) count with ⟨rc, hrc, hr⟩ |
    ⟨f', p2m, first, touched, hf, h0, hp, hfirst, hbase, ⟨hz, hr⟩ | ⟨p2m', hback, hr⟩⟩
  · rw [hr]
    exact ⟨hrc, setsNothing_refl k⟩
  · cases hf
    exfalso
    rcases h with h | h | h | ⟨i, hi, h⟩
    · rw [hp] at h
      cases h
    · omega
    · omega
    · exact hz i hi h
  · rw [hr]
    refine ⟨(by decide : Rc.invalidParameter ≠ .ok), fun q hq => ?_⟩
    simp only [Option.some.injEq] at hq
    subst hq
    refine ⟨p2m, hp, fun j hj => ?_⟩
    exact (hback j).elim (fun hz => absurd hz.2 hj) id

theorem windowMap_mapped (h : ¬ k.MapRefused f count) (h0 : 0 < count) : ∃ p2m touched,
    k.p2m = some p2m ∧ count ≤ k.windowNext ∧ k.windowBasePages ≤ k.windowNext - count ∧ (∀ i < count, f i ≠ 0) ∧
      k.windowMap (some f) count =
        ⟨.ok, { k with
            p2m := some (Slots.fill (windowSlot (k.windowNext - count)) f p2m count)
            windowNext := k.windowNext - count }, (k.windowNext - count) <<< 12, touched⟩ := by
  simp only [MapRefused, not_or, not_exists, not_and] at h
  obtain ⟨hp, hnext, hbase, hz⟩ := h
  obtain ⟨p2m, hp⟩ := Option.ne_none_iff_exists'.mp hp
  rcases windowFill_cases f (k.windowNext - count) count p2m with ⟨-, touched, hf⟩ | ⟨p2m', touched, hf, -⟩
  · refine ⟨p2m, touched, hp, by omega, by omega, hz, ?_⟩
    simp only [windowMap, Nat.ne_of_gt h0, hp, if_false, if_neg (not_or.mpr ⟨hnext, hbase⟩), hf]
  · have hok := (@windowFill_ok p2m f (k.windowNext - count) count 0 (by simpa using hz)).1
    rw [hf] at hok
    cases hok

theorem windowMapAt_refused (h : k.MapAtRefused f count pseudo) :
    (k.windowMapAt (some f) count pseudo).rc ≠ .ok ∧ (k.windowMapAt (some f) count pseudo).k = k := by
  rcases k.windowMapAt_cases (some f) count pseudo with ⟨rc, touched, hrc, hr⟩ |
    ⟨f', p2m, touched, hf, h0, hal, hp, hb, hvac, hz, hr⟩
  · rw [hr]
    exact ⟨hrc, rfl⟩
  · cases hf
    exfalso
    rcases h with h | h | h | ⟨q, hq, i, hi, hne⟩ | ⟨i, hi, h⟩
    · exact h hal
    · rw [hp] at h
      cases h
    · exact hb h
    · rw [hp, Option.some.injEq] at hq
      subst hq
      exact hne (hvac i hi)
    · exact hz i hi h

theorem windowMapAt_mapped (h : ¬ k.MapAtRefused f count pseudo) (h0 : 0 < count) : ∃ p2m touched,
    k.p2m = some p2m ∧ pseudo % 4096 = 0 ∧ ¬ k.windowOutOfBounds (windowFirst pseudo) count ∧
      (∀ i < count, p2m (windowSlot (windowFirst pseudo) i) = 0) ∧ (∀ i < count, f i ≠ 0) ∧
      k.windowMapAt (some f) count pseudo =
        ⟨.ok, { k with p2m := some (Slots.fill (windowSlot (windowFirst pseudo)) f p2m count) }, 0, touched⟩ := by
  simp only [MapAtRefused, not_or, not_exists, not_and, not_not] at h
  obtain ⟨hal, hp, hb, hvac, hz⟩ := h
  obtain ⟨p2m, hp⟩ := Option.ne_none_iff_exists'.mp hp
  have hok := windowMapAt_ok (Nat.ne_of_gt h0) hal hp hb (hvac p2m hp) hz
  rcases k.windowMapAt_cases (some f) count pseudo with ⟨rc, touched, hrc, hr⟩ |
    ⟨f', p2m', touched, hf, -, -, hp', -, -, -, hr⟩
  · rw [hr] at hok
    exact absurd hok hrc
  · cases hf
    rw [hp, Option.some.injEq] at hp'
    subst hp'
    exact ⟨p2m, touched, hp, hal, hb, hvac p2m hp, hz, hr⟩

end Kload

namespace Manager

variable {s s' : Manager} {node : WindowNode} {opened pseudo : Nat} {host : LockHost} {va bytes : Nat}

theorem unmap_locked (s : Manager) (node : WindowNode) : (s.unmap node).locked = s.locked := rfl

theorem unmap_zero (s : Manager) (node : WindowNode) {p2m : Nat → Nat} (h : (s.unmap node).k.p2m = some p2m) :
    ∃ q, s.k.p2m = some q ∧ ∀ j, q j = 0 → p2m j = 0 := by
  have hk : (s.unmap node).k = (s.k.windowUnmap node.pseudoPa node.pages).1 := rfl
  rw [hk] at h
  rcases s.k.windowUnmap_cases node.pseudoPa node.pages with ⟨-, hr⟩ | ⟨q, touched, -, hq, -, -, hr⟩
  · rw [hr] at h
    exact ⟨p2m, h, fun _ hz => hz⟩
  · rw [hr] at h
    cases h
    refine ⟨q, hq, fun j hz => ?_⟩
    by_cases hslot : ∃ i < node.pages, windowSlot (windowFirst node.pseudoPa) i = j
    · obtain ⟨i, hi, rfl⟩ := hslot
      exact Slots.fill_const_slot 0 hi
    · rw [Slots.fill_of_ne fun i hi he => hslot ⟨i, hi, he⟩]
      exact hz

theorem releaseList_zero {j : Nat} (nodes : List WindowNode) : ∀ (s : Manager),
    (∀ p2m, s.k.p2m = some p2m → p2m j = 0) → ∀ p2m, (s.releaseList nodes).k.p2m = some p2m → p2m j = 0 := by
  induction nodes with
  | nil => exact fun s h => h
  | cons node nodes ih =>
    intro s h
    refine ih _ fun p2m hp => ?_
    obtain ⟨q, hq, hz⟩ := s.unmap_zero node hp
    exact hz j (h q hq)

theorem releaseList_locked (nodes : List WindowNode) : ∀ (s s' : Manager), s.locked = s'.locked →
    (s.releaseList nodes).locked = (s'.releaseList nodes).locked := by
  induction nodes with
  | nil => exact fun s s' h => h
  | cons node nodes ih =>
    intro s s' h
    refine ih _ _ ?_
    simp only [unlock, unmap_locked, h]

theorem Named.unmap (h : Named s.k node) (hbase : s.k.windowBasePages ≤ node.pseudoPa / 4096)
    (hcap : s.k.p2mCapacity < 2 ^ 32) {p2m : Nat → Nat} (hp : (s.unmap node).k.p2m = some p2m) :
    ∀ i < node.pages, p2m (node.pseudoPa / 4096 + i) = 0 := by
  intro i hi
  have hin := h.inside
  have hfirst : windowFirst node.pseudoPa = node.pseudoPa / 4096 := Kload.windowFirst_eq (by omega)
  have hbounds : ¬ s.k.windowOutOfBounds (windowFirst node.pseudoPa) node.pages := by
    rw [hfirst, Kload.windowOutOfBounds, ulongSub_of_le (by omega) hcap]
    omega
  have hk : (s.unmap node).k = (s.k.windowUnmap node.pseudoPa node.pages).1 := rfl
  rw [hk] at hp
  rcases s.k.windowUnmap_cases node.pseudoPa node.pages with ⟨hno, -⟩ | ⟨q, touched, -, -, -, -, hr⟩
  · obtain ⟨q, hq, -⟩ := h.frames
    rcases hno with h0 | hnone | hout
    · omega
    · rw [hq] at hnone
      cases hnone
    · exact absurd hout hbounds
  · rw [hr] at hp
    cases hp
    rw [← hfirst, ← Kload.windowSlot_of_lt (by omega)]
    exact Slots.fill_const_slot 0 hi

theorem Named.held {k : Kload} (h : Named k node) (hk : s'.k = k) (hbase : k.windowBasePages ≤ node.pseudoPa / 4096)
    (hcap : k.p2mCapacity < 2 ^ 32) (hwindows : s'.windows = node :: s.windows)
    (hlocked : s'.locked = node.handle :: s.locked) (hpages : node.pages = node.handle.pfns.length) :
    Held s s' node.opened node.pseudoPa := by
  subst hk
  refine ⟨node, hwindows, rfl, rfl, hlocked, hpages, h, ?_, ?_⟩
  · have hnames : decide (Names node.opened node.pseudoPa node.pages node) = true := decide_eq_true ⟨rfl, rfl, rfl⟩
    simp only [windowRelease, hwindows, List.find?_cons_of_pos, hnames, Undone]
    refine ⟨trivial, ?_, fun p2m hp => ?_⟩
    · simp [unlock, unmap_locked, hlocked]
    · exact Named.unmap (s := { s' with windows := _ }) h hbase hcap hp
  · have hall : (s'.windows.filter fun n => n.opened = node.opened) =
        node :: s.windows.filter fun n => n.opened = node.opened := by
      rw [hwindows, List.filter_cons_of_pos (by simp)]
    have hrest : (s'.windows.filter fun n => n.opened ≠ node.opened) =
        s.windows.filter fun n => n.opened ≠ node.opened := by
      rw [hwindows, List.filter_cons_of_neg (by simp)]
    simp only [windowReleaseAll, hall, hrest, releaseList]
    refine ⟨releaseList_locked _ _ _ ?_, fun p2m hp i hi => ?_⟩
    · simp [unlock, unmap_locked, hlocked]
    · refine releaseList_zero _ _ (fun q hq => ?_) p2m hp
      exact Named.unmap (s := { s' with windows := _ }) h hbase hcap hq i hi

theorem not_held (h : s'.windows = s.windows) : ¬ Held s s' opened pseudo := by
  rintro ⟨node, hwindows, -⟩
  rw [h] at hwindows
  exact List.cons_ne_self node s.windows hwindows.symm

theorem honest_refused {rc : Rc} (hrc : rc ≠ .ok) (hwindows : s'.windows = s.windows) (hk : SetsNothing s.k s'.k)
    (hlocked : s'.locked = s.locked) : Honest s opened (rc, pseudo, s') :=
  ⟨iff_of_false hrc (not_held hwindows), fun _ => ⟨hk, hlocked⟩⟩

theorem honest_iff_held : Honest s opened (.ok, pseudo, s') ↔ Held s s' opened pseudo :=
  ⟨fun h => h.1.mp rfl, fun h => ⟨iff_of_true rfl h, fun hne => absurd rfl hne⟩⟩

theorem not_honest_untracked {k : Kload} :
    ¬ Honest s opened (.ok, pseudo, ((s.lock node.handle).published k node).windowTrack false node) :=
  fun h => absurd (honest_iff_held.mp h) (not_held rfl)

def WindowRefused (s : Manager) (host : LockHost) (va bytes : Nat) : Prop :=
  LockRefused host va (ulong bytes) ∨ s.k.MapRefused host.pfn (ulong bytes / 4096)

def WindowAtRefused (s : Manager) (host : LockHost) (va bytes pseudo : Nat) : Prop :=
  LockRefused host va (ulong bytes) ∨ s.k.MapAtRefused host.pfn (ulong bytes / 4096) pseudo

theorem kwindow_refused (h : s.WindowRefused host va bytes) : Honest s opened (s.kwindow opened host va bytes) := by
  by_cases hlock : LockRefused host va (ulong bytes)
  · obtain ⟨rc, hrc, heq⟩ := userLockPages_refused hlock
    simp only [kwindow, heq]
    exact honest_refused hrc rfl (Kload.setsNothing_refl _) rfl
  · obtain ⟨mdl, heq, hlength, -, hpfn⟩ := userLockPages_locks hlock
    have hmap : s.k.MapRefused mdl.pfn mdl.pfns.length := by
      rw [hlength] at hpfn ⊢
      exact (h.resolve_left hlock).imp_right fun h => h.imp_right fun h => h.imp_right fun ⟨i, hi, hz⟩ =>
        ⟨i, hi, (hpfn i hi).trans hz⟩
    obtain ⟨hrc, hsets⟩ := Kload.windowMap_refused hmap
    simp only [kwindow, heq, publish, if_neg hrc]
    exact honest_refused hrc rfl hsets (by simp [unlock, lock, withK])

theorem kwindowAt_refused (h : s.WindowAtRefused host va bytes pseudo) :
    Honest s opened (s.kwindowAt opened host va bytes pseudo) := by
  by_cases hlock : LockRefused host va (ulong bytes)
  · obtain ⟨rc, hrc, heq⟩ := userLockPages_refused hlock
    simp only [kwindowAt, heq]
    exact honest_refused hrc rfl (Kload.setsNothing_refl _) rfl
  · obtain ⟨mdl, heq, hlength, -, hpfn⟩ := userLockPages_locks hlock
    have hmap : s.k.MapAtRefused mdl.pfn mdl.pfns.length pseudo := by
      rw [hlength] at hpfn ⊢
      exact (h.resolve_left hlock).imp_right fun h => h.imp_right fun h => h.imp_right fun h => h.imp_right
        fun ⟨i, hi, hz⟩ => ⟨i, hi, (hpfn i hi).trans hz⟩
    obtain ⟨hrc, hk⟩ := Kload.windowMapAt_refused hmap
    simp only [kwindowAt, heq, publish, if_neg hrc]
    exact honest_refused hrc rfl (by rw [hk]; exact Kload.setsNothing_refl _) (by simp [unlock, lock, withK])

structure Mapped (s : Manager) (opened count : Nat) (k : Kload) (node : WindowNode) : Prop where
  opened : node.opened = opened
  pages : node.pages = count
  length : node.pages = node.handle.pfns.length
  base : k.windowBasePages = s.k.windowBasePages
  capacity : k.p2mCapacity = s.k.p2mCapacity
  aligned : node.pseudoPa % 4096 = 0
  frames : ∃ p2m, s.k.p2m = some p2m ∧
    k.p2m = some (Slots.fill (windowSlot (windowFirst node.pseudoPa)) node.handle.pfn p2m node.pages)
  nonzero : ∀ i < node.pages, node.handle.pfn i ≠ 0
  bounds : ¬ s.k.windowOutOfBounds (windowFirst node.pseudoPa) node.pages

theorem Mapped.named {count : Nat} {k : Kload} (h : Mapped s opened count k node) (hcap : s.k.p2mCapacity < 2 ^ 32)
    (hin : node.pseudoPa / 4096 + node.pages ≤ s.k.p2mCapacity) :
    Named k node ∧ k.windowBasePages ≤ node.pseudoPa / 4096 := by
  have hfirst : windowFirst node.pseudoPa = node.pseudoPa / 4096 := Kload.windowFirst_eq (by omega)
  refine ⟨⟨h.aligned, by rw [h.capacity]; exact hin, ?_⟩, ?_⟩
  · obtain ⟨p2m, -, hp⟩ := h.frames
    refine ⟨_, hp, fun i hi => ?_⟩
    rw [← hfirst, ← Kload.windowSlot_of_lt (by omega)]
    exact Slots.fill_slot (fun a ha b hb => Kload.windowSlot_inj (by omega) (by omega)) hi
  · have hbounds := h.bounds
    rw [hfirst, Kload.windowOutOfBounds] at hbounds
    rw [h.base]
    omega

theorem kwindow_mapped (opened : Nat) (h : ¬ s.WindowRefused host va bytes) (hnext : s.k.windowNext ≤ s.k.p2mCapacity)
    (hcap : s.k.p2mCapacity < 2 ^ 32) : ∃ k node, Mapped s opened (ulong bytes / 4096) k node ∧
      node.pseudoPa / 4096 + node.pages ≤ s.k.p2mCapacity ∧
      s.kwindow opened host va bytes =
        (.ok, node.pseudoPa, ((s.lock node.handle).published k node).windowTrack host.nodeOk node) := by
  obtain ⟨hlock, hmap⟩ := not_or.mp h
  obtain ⟨mdl, heq, hlength, hpos, hpfn⟩ := userLockPages_locks hlock
  have hmap' : ¬ s.k.MapRefused mdl.pfn mdl.pfns.length := by
    rw [hlength] at hpfn ⊢
    exact fun h => hmap (h.imp_right fun h => h.imp_right fun h => h.imp_right fun ⟨i, hi, hz⟩ =>
      ⟨i, hi, (hpfn i hi).symm.trans hz⟩)
  obtain ⟨p2m, touched, hp, hle, hbase, hz, hcall⟩ := Kload.windowMap_mapped hmap' hpos
  have hfirst : windowFirst ((s.k.windowNext - mdl.pfns.length) <<< 12) = s.k.windowNext - mdl.pfns.length :=
    Kload.windowFirst_shiftLeft (by omega)
  have hdiv : (s.k.windowNext - mdl.pfns.length) <<< 12 / 4096 = s.k.windowNext - mdl.pfns.length := by
    rw [Nat.shiftLeft_eq]
    omega
  refine ⟨(s.k.windowMap (some mdl.pfn) mdl.pfns.length).k,
    ⟨opened, mdl, mdl.pfns.length, (s.k.windowNext - mdl.pfns.length) <<< 12, s.mapped, false⟩,
    ⟨rfl, hlength, rfl, by rw [hcall], by rw [hcall], ?_, ⟨p2m, hp, ?_⟩, hz, ?_⟩, ?_, ?_⟩
  · simp [Nat.shiftLeft_eq]
  · rw [hcall, hfirst]
  · simp only [hfirst, Kload.windowOutOfBounds, ulongSub_of_le (Nat.le_trans (Nat.sub_le _ _) hnext) hcap]
    omega
  · simp only [hdiv]
    omega
  · simp only [kwindow, heq, publish, hcall, if_true]

theorem kwindowAt_mapped (opened : Nat) (h : ¬ s.WindowAtRefused host va bytes pseudo) :
    ∃ k node, Mapped s opened (ulong bytes / 4096) k node ∧ node.pseudoPa = pseudo ∧
      s.kwindowAt opened host va bytes pseudo =
        (.ok, node.pseudoPa, ((s.lock node.handle).published k node).windowTrack host.nodeOk node) := by
  obtain ⟨hlock, hmap⟩ := not_or.mp h
  obtain ⟨mdl, heq, hlength, hpos, hpfn⟩ := userLockPages_locks hlock
  have hmap' : ¬ s.k.MapAtRefused mdl.pfn mdl.pfns.length pseudo := by
    rw [hlength] at hpfn ⊢
    exact fun h => hmap (h.imp_right fun h => h.imp_right fun h => h.imp_right fun h => h.imp_right
      fun ⟨i, hi, hz⟩ => ⟨i, hi, (hpfn i hi).symm.trans hz⟩)
  obtain ⟨p2m, touched, hp, hal, hbounds, -, hz, hcall⟩ := Kload.windowMapAt_mapped hmap' hpos
  refine ⟨(s.k.windowMapAt (some mdl.pfn) mdl.pfns.length pseudo).k,
    ⟨opened, mdl, mdl.pfns.length, pseudo, s.mapped, true⟩,
    ⟨rfl, hlength, rfl, by rw [hcall], by rw [hcall], hal, ⟨p2m, hp, by rw [hcall]⟩, hz, hbounds⟩, rfl, ?_⟩
  simp only [kwindowAt, heq, publish, hcall, if_true]

theorem Mapped.honest_iff {count : Nat} {k : Kload} (h : Mapped s opened count k node) (hcap : s.k.p2mCapacity < 2 ^ 32)
    (nodeOk : Bool) :
    Honest s opened (.ok, node.pseudoPa, ((s.lock node.handle).published k node).windowTrack nodeOk node) ↔
      nodeOk = true ∧ node.pseudoPa / 4096 + count ≤ s.k.p2mCapacity := by
  rw [← h.pages]
  cases nodeOk with
  | false => exact iff_of_false not_honest_untracked nofun
  | true =>
    rw [honest_iff_held]
    constructor
    · rintro ⟨node', hwindows, -, -, -, -, hnamed, -⟩
      obtain ⟨rfl, -⟩ := List.cons.inj hwindows
      exact ⟨rfl, h.capacity ▸ hnamed.inside⟩
    · rintro ⟨-, hin⟩
      obtain ⟨hnamed, hbase⟩ := h.named hcap hin
      rw [← h.opened]
      exact hnamed.held rfl hbase (h.capacity ▸ hcap) rfl rfl h.length

end Manager

end MoCoLinux
