import MoCoLinux.Arch.Lemmas.Entry
import MoCoLinux.Kload.Lemmas.Frames
import MoCoLinux.Manager.Kmap

/-!
# The slices of a handle
-/

namespace MoCoLinux

open Kload (Stacked blockSearch)

/-! ## Blocks -/

/-- Blocks of pool memory as the loader keeps them: stacked, of whole pages, and the p2m has the frames behind them. -/
structure PoolBlocks (physical : Nat → Nat) (k : Kload) (p2m : Nat → Nat) : Prop where
  pool : k.userRamVa = 0
  array : k.p2m = some p2m
  stacked : Stacked 0 k.block (k.backedPages * 4096)
  whole : ∀ b ∈ k.block, b.bytes % 4096 = 0
  frames : ∀ b ∈ k.block, ∀ i, i * 4096 < b.bytes → p2m (b.pseudoBase / 4096 + i) = physical (b.va + i * 4096)

variable {b : Block}

theorem Kload.Stacked.mem_start_le {bs : List Block} {start stop : Nat} (h : Stacked start bs stop)
    (hb : b ∈ bs) : start ≤ b.pseudoBase := by
  obtain ⟨i, hi⟩ := List.mem_iff_getElem?.mp hb
  exact h.start_le hi

theorem Kload.Stacked.pairwise : ∀ {bs : List Block} {start stop : Nat}, Stacked start bs stop →
    bs.Pairwise fun a b => a.pseudoBase + a.bytes ≤ b.pseudoBase
  | [], _, _, _ => .nil
  | _ :: _, _, _, ⟨hstart, _, _, hrest⟩ => .cons (fun _ hc => hstart ▸ hrest.mem_start_le hc) hrest.pairwise

theorem Kload.Stacked.eq_or_apart {a : Block} : ∀ {bs : List Block} {start stop : Nat}, Stacked start bs stop →
    a ∈ bs → b ∈ bs → a = b ∨ a.pseudoBase + a.bytes ≤ b.pseudoBase ∨ b.pseudoBase + b.bytes ≤ a.pseudoBase
  | [], _, _, _, ha, _ => by cases ha
  | _ :: _, _, _, ⟨hstart, _, _, hrest⟩, ha, hb => by
    rcases List.mem_cons.mp ha with ha' | ha' <;> rcases List.mem_cons.mp hb with hb' | hb'
    · exact .inl (ha'.trans hb'.symm)
    · have hle := hrest.mem_start_le hb'
      rw [← hstart, ← ha'] at hle
      exact .inr (.inl hle)
    · have hle := hrest.mem_start_le ha'
      rw [← hstart, ← hb'] at hle
      exact .inr (.inr hle)
    · exact hrest.eq_or_apart ha' hb'

theorem Kload.Stacked.base_whole : ∀ {bs : List Block} {start stop : Nat}, Stacked start bs stop →
    (∀ b ∈ bs, b.bytes % 4096 = 0) → start % 4096 = 0 → ∀ b ∈ bs, b.pseudoBase % 4096 = 0
  | [], _, _, _, _, _, b, hb => by cases hb
  | c :: bs, start, stop, ⟨hstart, _, _, hrest⟩, hwhole, haligned, b, hb => by
    rcases List.mem_cons.mp hb with rfl | hb
    · rw [hstart]
      exact haligned
    · have hc := hwhole c List.mem_cons_self
      exact hrest.base_whole (fun d hd => hwhole d (List.mem_cons_of_mem _ hd)) (by omega) b hb

theorem Kload.blockSearch_bounds {block : List Block} {pa t : Nat} : ∀ {rounds lo hi : Nat},
    blockSearch block pa rounds lo hi = some (t, b) → b.pseudoBase ≤ pa ∧ pa < b.pseudoBase + b.bytes := by
  intro rounds
  induction rounds with
  | zero => intro lo hi h; simp [blockSearch] at h
  | succ rounds ih =>
    intro lo hi h
    rw [blockSearch] at h
    split at h
    case isFalse => cases h
    case isTrue =>
      dsimp only at h
      cases hb : block[lo + (hi - 1 - lo) / 2]? with
      | none =>
        rw [hb] at h
        cases h
      | some c =>
        simp only [hb] at h
        split at h
        case isTrue => exact ih h
        case isFalse hlow =>
          split at h
          case isTrue => exact ih h
          case isFalse hhigh =>
            cases h
            omega

theorem Kload.blockForPa_some {k : Kload} {pa : Nat} (h : k.blockForPa pa = some b) :
    b ∈ k.block ∧ b.pseudoBase ≤ pa ∧ pa < b.pseudoBase + b.bytes := by
  rw [blockForPa] at h
  cases hs : blockSearch k.block pa (k.block.length + 1) 0 k.block.length with
  | none =>
    rw [hs] at h
    cases h
  | some found =>
    obtain ⟨t, c⟩ := found
    rw [hs] at h
    dsimp only at h
    split at h
    · cases h
    · cases h
      exact ⟨List.mem_of_getElem? (blockSearch_spec hs), blockSearch_bounds hs⟩

namespace OpenKmap

variable {physical p2m : Nat → Nat} {k : Kload} {s s' : OpenKmap} {sl : KmapSlice} {p : KmapPiece}
  {user : Nat → Option Nat}

/-! ## Slices -/

structure Sees (physical : Nat → Nat) (user : Nat → Option Nat) (sl : KmapSlice) (b : Block) : Prop where
  inside : sl.Inside b
  aligned : (sl.pa - b.pseudoBase) % 4096 = 0
  shows : ∀ j < sl.pages, user (sl.userVa / 4096 + j) = some (physical (b.va + (sl.pa - b.pseudoBase) + j * 4096))

structure Mapped (physical : Nat → Nat) (k : Kload) (user : Nat → Option Nat) (sl : KmapSlice) : Prop where
  sees : ∃ b ∈ k.block, Sees physical user sl b
  bytes : sl.bytes = sl.pages * 4096
  pages : 0 < sl.pages
  handle : sl.handle ≠ 0

def Elsewhere (a b : KmapSlice) : Prop :=
  a.userVa / 4096 + a.pages ≤ b.userVa / 4096 ∨ b.userVa / 4096 + b.pages ≤ a.userVa / 4096

structure Inv (physical : Nat → Nat) (k : Kload) (s : OpenKmap) : Prop where
  mapped : ∀ sl ∈ s.slices, Mapped physical k s.user sl
  places : s.slices.Pairwise Elsewhere
  count : s.count = s.slices.length

theorem Inv.nil (physical : Nat → Nat) (k : Kload) (reserved : Bool) (user : Nat → Option Nat) :
    Inv physical k ⟨[], 0, reserved, user⟩ :=
  ⟨fun _ h => (by cases h), .nil, rfl⟩

theorem Mapped.keep {user' : Nat → Option Nat} (h : Mapped physical k user sl)
    (hkeep : ∀ j < sl.pages, user' (sl.userVa / 4096 + j) = user (sl.userVa / 4096 + j)) :
    Mapped physical k user' sl := by
  obtain ⟨b, hb, hsees⟩ := h.sees
  exact { h with sees := ⟨b, hb, { hsees with shows := fun j hj => (hkeep j hj).trans (hsees.shows j hj) }⟩ }

structure Fits (k : Kload) (p : KmapPiece) (b : Block) : Prop where
  mem : b ∈ k.block
  inside : b.pseudoBase ≤ p.pa ∧ p.pa + p.bytes ≤ b.pseudoBase + b.bytes
  va : p.va = b.va + (p.pa - b.pseudoBase)
  aligned : (p.pa - b.pseudoBase) % 4096 = 0
  small : p.bytes ≤ kmapSliceBytes

/-! ## `co_manager_kmap_add_locked` -/

theorem userspaceMap_some {address pages : Nat} {answer : Option UserMapping} {u : UserMapping}
    {user' : Nat → Option Nat} (h : userspaceMap physical user address pages answer = some (u, user')) :
    u.mdl ≠ 0 ∧ (∀ j < pages, user (u.page + j) = none) ∧ user' = mapPages physical user u.page pages address := by
  cases answer with
  | none => cases h
  | some v =>
    rw [userspaceMap] at h
    split at h
    case isTrue hfree =>
      cases h
      exact ⟨hfree.1, hfree.2, rfl⟩
    case isFalse => cases h

variable {host : MapHost}

theorem add_ok (h : s.add physical host p = .ok (sl, s')) (hsmall : p.bytes ≤ kmapSliceBytes) :
    ∃ page, (∀ j < sl.pages, s.user (page + j) = none) ∧ sl.handle ≠ 0 ∧ sl.userVa = page * 4096 ∧ sl.pa = p.pa ∧
      sl.bytes = p.bytes ∧ sl.bytes = sl.pages * 4096 ∧ 0 < sl.pages ∧
      s' = { s with
        slices := sl :: s.slices, count := s.count + 1, user := mapPages physical s.user page sl.pages p.va } := by
  have hmask : p.bytes &&& (Arch.pageSize - 1) = p.bytes % 4096 := Nat.and_two_pow_sub_one_eq_mod p.bytes 12
  have hpages : ulong (p.bytes >>> 12) = p.bytes / 4096 := by
    rw [Nat.shiftRight_eq_div_pow]
    refine ulong_of_lt ?_
    simp only [kmapSliceBytes] at hsmall
    omega
  simp only [add, hmask, hpages] at h
  split at h
  case isTrue => cases h
  case isFalse hchecks =>
    split at h
    case isTrue => cases h
    case isFalse =>
      cases hmap : userspaceMap physical s.user p.va (p.bytes / 4096) host.mapping with
      | none =>
        rw [hmap] at h
        cases h
      | some r =>
        obtain ⟨u, user'⟩ := r
        rw [hmap] at h
        cases h
        obtain ⟨hmdl, hfree, rfl⟩ := userspaceMap_some hmap
        exact ⟨u.page, hfree, hmdl, rfl, rfl, rfl, by dsimp only; omega, by dsimp only; omega, rfl⟩

variable {b : Block}

theorem Inv.add (hi : Inv physical k s) (hfit : Fits k p b)
    (h : s.add physical host p = .ok (sl, s')) : Inv physical k s' := by
  obtain ⟨page, hfree, hhandle, hva, hpa, hbytes, hwhole, hpos, rfl⟩ := add_ok h hfit.small
  have hpage : sl.userVa / 4096 = page := by omega
  -- The pages of the other slices are not free.
  have helse : ∀ a ∈ s.slices, Elsewhere sl a := by
    intro a ha
    have hm := hi.mapped a ha
    obtain ⟨c, -, hsees⟩ := hm.sees
    refine Classical.byContradiction fun hnot => ?_
    simp only [Elsewhere, hpage, not_or, Nat.not_le] at hnot
    have hpages := hm.pages
    by_cases hle : page ≤ a.userVa / 4096
    · have hnone := hfree (a.userVa / 4096 - page) (by omega)
      rw [show page + (a.userVa / 4096 - page) = a.userVa / 4096 + 0 from by omega, hsees.shows 0 hpages] at hnone
      cases hnone
    · have hsome := hsees.shows (page - a.userVa / 4096) (by omega)
      rw [show a.userVa / 4096 + (page - a.userVa / 4096) = page + 0 from by omega, hfree 0 hpos] at hsome
      cases hsome
  refine ⟨fun a ha => ?_, hi.places.cons helse, by rw [List.length_cons, ← hi.count]⟩
  rcases List.mem_cons.mp ha with rfl | ha
  · refine ⟨⟨b, hfit.mem, ⟨?_, ?_⟩, ?_, fun j hj => ?_⟩, hwhole, hpos, hhandle⟩
    · rw [hpa]
      exact hfit.inside.1
    · rw [hpa, hbytes]
      exact hfit.inside.2
    · rw [hpa]
      exact hfit.aligned
    · show mapPages physical s.user page a.pages p.va (a.userVa / 4096 + j) = _
      rw [hpage, mapPages, if_pos (by omega), hfit.va, hpa, Nat.add_sub_cancel_left]
  · refine (hi.mapped a ha).keep fun j hj => if_neg fun hin => ?_
    have := helse a ha
    simp only [Elsewhere, hpage] at this
    omega

/-! ## KMAP -/

theorem sliceBytes_bounds (maxSlice : Nat) :
    0 < sliceBytes maxSlice ∧ sliceBytes maxSlice ≤ kmapSliceBytes ∧ sliceBytes maxSlice % 4096 = 0 := by
  have hcut : ∀ n, 4096 ≤ n → n ≤ kmapSliceBytes →
      0 < n &&& Arch.pageMask ∧ n &&& Arch.pageMask ≤ kmapSliceBytes ∧ (n &&& Arch.pageMask) % 4096 = 0 := by
    intro n hlow hhigh
    simp only [kmapSliceBytes] at hhigh
    rw [Arch.and_pageMask (by omega)]
    simp only [kmapSliceBytes]
    omega
  rw [sliceBytes]
  generalize (if maxSlice ≠ 0 then maxSlice else kmapSliceBytes) = n
  split
  case isTrue => exact hcut kmapSliceBytes (by decide) (Nat.le_refl _)
  case isFalse hn =>
    simp only [not_or, Nat.not_lt, Arch.pageSize] at hn
    exact hcut n hn.1 hn.2

theorem pieces_fit {bytes : Nat} (hb : b ∈ k.block) (hbytes : bytes ≤ kmapSliceBytes)
    (haligned : bytes % 4096 = 0) (hp : p ∈ pieces bytes b) : Fits k p b := by
  obtain ⟨i, hi, rfl⟩ := List.mem_map.mp hp
  have hi' := List.mem_range.mp hi
  have hlt : i * bytes < b.bytes := by
    have hpos : 0 < bytes := by
      refine Nat.pos_of_ne_zero fun hzero => ?_
      rw [hzero, Nat.div_zero] at hi'
      exact Nat.not_lt_zero i hi'
    have hle : (i + 1) * bytes ≤ b.bytes + bytes - 1 := by
      calc (i + 1) * bytes ≤ (b.bytes + bytes - 1) / bytes * bytes := Nat.mul_le_mul_right _ hi'
        _ ≤ b.bytes + bytes - 1 := Nat.div_mul_le_self _ _
    rw [Nat.add_mul, Nat.one_mul] at hle
    omega
  refine ⟨hb, ⟨Nat.le_add_right _ _, ?_⟩, ?_, ?_, Nat.le_trans (Nat.min_le_right _ _) hbytes⟩
  · dsimp only
    omega
  · dsimp only
    omega
  · dsimp only
    rw [Nat.add_sub_cancel_left, Nat.mul_mod, haligned]
    simp

def Distinct (p q : KmapPiece) : Prop := p.pa + p.bytes ≤ q.pa ∨ q.pa + q.bytes ≤ p.pa

theorem pieces_distinct (bytes : Nat) (b : Block) : (pieces bytes b).Pairwise Distinct := by
  rw [pieces, List.pairwise_map]
  refine List.pairwise_lt_range.imp fun {i j} hij => .inl ?_
  dsimp only
  have hle : (i + 1) * bytes ≤ j * bytes := Nat.mul_le_mul_right _ hij
  rw [Nat.add_mul, Nat.one_mul] at hle
  omega

theorem allPieces_distinct {bytes : Nat} (hst : Stacked 0 k.block (k.backedPages * 4096))
    (hbytes : bytes ≤ kmapSliceBytes) (haligned : bytes % 4096 = 0) :
    ((k.block.filter fun b => b.va ≠ 0).flatMap (pieces bytes)).Pairwise Distinct := by
  rw [List.pairwise_flatMap]
  refine ⟨fun b _ => pieces_distinct bytes b, ?_⟩
  refine (hst.pairwise.sublist List.filter_sublist).imp_of_mem fun {a b} ha hb hab p hp q hq => .inl ?_
  have hpa := (pieces_fit (List.mem_filter.mp ha).1 hbytes haligned hp).inside
  have hqb := (pieces_fit (List.mem_filter.mp hb).1 hbytes haligned hq).inside
  omega

/-- What every piece that is added keeps, for the pieces still to come, holds in the end. -/
theorem mapPieces_run {P : List KmapPiece → OpenKmap → Prop} {host : Nat → MapHost} {ps : List KmapPiece} {n : Nat}
    {r : Option (List KmapRange)}
    (hadd : ∀ {p rest s sl s' n}, P (p :: rest) s → s.add physical (host n) p = .ok (sl, s') → P rest s')
    (hP : P ps s) (h : mapPieces physical host ps n s = (r, s')) : ∃ rest, P rest s' := by
  induction ps generalizing n s r with
  | nil =>
    cases h
    exact ⟨_, hP⟩
  | cons p rest ih =>
    rw [mapPieces] at h
    split at h
    case isTrue =>
      cases h
      exact ⟨_, hP⟩
    case isFalse =>
      cases hp : s.add physical (host n) p with
      | error rc =>
        rw [hp] at h
        cases h
        exact ⟨_, hP⟩
      | ok q =>
        rw [hp] at h
        cases h
        exact ih (hadd hP hp) rfl

theorem mapPieces_inv {host : Nat → MapHost} {ps : List KmapPiece} {n : Nat} {r : Option (List KmapRange)}
    (hfit : ∀ p ∈ ps, ∃ b, Fits k p b) (hi : Inv physical k s)
    (h : mapPieces physical host ps n s = (r, s')) : Inv physical k s' := by
  obtain ⟨-, -, hinv⟩ := mapPieces_run (P := fun ps s => (∀ p ∈ ps, ∃ b, Fits k p b) ∧ Inv physical k s)
    (fun ⟨hfit, hi⟩ hadd => by
      obtain ⟨b, hb⟩ := hfit _ List.mem_cons_self
      exact ⟨fun p hp => hfit p (List.mem_cons_of_mem _ hp), hi.add hb hadd⟩) ⟨hfit, hi⟩ h
  exact hinv

/-- The pieces are small, and apart from each other and from the slices. -/
structure Unmapped (ps : List KmapPiece) (s : OpenKmap) : Prop where
  small : ∀ p ∈ ps, p.bytes ≤ kmapSliceBytes
  distinct : ps.Pairwise Distinct
  new : ∀ p ∈ ps, ∀ sl ∈ s.slices, p.pa + p.bytes ≤ sl.pa ∨ sl.pa + sl.bytes ≤ p.pa
  apart : s.slices.Pairwise KmapSlice.Apart

theorem Unmapped.add {p : KmapPiece} {rest : List KmapPiece} {host : MapHost} (hf : Unmapped (p :: rest) s)
    (hadd : s.add physical host p = .ok (sl, s')) : Unmapped rest s' := by
  obtain ⟨page, -, -, -, hpa, hbytes, -, -, rfl⟩ := add_ok hadd (hf.small p List.mem_cons_self)
  obtain ⟨hhead, htail⟩ := List.pairwise_cons.mp hf.distinct
  refine ⟨fun q hq => hf.small q (List.mem_cons_of_mem _ hq), htail, fun q hq a ha => ?_, hf.apart.cons fun a ha => ?_⟩
  · rcases List.mem_cons.mp ha with rfl | ha
    · rw [hpa, hbytes]
      exact (hhead q hq).symm
    · exact hf.new q (List.mem_cons_of_mem _ hq) a ha
  · rw [KmapSlice.Apart, hpa, hbytes]
    exact hf.new p List.mem_cons_self a ha

theorem mapPieces_apart {host : Nat → MapHost} {ps : List KmapPiece} {n : Nat} {r : Option (List KmapRange)}
    (hf : Unmapped ps s) (h : mapPieces physical host ps n s = (r, s')) : s'.slices.Pairwise KmapSlice.Apart := by
  obtain ⟨_, hf⟩ := mapPieces_run Unmapped.add hf h
  exact hf.apart

theorem kmap_cases (physical : Nat → Nat) (k : Kload) (s : OpenKmap) (ready : Bool) (host : Nat → MapHost)
    (maxSlice : Nat) :
    (s.kmap physical k ready host maxSlice).2 = s ∨
    (∃ user, (s.kmap physical k ready host maxSlice).2 = ⟨[], 0, false, user⟩) ∨
    (s.count = 0 ∧ ∃ r s', mapPieces physical host
      ((k.block.filter fun b => b.va ≠ 0).flatMap (pieces (sliceBytes maxSlice))) 0 { s with reserved := true } = (r, s') ∧
      (s.kmap physical k ready host maxSlice).2 = s') := by
  rw [kmap]
  split
  · exact .inl rfl
  split
  · exact .inl rfl
  split
  · exact .inr (.inl ⟨_, rfl⟩)
  case isFalse hfree _ =>
    simp only [not_or, Decidable.not_not] at hfree
    generalize hm : mapPieces physical host
      ((k.block.filter fun b => b.va ≠ 0).flatMap (pieces (sliceBytes maxSlice))) 0 { s with reserved := true } = res
    obtain ⟨r, s'⟩ := res
    cases r with
    | none => exact .inr (.inl ⟨_, rfl⟩)
    | some ranges =>
      cases ranges with
      | nil => exact .inr (.inl ⟨_, rfl⟩)
      | cons range ranges => exact .inr (.inr ⟨hfree.2, _, _, rfl, rfl⟩)

theorem kmap_inv (ready : Bool) (host : Nat → MapHost) (maxSlice : Nat) (hi : Inv physical k s) :
    Inv physical k (s.kmap physical k ready host maxSlice).2 := by
  obtain ⟨-, hsmall, haligned⟩ := sliceBytes_bounds maxSlice
  rcases kmap_cases physical k s ready host maxSlice with h | ⟨user, h⟩ | ⟨-, r, s', hm, h⟩
  · rw [h]
    exact hi
  · rw [h]
    exact .nil physical k false user
  · rw [h]
    refine mapPieces_inv (s := { s with reserved := true }) (fun p hp => ?_) { hi with } hm
    obtain ⟨b, hb, hpb⟩ := List.mem_flatMap.mp hp
    exact ⟨b, pieces_fit (List.mem_filter.mp hb).1 hsmall haligned hpb⟩

theorem kmap_apart (ready : Bool) (host : Nat → MapHost) (maxSlice : Nat) (hi : Inv physical k s)
    (hst : Stacked 0 k.block (k.backedPages * 4096)) (hapart : s.slices.Pairwise KmapSlice.Apart) :
    (s.kmap physical k ready host maxSlice).2.slices.Pairwise KmapSlice.Apart := by
  obtain ⟨-, hsmall, haligned⟩ := sliceBytes_bounds maxSlice
  rcases kmap_cases physical k s ready host maxSlice with h | ⟨user, h⟩ | ⟨hzero, r, s', hm, h⟩
  · rw [h]
    exact hapart
  · rw [h]
    exact .nil
  · rw [h]
    have hnil : s.slices = [] := List.length_eq_zero_iff.mp (hi.count.symm.trans hzero)
    refine mapPieces_apart (s := { s with reserved := true }) ⟨fun p hp => ?_,
      allPieces_distinct hst hsmall haligned, fun p _ a ha => ?_, hapart⟩ hm
    · obtain ⟨b, hb, hpb⟩ := List.mem_flatMap.mp hp
      exact (pieces_fit (List.mem_filter.mp hb).1 hsmall haligned hpb).small
    · change a ∈ s.slices at ha
      rw [hnil] at ha
      cases ha

/-! ## KMAP_RANGE -/

variable {pa : Nat}

theorem find_some (h : s.find pa = some sl) : sl ∈ s.slices ∧ sl.pa ≤ pa ∧ pa < sl.pa + sl.bytes := by
  have hin := List.find?_some h
  rw [decide_eq_true_eq] at hin
  exact ⟨List.mem_of_find?_eq_some h, by omega⟩

theorem find_none (h : s.find pa = none) (hsl : sl ∈ s.slices) : pa < sl.pa ∨ sl.pa + sl.bytes ≤ pa := by
  have hout := List.find?_eq_none.mp h sl hsl
  rw [decide_eq_true_eq] at hout
  omega

theorem rangePiece_fits (h : k.blockForPa pa = some b) :
    Fits k (rangePiece b pa) b ∧ (rangePiece b pa).pa ≤ pa ∧
      pa < (rangePiece b pa).pa + (rangePiece b pa).bytes := by
  obtain ⟨hb, hlow, hhigh⟩ := Kload.blockForPa_some h
  have hpos : 0 < kmapSliceBytes := by decide
  have hmod : kmapSliceBytes % 4096 = 0 := by decide
  simp only [rangePiece]
  refine ⟨⟨hb, ⟨Nat.le_add_right _ _, ?_⟩, ?_, ?_, Nat.min_le_right _ _⟩, ?_, ?_⟩
  all_goals try dsimp only
  all_goals generalize kmapSliceBytes = c at hpos hmod ⊢
  all_goals
    have hle := Nat.div_mul_le_self (pa - b.pseudoBase) c
    have hlt := Nat.lt_div_mul_add (a := pa - b.pseudoBase) hpos
  · omega
  · omega
  · rw [Nat.add_sub_cancel_left, Nat.mul_mod, hmod]
    simp
  · omega
  · omega

inductive RangeOutcome (physical : Nat → Nat) (k : Kload) (s : OpenKmap) (host : MapHost) (pa : Nat) :
    Except Rc (KmapRange × Bool) × OpenKmap → Prop where
  | refused (rc : Rc) (reserved : Bool) : RangeOutcome physical k s host pa (.error rc, { s with reserved := reserved })
  | reused {sl : KmapSlice} : s.find pa = some sl →
      RangeOutcome physical k s host pa (.ok (sl.range, true), { s with reserved := true })
  | added {b : Block} {sl : KmapSlice} {s' : OpenKmap} : s.find pa = none → k.blockForPa pa = some b →
      add physical { s with reserved := true } host (rangePiece b pa) = .ok (sl, s') →
      RangeOutcome physical k s host pa (.ok (sl.range, false), s')

theorem backOut_eq (s : OpenKmap) (took : Bool) : ∃ reserved, s.backOut took = { s with reserved := reserved } := by
  rw [backOut]
  split
  · exact ⟨false, rfl⟩
  · exact ⟨s.reserved, rfl⟩

theorem kmapRange_outcome (physical : Nat → Nat) (k : Kload) (s : OpenKmap) (ready : Bool) (host : MapHost) (pa : Nat) :
    RangeOutcome physical k s host pa (s.kmapRange physical k ready host pa) := by
  obtain ⟨reserved, hback⟩ := backOut_eq { s with reserved := true } (!s.reserved)
  rw [kmapRange]
  split
  · exact .refused .error s.reserved
  split
  · exact .refused .error s.reserved
  rw [rangeReserved, hback]
  cases hfind : ({ s with reserved := true } : OpenKmap).find pa with
  | some sl => exact .reused hfind
  | none =>
    cases hblock : k.blockForPa pa with
    | none => exact .refused .error reserved
    | some b =>
      dsimp only
      generalize hadd : ({ s with reserved := true } : OpenKmap).add physical host (rangePiece b pa) = r
      cases r with
      | error rc =>
        rw [rangeAdded, hback]
        exact .refused rc reserved
      | ok q => exact .added hfind hblock hadd

theorem kmapRange_inv (ready : Bool) (host : MapHost) (pa : Nat) (hi : Inv physical k s) :
    Inv physical k (s.kmapRange physical k ready host pa).2 := by
  have hout := kmapRange_outcome physical k s ready host pa
  cases hr : s.kmapRange physical k ready host pa with
  | mk r s' =>
    rw [hr] at hout
    cases hout with
    | refused rc reserved => exact { hi with }
    | reused _ => exact { hi with }
    | added _ hblock hadd =>
      have hi' : Inv physical k { s with reserved := true } := { hi with }
      exact hi'.add (rangePiece_fits hblock).1 hadd

theorem kmapRange_apart (ready : Bool) (host : MapHost) (pa : Nat) (hi : Inv physical k s)
    (hst : Stacked 0 k.block (k.backedPages * 4096)) (hwhole : Whole k s (.kmapRange ready host pa))
    (hapart : s.slices.Pairwise KmapSlice.Apart) :
    (s.kmapRange physical k ready host pa).2.slices.Pairwise KmapSlice.Apart := by
  have hout := kmapRange_outcome physical k s ready host pa
  cases hr : s.kmapRange physical k ready host pa with
  | mk r s' =>
    rw [hr] at hout
    cases hout with
    | refused rc reserved => exact hapart
    | reused _ => exact hapart
    | @added b sl _ hfind hblock hadd =>
      obtain ⟨hfit, hlow, hhigh⟩ := rangePiece_fits hblock
      obtain ⟨page, -, -, -, hpa, hbytes, -, -, rfl⟩ := add_ok hadd hfit.small
      refine hapart.cons fun a ha => ?_
      rw [KmapSlice.Apart, hpa, hbytes]
      obtain ⟨d, hd, hsees⟩ := (hi.mapped a ha).sees
      obtain ⟨hin₁, hin₂⟩ := hsees.inside
      rcases hst.eq_or_apart hfit.mem hd with rfl | hbd | hdb
      · -- In the same block both are pieces, and only the new one has the address.
        obtain ⟨hmul, hcut⟩ := hwhole hfind b hblock a ha hsees.inside
        have hmiss := find_none hfind ha
        obtain ⟨n, hn⟩ := Nat.dvd_of_mod_eq_zero hmul
        simp only [rangePiece] at hlow hhigh ⊢
        generalize (pa - b.pseudoBase) / kmapSliceBytes = i at hlow hhigh ⊢
        generalize kmapSliceBytes = c at hn hcut hlow hhigh ⊢
        rw [Nat.mul_comm] at hn
        rcases Nat.lt_trichotomy n i with hlt | rfl | hgt
        · have hle : (n + 1) * c ≤ i * c := Nat.mul_le_mul_right _ hlt
          rw [Nat.add_mul, Nat.one_mul] at hle
          omega
        · omega
        · have hle : (i + 1) * c ≤ n * c := Nat.mul_le_mul_right _ hgt
          rw [Nat.add_mul, Nat.one_mul] at hle
          omega
      · have := hfit.inside
        omega
      · have := hfit.inside
        omega

theorem Mapped.shows (h : Mapped physical k user sl) (hk : PoolBlocks physical k p2m) : sl.range.Shows user p2m := by
  obtain ⟨b, hb, hsees⟩ := h.sees
  have hbase := hk.stacked.base_whole hk.whole rfl b hb
  have haligned := hsees.aligned
  have hbytes := h.bytes
  obtain ⟨hin₁, hin₂⟩ := hsees.inside
  intro j hj
  change j < sl.bytes / 4096 at hj
  have hframe := hk.frames b hb ((sl.pa - b.pseudoBase) / 4096 + j) (by omega)
  show user (sl.userVa / 4096 + j) = some (p2m (sl.pa / 4096 + j))
  rw [hsees.shows j (by omega), show sl.pa / 4096 + j = b.pseudoBase / 4096 + ((sl.pa - b.pseudoBase) / 4096 + j) from by
    omega, hframe]
  congr 2
  omega

theorem kmapRange_ok {ready : Bool} {r : KmapRange} {reused : Bool}
    (h : s.kmapRange physical k ready host pa = (.ok (r, reused), s')) :
    ∃ sl ∈ s'.slices, sl.range = r ∧ sl.pa ≤ pa ∧ pa < sl.pa + sl.bytes := by
  have hout := kmapRange_outcome physical k s ready host pa
  rw [h] at hout
  cases hout with
  | reused hfind =>
    obtain ⟨hmem, hlow, hhigh⟩ := find_some hfind
    exact ⟨_, hmem, rfl, hlow, hhigh⟩
  | added _ hblock hadd =>
    obtain ⟨hfit, hlow, hhigh⟩ := rangePiece_fits hblock
    obtain ⟨page, -, -, -, hpa, hbytes, -, -, rfl⟩ := add_ok hadd hfit.small
    exact ⟨_, List.mem_cons_self, rfl, by rw [hpa]; exact hlow, by rw [hpa, hbytes]; exact hhigh⟩

/-! ## KMAP_UNMAP_RANGE -/

theorem kmapUnmapRange_cases (s : OpenKmap) (pa : Nat) :
    (s.kmapUnmapRange pa).2 = s ∨ ∃ sl before after, s.slices = before ++ sl :: after ∧
      (s.kmapUnmapRange pa).2 =
        { s with slices := before ++ after, count := s.count - 1, user := unmap s.user sl } := by
  rw [kmapUnmapRange]
  cases hfind : s.slices.find? fun sl => decide (sl.pa = pa) with
  | none => exact .inl rfl
  | some sl =>
    obtain ⟨hp, before, after, hslices, hbefore⟩ := List.find?_eq_some_iff_append.mp hfind
    refine .inr ⟨sl, before, after, hslices, ?_⟩
    have herase : (s.slices.eraseP fun sl => decide (sl.pa = pa)) = before ++ after := by
      rw [hslices, List.eraseP_append_right _ (fun a ha => by simpa using hbefore a ha),
        List.eraseP_cons_of_pos (p := fun sl : KmapSlice => decide (sl.pa = pa)) hp]
    dsimp only
    rw [herase]

theorem kmapUnmapRange_inv (pa : Nat) (hi : Inv physical k s) : Inv physical k (s.kmapUnmapRange pa).2 := by
  rcases kmapUnmapRange_cases s pa with h | ⟨sl, before, after, hslices, h⟩
  · rw [h]
    exact hi
  · rw [h]
    have hplaces := hi.places
    rw [hslices] at hplaces
    obtain ⟨hb, hsa, hba⟩ := List.pairwise_append.mp hplaces
    obtain ⟨hsl, ha⟩ := List.pairwise_cons.mp hsa
    have hold : ∀ a ∈ before ++ after, a ∈ s.slices ∧ Elsewhere sl a := by
      intro a hmem
      rw [hslices]
      rcases List.mem_append.mp hmem with hmem | hmem
      · exact ⟨List.mem_append_left _ hmem, (hba a hmem sl List.mem_cons_self).symm⟩
      · exact ⟨List.mem_append_right _ (List.mem_cons_of_mem _ hmem), hsl a hmem⟩
    refine ⟨fun a hmem => ?_, ?_, ?_⟩
    · obtain ⟨hin, helse⟩ := hold a hmem
      refine (hi.mapped a hin).keep fun j hj => ?_
      dsimp only
      rw [unmap]
      split
      · refine if_neg fun hpage => ?_
        simp only [Elsewhere] at helse
        omega
      · rfl
    · exact List.pairwise_append.mpr ⟨hb, ha, fun a hmem c hc => hba a hmem c (List.mem_cons_of_mem _ hc)⟩
    · have hcount := hi.count
      rw [hslices] at hcount
      simp only [List.length_append, List.length_cons] at hcount ⊢
      omega

theorem kmapUnmapRange_apart (pa : Nat) (hapart : s.slices.Pairwise KmapSlice.Apart) :
    (s.kmapUnmapRange pa).2.slices.Pairwise KmapSlice.Apart := by
  rcases kmapUnmapRange_cases s pa with h | ⟨sl, before, after, hslices, h⟩
  · rw [h]
    exact hapart
  · rw [h]
    rw [hslices] at hapart
    exact hapart.sublist (List.Sublist.append_left (List.sublist_cons_self sl after) before)

/-! ## Runs -/

theorem handle_inv (request : Request) (hi : Inv physical k s) : Inv physical k (s.handle physical k request) := by
  cases request with
  | kmap ready host maxSlice => exact kmap_inv ready host maxSlice hi
  | kmapRange ready host pa => exact kmapRange_inv ready host pa hi
  | kmapUnmapRange pa => exact kmapUnmapRange_inv pa hi

theorem handle_apart (request : Request) (hi : Inv physical k s) (hst : Stacked 0 k.block (k.backedPages * 4096))
    (hwhole : Whole k s request) (hapart : s.slices.Pairwise KmapSlice.Apart) :
    (s.handle physical k request).slices.Pairwise KmapSlice.Apart := by
  cases request with
  | kmap ready host maxSlice => exact kmap_apart ready host maxSlice hi hst hapart
  | kmapRange ready host pa => exact kmapRange_apart ready host pa hi hst hwhole hapart
  | kmapUnmapRange pa => exact kmapUnmapRange_apart pa hapart

theorem Reachable.inv (hst : Stacked 0 k.block (k.backedPages * 4096)) (h : Reachable physical k (Whole k) s) :
    Inv physical k s ∧ s.slices.Pairwise KmapSlice.Apart := by
  refine Runs.Reach.invariant (P := fun s => Inv physical k s ∧ s.slices.Pairwise KmapSlice.Apart) (fun s hs => ?_)
    (fun s request s' ⟨hi, hapart⟩ ⟨hok, hs'⟩ => ?_) h
  · obtain ⟨hslices, hcount, -⟩ := hs
    refine ⟨⟨fun sl hsl => ?_, ?_, ?_⟩, ?_⟩
    · rw [hslices] at hsl
      cases hsl
    · rw [hslices]
      exact .nil
    · rw [hslices, hcount]
      rfl
    · rw [hslices]
      exact .nil
  · subst hs'
    exact ⟨handle_inv request hi, handle_apart request hi hst hok hapart⟩

end OpenKmap

end MoCoLinux
