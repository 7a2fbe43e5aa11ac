import MoCoLinux.Arch.Spec
import MoCoLinux.Kload.Frames
import MoCoLinux.Kload.Lemmas.Loader
import MoCoLinux.Lib.BinarySearch

/-!
# The loader as a frame source
-/

namespace MoCoLinux

open Arch (Mem)

namespace Kload

variable {k k' : Kload} {p2m m2p : Nat → Nat}

def Stacked : Nat → List Block → Nat → Prop
  | start, [], stop => start = stop
  | start, b :: bs, stop => b.pseudoBase = start ∧ 0 < b.bytes ∧ b.va ≠ 0 ∧ Stacked (start + b.bytes) bs stop

theorem Stacked.append {b : Block} : ∀ {bs start stop}, Stacked start bs stop → b.pseudoBase = stop →
    0 < b.bytes → b.va ≠ 0 → Stacked start (bs ++ [b]) (stop + b.bytes)
  | [], _, _, h, hb, hpos, hva => ⟨hb.trans h.symm, hpos, hva, by cases h; rfl⟩
  | _ :: _, _, _, ⟨h1, h2, h3, h4⟩, hb, hpos, hva => ⟨h1, h2, h3, h4.append hb hpos hva⟩

theorem Stacked.stop_pos : ∀ {bs start stop}, Stacked start bs stop → bs ≠ [] → start < stop
  | [], _, _, _, h => absurd rfl h
  | [b], start, stop, ⟨_, h2, _, h4⟩, _ => by
    simp only [Stacked] at h4
    omega
  | b :: b' :: bs, start, stop, ⟨_, h2, _, h4⟩, _ => by
    have := h4.stop_pos (by simp)
    omega

def blockProbe (block : List Block) (pa i : Nat) : Ordering :=
  match block[i]? with
  | none => .lt
  | some b => if pa < b.pseudoBase then .lt else if b.pseudoBase + b.bytes ≤ pa then .gt else .eq

section Probe

variable {block : List Block} {b : Block} {pa i : Nat}

theorem blockProbe_lt (hb : block[i]? = some b) (h : pa < b.pseudoBase) : blockProbe block pa i = .lt := by
  simp [blockProbe, hb, h]

theorem blockProbe_gt (hb : block[i]? = some b) (h : b.pseudoBase + b.bytes ≤ pa) :
    blockProbe block pa i = .gt := by
  have hge : ¬ pa < b.pseudoBase := by omega
  simp [blockProbe, hb, h, hge]

theorem blockProbe_eq (hb : block[i]? = some b) (hle : b.pseudoBase ≤ pa) (hlt : pa < b.pseudoBase + b.bytes) :
    blockProbe block pa i = .eq := by
  have h1 : ¬ pa < b.pseudoBase := by omega
  have h2 : ¬ b.pseudoBase + b.bytes ≤ pa := by omega
  simp [blockProbe, hb, h1, h2]

end Probe

theorem Stacked.start_le {b : Block} : ∀ {bs start stop} {i : Nat}, Stacked start bs stop → bs[i]? = some b →
    start ≤ b.pseudoBase
  | [], _, _, _, _, hi => by simp at hi
  | b' :: bs, start, stop, 0, ⟨h1, _⟩, hi => by simp at hi; subst hi; exact h1.ge
  | b' :: bs, start, stop, i + 1, ⟨_, _, _, h4⟩, hi => by
    rw [List.getElem?_cons_succ] at hi
    exact Nat.le_trans (Nat.le_add_right _ _) (h4.start_le hi)

theorem Stacked.locate {pa : Nat} : ∀ {bs start stop}, Stacked start bs stop → start ≤ pa → pa < stop →
    ∃ t b, bs[t]? = some b ∧ b.va ≠ 0 ∧ b.pseudoBase ≤ pa ∧ pa < b.pseudoBase + b.bytes ∧
      blockProbe bs pa t = .eq ∧ (∀ i < t, blockProbe bs pa i = .gt) ∧
      ∀ i, t < i → blockProbe bs pa i = .lt
  | [], _, _, h, hlo, hhi => by cases h; omega
  | b :: bs, start, stop, ⟨h1, h2, h3, h4⟩, hlo, hhi => by
    by_cases hin : pa < start + b.bytes
    · refine ⟨0, b, rfl, h3, by omega, by omega, ?_, by omega, fun i hi => ?_⟩
      · exact blockProbe_eq rfl (by omega) (by omega)
      · obtain ⟨i, rfl⟩ : ∃ j, i = j + 1 := ⟨i - 1, by omega⟩
        cases hb : bs[i]? with
        | none => simp [blockProbe, hb]
        | some b' =>
          have := h4.start_le hb
          exact blockProbe_lt (by simpa using hb) (by omega)
    · obtain ⟨t, b', hb', hva, hle, hlt, heq, hleft, hright⟩ := h4.locate (by omega) hhi
      have hshift : ∀ i, blockProbe (b :: bs) pa (i + 1) = blockProbe bs pa i := fun i => by
        simp [blockProbe]
      refine ⟨t + 1, b', by simpa using hb', hva, hle, hlt, by rw [hshift, heq], fun i hi => ?_,
        fun i hi => ?_⟩
      · cases i with
        | zero => exact blockProbe_gt rfl (by omega)
        | succ i => rw [hshift]; exact hleft i (by omega)
      · obtain ⟨i, rfl⟩ : ∃ j, i = j + 1 := ⟨i - 1, by omega⟩
        rw [hshift]
        exact hright i (by omega)

theorem blockSearch_eq (block : List Block) (pa rounds lo hi : Nat) (h : hi ≤ block.length) :
    (blockSearch block pa rounds lo hi).map Prod.fst =
      BinarySearch.search (blockProbe block pa) rounds lo hi := by
  induction rounds generalizing lo hi with
  | zero => rfl
  | succ rounds ih =>
    rw [blockSearch, BinarySearch.search]
    split
    next hlt =>
      have hmid : lo + (hi - 1 - lo) / 2 < block.length := by omega
      dsimp only [blockProbe]
      rw [List.getElem?_eq_getElem hmid]
      dsimp only
      split
      · exact ih _ _ (by omega)
      · split
        · exact ih _ _ h
        · rfl
    · rfl

theorem blockSearch_spec {block : List Block} {pa : Nat} {t : Nat} {b : Block} :
    ∀ {rounds lo hi}, blockSearch block pa rounds lo hi = some (t, b) → block[t]? = some b := by
  intro rounds
  induction rounds with
  | zero => intro lo hi h; simp [blockSearch] at h
  | succ rounds ih =>
    intro lo hi h
    rw [blockSearch] at h
    split at h
    · dsimp only at h
      cases hb : block[lo + (hi - 1 - lo) / 2]? with
      | none => simp [hb] at h
      | some b' =>
        simp only [hb] at h
        split at h
        · exact ih h
        · split at h
          · exact ih h
          · simp only [Option.some.injEq, Prod.mk.injEq] at h
            obtain ⟨rfl, rfl⟩ := h
            exact hb
    · simp at h

theorem pseudoFrameVa_snd (k : Kload) (pfn : Nat) :
    ∃ hit, (k.pseudoFrameVa pfn).2 = { k with lastHit := hit } := by
  rw [pseudoFrameVa]
  cases blockSearch k.block (ullong (pfn <<< 12)) (k.block.length + 1) 0 k.block.length with
  | none =>
    split
    · exact ⟨k.lastHit, rfl⟩
    · split
      · exact ⟨k.lastHit, rfl⟩
      · split <;> exact ⟨k.lastHit, rfl⟩
  | some found =>
    split
    · exact ⟨k.lastHit, rfl⟩
    · split
      · exact ⟨found.1, rfl⟩
      · split
        · exact ⟨k.lastHit, rfl⟩
        · exact ⟨found.1, rfl⟩

theorem frameVa_snd (k : Kload) (pfn : Nat) : ∃ hit, (k.frameVa pfn).2 = { k with lastHit := hit } := by
  rw [frameVa]
  split
  · exact ⟨k.lastHit, rfl⟩
  · exact pseudoFrameVa_snd k _

theorem pseudoFrameVa_block (h : Stacked 0 k.block (k.backedPages * 4096)) {pfn : Nat}
    (hpfn : pfn < k.backedPages) (hb : k.backedPages < 2 ^ 32) :
    ∃ b ∈ k.block, ∃ hit, b.va ≠ 0 ∧ (b.pseudoBase ≤ pfn * 4096 ∧ pfn * 4096 < b.pseudoBase + b.bytes) ∧
      k.pseudoFrameVa pfn = (blockAddress b (pfn * 4096), { k with lastHit := hit }) := by
  have hpa : ullong (pfn <<< 12) = pfn * 4096 := by
    rw [Nat.shiftLeft_eq]; exact ullong_of_lt (by omega)
  obtain ⟨t, b, hbt, hva, hle, hlt, heq, hleft, hright⟩ :=
    h.locate (by omega : 0 ≤ pfn * 4096) (by omega)
  have htlen : t < k.block.length := (List.getElem?_eq_some_iff.mp hbt).1
  have hsearch : blockSearch k.block (pfn * 4096) (k.block.length + 1) 0 k.block.length = some (t, b) := by
    have hs := blockSearch_eq k.block (pfn * 4096) (k.block.length + 1) 0 k.block.length (le_refl _)
    rw [BinarySearch.search_eq_some heq hleft hright _ (Nat.zero_le _) htlen (by omega)] at hs
    obtain ⟨⟨t', b'⟩, hr, rfl⟩ := Option.map_eq_some_iff.mp hs
    rw [hr]
    have := blockSearch_spec hr
    rw [hbt] at this
    cases this
    rfl
  simp only [pseudoFrameVa, hpa, if_neg (Nat.not_le.mpr hpfn), hsearch]
  cases hlast : k.block[k.lastHit]? with
  | none => exact ⟨b, List.mem_of_getElem? hbt, t, hva, ⟨hle, hlt⟩, rfl⟩
  | some b' =>
    dsimp only
    split
    next hin => exact ⟨b', List.mem_of_getElem? hlast, k.lastHit, hin.1, hin.2, rfl⟩
    · exact ⟨b, List.mem_of_getElem? hbt, t, hva, ⟨hle, hlt⟩, rfl⟩

theorem pseudoFrameVa_eq (h : Stacked 0 k.block (k.backedPages * 4096)) {pfn : Nat}
    (hpfn : pfn < k.backedPages) (hb : k.backedPages < 2 ^ 32) :
    ∃ va hit, va ≠ 0 ∧ k.pseudoFrameVa pfn = (va, { k with lastHit := hit }) := by
  obtain ⟨b, -, hit, hva, -, heq⟩ := pseudoFrameVa_block h hpfn hb
  refine ⟨_, hit, ?_, heq⟩
  rw [blockAddress]
  omega

structure SameBacking (k k' : Kload) : Prop where
  p2m : k'.p2m = k.p2m
  m2p : k'.m2p = k.m2p
  slots : k'.m2pSlots = k.m2pSlots
  mask : k'.m2pMaskValue = k.m2pMaskValue
  capacity : k'.p2mCapacity = k.p2mCapacity
  backed : k'.backedPages = k.backedPages
  base : k'.windowBasePages = k.windowBasePages
  next : k'.windowNext = k.windowNext
  block : k'.block = k.block

theorem SameBacking.trans {k'' : Kload} (h : SameBacking k k') (h' : SameBacking k' k'') : SameBacking k k'' where
  p2m := h'.p2m.trans h.p2m
  m2p := h'.m2p.trans h.m2p
  slots := h'.slots.trans h.slots
  mask := h'.mask.trans h.mask
  capacity := h'.capacity.trans h.capacity
  backed := h'.backed.trans h.backed
  base := h'.base.trans h.base
  next := h'.next.trans h.next
  block := h'.block.trans h.block

theorem SameBacking.translated (h : SameBacking k k') (ht : k.Translated) : k'.Translated := by
  obtain ⟨p2m, m2p, hp, hm, hf⟩ := ht.arrays
  have hmir : ∀ p2m m2p, k.p2m = some p2m → k.m2p = some m2p → Mirror k' p2m m2p k.backedPages := by
    intro p2m m2p hp hm
    obtain ⟨⟨a, b⟩, c, d, e⟩ := ht.mirror p2m m2p hp hm
    exact ⟨⟨by rwa [h.slots], by rwa [h.slots]⟩, by rwa [h.slots], by rwa [h.slots], e⟩
  refine ⟨⟨ht.geometry.congr h.slots h.mask h.capacity, ?_, p2m, m2p, h.p2m.trans hp, h.m2p.trans hm, ?_⟩, ?_, ?_, ?_⟩
  · rw [h.backed, h.capacity]; exact ht.backed
  · rw [h.backed]; exact (hmir p2m m2p hp hm).toFilled
  · rw [h.backed, h.base]; exact ht.apart
  · rw [h.next, h.capacity]; exact ht.next
  · rw [h.p2m, h.m2p, h.backed]; exact hmir

end Kload

namespace Loader

open Kload

variable {l l' : Loader} {m m' : Mem} {p2m : Nat → Nat}

/-- The loader has backed its table region, and the frames of its pages fit a page-table entry. -/
structure Ready (l : Loader) : Prop where
  translated : l.k.Translated
  nonempty : l.k.block ≠ []
  blocks : Stacked 0 l.k.block (l.k.backedPages * 4096)
  frames : ∀ p2m, l.k.p2m = some p2m → ∀ i < l.k.backedPages, p2m i ≠ 0 ∧ p2m i < 2 ^ 40
  start : l.k.tableStart ≤ l.k.tableTop
  top : l.k.tableTop ≤ l.k.tableEnd
  backed : l.k.tableEnd ≤ l.k.backedPages * 4096
  aligned : l.k.tableTop % 4096 = 0

theorem Ready.backed_lt (h : l.Ready) : l.k.backedPages < 2 ^ 32 := by
  have := h.translated.backed
  have := h.translated.geometry.capacity_lt
  omega

theorem Ready.congr (h : l.Ready) (hs : SameBacking l.k l'.k) (h1 : l'.k.tableStart = l.k.tableStart)
    (h2 : l'.k.tableEnd = l.k.tableEnd) (h3 : l'.k.tableTop = l.k.tableTop) : l'.Ready := by
  refine ⟨hs.translated h.translated, ?_, ?_, ?_, ?_, ?_, ?_, ?_⟩
  · rw [hs.block]; exact h.nonempty
  · rw [hs.block, hs.backed]; exact h.blocks
  · rw [hs.p2m, hs.backed]; exact h.frames
  · rw [h1, h3]; exact h.start
  · rw [h2, h3]; exact h.top
  · rw [h2, hs.backed]; exact h.backed
  · rw [h3]; exact h.aligned

theorem Ready.frameVa_eq (h : l.Ready) (hp : l.k.p2m = some p2m) {i : Nat} (hi : i < l.k.backedPages) :
    ∃ va hit, va ≠ 0 ∧ l.k.frameVa (p2m i) = (va, { l.k with lastHit := hit }) := by
  rw [frameVa, h.translated.lookup hp hi]
  exact pseudoFrameVa_eq h.blocks hi h.backed_lt

def nextTable (l : Loader) : Nat := l.k.tableTop / 4096 - 1

theorem Ready.tableFrame_ok (h : l.Ready) (hp : l.k.p2m = some p2m)
    (hroom : l.k.tableStart + 4096 ≤ l.k.tableTop) (m : Mem) :
    ∃ hit, tableFrame l m = (.ok (p2m l.nextTable),
      { l with k := { l.k with tableTop := l.k.tableTop - 4096, lastHit := hit } },
      m.zero (p2m l.nextTable)) := by
  have hal := h.aligned
  have htop := h.top
  have hback := h.backed
  have hcap := h.translated.backed
  have hpage : (l.k.tableTop - 4096) >>> 12 = l.nextTable := by
    rw [Nat.shiftRight_eq_div_pow, nextTable]; omega
  have hlt : l.nextTable < l.k.backedPages := by rw [nextTable]; omega
  have hlen : l.k.block.length ≠ 0 := fun h0 => h.nonempty (List.length_eq_zero_iff.mp h0)
  obtain ⟨va, hit, hva, hfva⟩ := pseudoFrameVa_eq
    (k := { l.k with tableTop := l.k.tableTop - 4096 }) h.blocks hlt h.backed_lt
  have hptm : { l.k with tableTop := l.k.tableTop - 4096 }.pseudoToMachinePfn l.nextTable
      = some (p2m l.nextTable) := by
    simp only [pseudoToMachinePfn, hp]
    rw [if_neg (by omega), if_neg (by omega)]
  refine ⟨hit, ?_⟩
  simp only [tableFrame, if_neg hlen, Arch.pageSize, if_neg (Nat.not_lt.mpr hroom), hpage, hptm, hfva, if_neg hva]

theorem Ready.tableFrame_oom (h : l.Ready) (hroom : l.k.tableTop < l.k.tableStart + 4096) (m : Mem) :
    tableFrame l m = (.error .outOfMemory, { l with tableOom := true }, m) := by
  have hlen : l.k.block.length ≠ 0 := fun h0 => h.nonempty (List.length_eq_zero_iff.mp h0)
  rw [tableFrame, if_neg hlen, if_pos (show l.k.tableTop < l.k.tableStart + Arch.pageSize from hroom)]

def TableFrame (l : Loader) (q : Nat) : Prop :=
  ∃ p2m i, l.k.p2m = some p2m ∧ l.k.tableTop ≤ i * 4096 ∧ i * 4096 < l.k.tableEnd ∧ p2m i = q

theorem TableFrame.congr {q : Nat} (h : l.TableFrame q) (hp : l'.k.p2m = l.k.p2m)
    (ht : l'.k.tableTop ≤ l.k.tableTop) (he : l'.k.tableEnd = l.k.tableEnd) : l'.TableFrame q := by
  obtain ⟨p2m, i, hp2m, hi, hend, hq⟩ := h
  exact ⟨p2m, i, hp.trans hp2m, ht.trans hi, he ▸ hend, hq⟩

theorem Ready.tableFrame_cases (h : l.Ready) (m : Mem) :
    (l.k.tableTop < l.k.tableStart + 4096 ∧ tableFrame l m = (.error .outOfMemory, { l with tableOom := true }, m)) ∨
    ∃ p2m hit, l.k.p2m = some p2m ∧ l.k.tableStart + 4096 ≤ l.k.tableTop ∧
      tableFrame l m = (.ok (p2m l.nextTable),
        { l with k := { l.k with tableTop := l.k.tableTop - 4096, lastHit := hit } },
        m.zero (p2m l.nextTable)) := by
  rcases Nat.lt_or_ge l.k.tableTop (l.k.tableStart + 4096) with hlt | hge
  · exact Or.inl ⟨hlt, h.tableFrame_oom hlt m⟩
  · obtain ⟨p2m, m2p, hp, -, -⟩ := h.translated.arrays
    obtain ⟨hit, heq⟩ := h.tableFrame_ok hp hge m
    exact Or.inr ⟨p2m, hit, hp, hge, heq⟩

theorem map_snd (l : Loader) (osMap : Nat → Bool) (pfn : Nat) :
    ∃ hit, ((spaceHost osMap).map l pfn).2 = { l with k := { l.k with lastHit := hit } } := by
  obtain ⟨hit, heq⟩ := frameVa_snd l.k pfn
  exact ⟨hit, by simp only [spaceHost, heq]⟩

theorem Ready.newTable (h : l.Ready) {m m' : Mem} {pfn : Nat} (hnew : tableFrame l m = (.ok pfn, l', m')) :
    l'.Ready ∧ ¬ l.TableFrame pfn ∧ l'.TableFrame pfn ∧ pfn < 2 ^ 40 ∧ (∀ i, m' pfn i = 0) ∧
      ∀ q, l.TableFrame q → l'.TableFrame q ∧ m' q = m q := by
  rcases h.tableFrame_cases m with ⟨-, heq⟩ | ⟨p2m, hit, hp, hroom, heq⟩
  · rw [heq] at hnew; simp at hnew
  · rw [heq, Prod.mk.injEq, Prod.mk.injEq, Except.ok.injEq] at hnew
    obtain ⟨rfl, rfl, rfl⟩ := hnew
    have hal := h.aligned
    have htop := h.top
    have hback := h.backed
    have hnext : l.nextTable * 4096 = l.k.tableTop - 4096 := by rw [nextTable]; omega
    have hlt : l.nextTable < l.k.backedPages := by omega
    -- another handed-out frame is another page, as no frame backs two pages
    have hnot : ¬ l.TableFrame (p2m l.nextTable) := by
      rintro ⟨q, i, hq, hi, hend, he⟩
      rw [hp, Option.some.injEq] at hq
      subst hq
      obtain ⟨-, m2p, -, hm2p, -⟩ := h.translated.arrays
      have := (h.translated.mirror _ m2p hp hm2p).inj i (by omega) _ hlt he
      omega
    refine ⟨?_, hnot, ⟨p2m, l.nextTable, hp, hnext.ge, by simp only [hnext]; omega, rfl⟩,
      (h.frames p2m hp _ hlt).2, fun i => by simp [Mem.zero], fun q hq => ⟨?_, ?_⟩⟩
    · have hs : SameBacking l.k { l.k with tableTop := l.k.tableTop - 4096, lastHit := hit } := by
        constructor <;> rfl
      exact ⟨hs.translated h.translated, h.nonempty, h.blocks, h.frames, by simp only; omega,
        by simp only; omega, hback, by simp only; omega⟩
    · exact hq.congr rfl (Nat.sub_le _ _) rfl
    · have hne : q ≠ p2m l.nextTable := fun he => hnot (he ▸ hq)
      exact Function.update_of_ne hne _ _

theorem Ready.noTable (h : l.Ready) {m m' : Mem} {rc : Rc} (hnew : tableFrame l m = (.error rc, l', m')) :
    l'.Ready ∧ rc ≠ .ok ∧ ∀ q, l.TableFrame q → l'.TableFrame q ∧ m' q = m q := by
  rcases h.tableFrame_cases m with ⟨-, heq⟩ | ⟨p2m, hit, hp, hroom, heq⟩
  · rw [heq, Prod.mk.injEq, Prod.mk.injEq, Except.error.injEq] at hnew
    obtain ⟨rfl, rfl, rfl⟩ := hnew
    exact ⟨h.congr (by constructor <;> rfl) rfl rfl rfl, by decide, fun q hq => ⟨hq, rfl⟩⟩
  · rw [heq] at hnew; simp at hnew

theorem Ready.map (h : l.Ready) (osMap : Nat → Bool) (pfn : Nat) : ((spaceHost osMap).map l pfn).2.Ready := by
  obtain ⟨hit, heq⟩ := l.map_snd osMap pfn
  rw [heq]
  exact h.congr (by constructor <;> rfl) rfl rfl rfl

theorem TableFrame.map {q : Nat} (h : l.TableFrame q) (osMap : Nat → Bool) (pfn : Nat) :
    ((spaceHost osMap).map l pfn).2.TableFrame q := by
  obtain ⟨hit, heq⟩ := l.map_snd osMap pfn
  rw [heq]
  exact h.congr rfl (le_refl _) rfl

def frameSource (osMap : Nat → Bool) : Arch.FrameSource (spaceHost osMap) where
  Inv := Ready
  used := TableFrame
  newTable_ok h hnew := h.newTable hnew
  newTable_error h hnew := h.noTable hnew
  map_inv pfn h := h.map osMap pfn
  map_used pfn hq := hq.map osMap pfn
  putPage_inv _ h := h
  putPage_used hq _ := hq

end Loader

end MoCoLinux
