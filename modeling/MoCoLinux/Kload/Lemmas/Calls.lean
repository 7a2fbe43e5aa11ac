import MoCoLinux.Kload.Lemmas.Layout

/-!
# The calls of a load
-/

namespace MoCoLinux.Loader

open Arch (Mem GuestSpace Tree pathTo leafPage kernelMap directMap isPresent)
open RadixTree (Shape)
open Kload

variable {host : Host} {l l' : Loader} {m m' : Mem} {S : Shape Nat Nat} {R : Finset (List Nat)}
variable {space : GuestSpace} {lo top : Nat}

/-! ## `co_kload_chunk` -/

structure Loaded (host : Host) (R : Finset (List Nat)) (S : Shape Nat Nat) (l l' : Loader) (m' : Mem)
    (S' : Shape Nat Nat) : Prop where
  space : ∃ space, l'.k.space = some space ∧ Loading host R space l' m' S'
  subset : S.nodes ⊆ S'.nodes
  same : SameRam l l'
  oom : l.tableOom = true → l'.tableOom = true

theorem Loaded.trans {l'' : Loader} {m'' : Mem} {S' S'' : Shape Nat Nat} (h : Loaded host R S l l' m' S')
    (h' : Loaded host R S' l' l'' m'' S'') : Loaded host R S l l'' m'' S'' :=
  ⟨h'.space, h.subset.trans h'.subset, h.same.trans h'.same, fun ho => h'.oom (h.oom ho)⟩

section Chunk

variable (hlo : kernelMap ≤ lo) (hal : lo % 4096 = 0) (htop : top ≤ 2 ^ 31)
  (hpath : ∀ va, lo ≤ va → va < kernelMap + top → ∀ level < 3, pathTo va (level + 1) ∈ R)

include hlo hal htop hpath

theorem Loading.chunk (L : Loading host R space l m S) (hsp : l.k.space = some space) (hmin : l.k.minVa = lo)
    (hstart : l.k.tableStart = top) {c : Chunk} (h64 : c.va < 2 ^ 64) {rc l' m'}
    (hr : chunk host c l m = (rc, l', m')) :
    ∃ S', Loaded host R S l l' m' S' ∧ (lo ≤ c.va → c.va + c.size ≤ kernelMap + top →
      ullong (c.va + c.size) ≤ l.k.maxVa → l'.tableOom = true ∨
        ∀ y, c.va ≤ y → y < c.va + c.size → pathTo (y / 4096 * 4096) 3 ∈ S'.nodes) := by
  rw [Loader.chunk, hsp, Option.isNone_some, if_neg (by decide), hmin] at hr
  split at hr
  next hout =>
    cases hr
    exact ⟨S, ⟨⟨space, hsp, L⟩, Finset.Subset.refl _, SameRam.refl l, id⟩, fun h1 _ h3 => by omega⟩
  next hin =>
    rcases hloop : Loader.chunkLoop host c.data c.zero c.size c.va c.size 0 l m with ⟨rc₁, l₁, m₁⟩
    obtain ⟨space₁, S₁, hsp₁, L₁, hsub₁, hs₁, hoom₁, hall⟩ := Loading.chunkLoop hlo hal htop hpath c.data c.zero
      c.size L hsp hstart (Or.inl (by omega)) h64 hloop
    rw [hloop] at hr
    by_cases hok : rc₁ = .ok
    · subst hok
      cases hr
      have hs₂ : SameRam l₁ { l₁ with k := { l₁.k with chunks := l₁.k.chunks + 1 } } := ⟨_, _, _, _, _, _, rfl⟩
      refine ⟨S₁, ⟨⟨space₁, hsp₁, L₁.congr hs₂.tables rfl rfl⟩, hsub₁, hs₁.trans hs₂, hoom₁⟩, fun h1 h2 _ => ?_⟩
      exact (hall (fun _ => ⟨h1, h2⟩) (le_refl _)).imp id fun h => h.2
    · have hr' : (rc₁, l₁, m₁) = (rc, l', m') := by
        rw [← hr]
        cases rc₁ <;> first | exact absurd rfl hok | rfl
      cases hr'
      refine ⟨S₁, ⟨⟨space₁, hsp₁, L₁⟩, hsub₁, hs₁, hoom₁⟩, fun h1 h2 _ => ?_⟩
      exact (hall (fun _ => ⟨h1, h2⟩) (le_refl _)).imp id fun h => absurd h.1 hok

theorem Loading.chunkAll {cs : List Chunk} : ∀ {space l m S}, Loading host R space l m S →
    l.k.space = some space → l.k.minVa = lo → l.k.tableStart = top → (∀ c ∈ cs, c.va < 2 ^ 64) →
    ∃ S', Loaded host R S l (chunkAll host cs l m).1 (chunkAll host cs l m).2 S' := by
  induction cs with
  | nil =>
    intro space l m S L hsp _ _ _
    exact ⟨S, ⟨space, hsp, L⟩, Finset.Subset.refl _, SameRam.refl l, id⟩
  | cons c cs ih =>
    intro space l m S L hsp hmin hstart h64
    rcases hc : Loader.chunk host c l m with ⟨rc₁, l₁, m₁⟩
    obtain ⟨S₁, h₁, -⟩ := L.chunk hlo hal htop hpath hsp hmin hstart (h64 c (by simp)) hc
    obtain ⟨space₁, hsp₁, L₁⟩ := h₁.space
    have hmin₁ : l₁.k.minVa = l.k.minVa := by
      obtain ⟨_, _, _, _, _, _, rfl⟩ := h₁.same
      rfl
    obtain ⟨S₂, h₂⟩ := ih L₁ hsp₁ (hmin₁.trans hmin) (h₁.same.tables.start.trans hstart)
      fun c' hc' => h64 c' (by simp [hc'])
    refine ⟨S₂, ?_⟩
    rw [Loader.chunkAll, hc]
    exact h₁.trans h₂

end Chunk

/-! ## Growing -/

theorem Loading.grown (hs : Supplies host) (L : Loading host R space l m S) (h' : Supplied host l')
    (hg : Grown l l') (hm : KeepsRam l m m') : Loading host R space l' m' S := by
  have hback := L.tree.inv.backed
  have hmore := hg.backed
  obtain ⟨p2m, m2p, hp, -, -⟩ := L.supplied.translated.arrays
  obtain ⟨p2m', hp', hsame⟩ := hg.p2m p2m hp
  have hne : l'.k.block ≠ [] := fun h0 => by
    have h1 := h'.blocks
    have h2 := L.supplied.blocks.stop_pos L.tree.inv.nonempty
    rw [h0] at h1
    simp only [Stacked] at h1
    omega
  have hframe : ∀ q, l.TableFrame q → l'.TableFrame q ∧ m' q = m q := by
    rintro q ⟨p, i, hpq, hi, hend, rfl⟩
    rw [hp, Option.some.injEq] at hpq
    subst hpq
    obtain ⟨_, _, _, _, hk⟩ := hg.k
    refine ⟨⟨p2m', i, hp', ?_, ?_, hsame i (by omega)⟩, hm _ hp i (by omega)⟩
    · rw [hk]; exact hi
    · rw [hk]; exact hend
  have hleaf : ∀ p ∈ S.nodes, m' (S.addr p) = m (S.addr p) := fun p hp => (hframe _ (L.tree.used p hp)).2
  have hready : l'.Ready := by
    refine ⟨h'.translated, hne, h'.blocks, fun q hq i hi => h'.frames hs hq hi, ?_, ?_, ?_, ?_⟩
    all_goals obtain ⟨_, _, _, _, hk⟩ := hg.k
    · rw [hk]; exact L.tree.inv.start
    · rw [hk]; exact L.tree.inv.top
    · have hend : l'.k.tableEnd = l.k.tableEnd := by rw [hk]
      omega
    · rw [hk]; exact L.tree.inv.aligned
  have hoom := hg.oom
  obtain ⟨_, _, _, _, hk⟩ := hg.k
  have hleft : l'.tablesLeft = l.tablesLeft := by rw [tablesLeft, tablesLeft, hk]
  have hsupply : l'.supply = l.supply := by rw [supply, supply, hk]
  refine ⟨h', L.tree.congr hready hframe, ?_, L.nodes, ?_, ?_, ?_, fun va hva => ?_, fun va hk' hv page hpage => ?_⟩
  · rw [hleft, hsupply]; exact L.count
  · rw [hoom, hsupply]; exact L.oom
  · rw [hk]; exact L.base
  · rw [hk]; exact L.aligned
  · rw [leafPage_congr hleaf]; exact L.low va hva
  · rw [leafPage_congr hleaf] at hpage
    obtain ⟨q, ⟨p, i, hpq, hi, rfl⟩, he⟩ := L.image va hk' hv page hpage
    rw [hp, Option.some.injEq] at hpq
    subst hpq
    have hstart := L.tree.inv.start
    have htop := L.tree.inv.top
    refine ⟨_, ⟨p2m', i, hp', ?_, hsame i (by omega)⟩, he⟩
    rw [hk]
    exact hi

/-! ## `co_kload_begin` -/

structure Placed (maxVa ramBytes : Nat) (k : Kload) : Prop where
  start : k.tableStart = imageHi maxVa
  stop : k.tableEnd = imageHi maxVa + tableBytes ramBytes (imageHi maxVa)
  physBase : k.physBase = 0
  base : k.windowBasePages = pagesUpTo (ramEnd maxVa ramBytes)
  capacity : k.p2mCapacity = capacityPages maxVa ramBytes
  p2mPages : k.p2mAllocPages = p2mPages maxVa ramBytes
  m2pPages : k.m2pAllocPages = m2pPages maxVa ramBytes

variable {minVa maxVa ramBytes : Nat}

theorem Placed.grown (h : Placed maxVa ramBytes l.k) (hg : Grown l l') : Placed maxVa ramBytes l'.k := by
  obtain ⟨_, _, _, _, hk⟩ := hg.k
  rw [hk]
  exact { h with }

theorem Placed.sameRam (h : Placed maxVa ramBytes l.k) (hs : SameRam l l') : Placed maxVa ramBytes l'.k := by
  obtain ⟨_, _, _, _, _, _, rfl⟩ := hs
  exact { h with }

theorem Accepted.placed (A : Accepted minVa maxVa ramBytes) (k : Kload) :
    Placed maxVa ramBytes ((k.withLayout maxVa ramBytes).withArrays (capacityPages maxVa ramBytes)) where
  start := rfl
  stop := rfl
  physBase := rfl
  base := A.windowBasePages_eq k
  capacity := rfl
  p2mPages := rfl
  m2pPages := rfl

theorem translationAlloc_supplied (A : Accepted minVa maxVa ramBytes) {k : Kload} (hblock : k.block = [])
    (hbacked : k.backedPages = 0) (hreq : l.requests = 0) :
    Supplied host { l with k := (k.withLayout maxVa ramBytes).withArrays (capacityPages maxVa ramBytes) } := by
  obtain ⟨h0, hcap⟩ := A.capacityPages_bounds
  generalize hk : k.withLayout maxVa ramBytes = k₀
  have hblock₀ : k₀.block = [] := by rw [← hk, withLayout_block, hblock]
  have hbacked₀ : k₀.backedPages = 0 := by rw [← hk, withLayout_backedPages, hbacked]
  generalize capacityPages maxVa ramBytes = capacity at *
  have ht := LoaderStart.translated ⟨k₀, capacity, hbacked₀, translationAlloc_eq h0 hcap k₀⟩
  refine ⟨ht, ?_, ?_, ?_, ?_⟩
  · simp only [withArrays, hblock₀, hbacked₀]
    rfl
  · simp only [withArrays, hblock₀, hreq]
    rfl
  · simp only [withArrays, hblock₀]
    decide
  · intro p2m _ i hi
    simp only [withArrays, hbacked₀] at hi
    omega

theorem isPresent_dataFlags : isPresent dataFlags = true := by decide

theorem Loading.mapArray (L : Loading host R space l m S) {base n : Nat} {paOf : Nat → Nat}
    (h47 : 2 ^ 64 - 2 ^ 47 ≤ base) (hk : base + n * 4096 ≤ kernelMap) (hal : base % 4096 = 0)
    (hpath : ∀ va, base ≤ va → va < base + n * 4096 → ∀ level < 3, pathTo va (level + 1) ∈ R)
    {rc done space' l' m'}
    (hr : Loader.mapRange host (fun i => base + i <<< 12) paOf dataFlags n space l m = (rc, done, space', l', m')) :
    ∃ S', Loading host R space' l' m' S' ∧ S.nodes ⊆ S'.nodes ∧ SameRam l l' ∧
      (rc = .ok ∧ done = n ∧ (∀ va, base ≤ va → va < base + n * 4096 → pathTo va 3 ∈ S'.nodes) ∧
        l'.tableOom = l.tableOom ∨ rc ≠ .ok ∧ l'.tableOom = true) := by
  have hshift : ∀ i, i <<< 12 = i * 4096 := fun i => Nat.shiftLeft_eq _ _
  simp only [hshift] at hr
  have hlow : ∀ i < n, 2 ^ 64 - 2 ^ 47 ≤ base + i * 4096 := fun i _ => by omega
  have hhigh : ∀ i < n, base + i * 4096 < kernelMap := fun i hi => by omega
  have hnodes : ∀ i < n, ∀ level < 3, pathTo (base + i * 4096) (level + 1) ∈ R := fun i hi =>
    hpath (base + i * 4096) (by omega) (by omega)
  obtain ⟨S', L', hsub, hs, hout⟩ := L.mapRange hlow hhigh hnodes isPresent_dataFlags hr
  refine ⟨S', L', hsub, hs, hout.imp (fun h => ⟨h.1, h.2.1, fun va h1 h2 => ?_, h.2.2.2⟩) id⟩
  have hpage := h.2.2.1 ((va - base) / 4096) (by omega)
  have heq : base + (va - base) / 4096 * 4096 = va / 4096 * 4096 := by omega
  rwa [heq, Arch.pathTo_page va (by decide : 2 < 3)] at hpage

theorem Loading.mapTranslationPages (A : Accepted minVa maxVa ramBytes) (L : Loading host R space l m S)
    (P : Placed maxVa ramBytes l.k) (hpath : ∀ r ∈ arrayRanges maxVa ramBytes, ∀ va, r.1 ≤ va → va ≤ r.2 →
      ∀ level < 3, pathTo va (level + 1) ∈ R) {rc space' l' m'}
    (hr : Loader.mapTranslationPages host space l m = (rc, space', l', m')) :
    ∃ S', Loading host R space' l' m' S' ∧ S.nodes ⊆ S'.nodes ∧ SameRam l l' ∧
      (rc = .ok ∧ (∀ r ∈ arrayRanges maxVa ramBytes, ∀ va, r.1 ≤ va → va ≤ r.2 → pathTo va 3 ∈ S'.nodes) ∧
        l'.tableOom = l.tableOom ∨ rc ≠ .ok ∧ l'.tableOom = true) := by
  obtain ⟨hn0, hn, hk0, hk⟩ := A.arrayPages
  simp only [arrayRanges, List.mem_cons, List.not_mem_nil, or_false, forall_eq_or_imp, forall_eq] at hpath ⊢
  rw [Loader.mapTranslationPages, P.p2mPages] at hr
  generalize p2mPages maxVa ramBytes = n at *
  have hm2p : l.k.m2pAllocPages = m2pPages maxVa ramBytes := P.m2pPages
  generalize m2pPages maxVa ramBytes = k at *
  have hp : p2mVa = 2 ^ 64 - 2 ^ 47 + 2 ^ 30 * 108158 := by decide
  have hm : m2pVa = 2 ^ 64 - 2 ^ 47 + 2 ^ 30 * 108159 := by decide
  have hkernel := kernelMap_eq
  rcases h₁ : Loader.mapRange host (fun i => p2mVa + i <<< 12) host.p2mPa dataFlags n space l m with
    ⟨rc₁, done₁, space₁, l₁, m₁⟩
  obtain ⟨S₁, L₁, hsub₁, hs₁, hout₁⟩ := L.mapArray (by omega) (by omega) (by omega)
    (fun va h1 h2 => hpath.1 va h1 (by omega)) h₁
  rw [h₁] at hr
  rcases hout₁ with ⟨rfl, -, hall₁, hoom₁⟩ | ⟨hne, hoom₁⟩
  · have hm₁ : l₁.k.m2pAllocPages = k := by
      obtain ⟨_, _, _, _, _, _, rfl⟩ := hs₁
      exact hm2p
    dsimp only at hr
    rw [hm₁] at hr
    rcases h₂ : Loader.mapRange host (fun i => m2pVa + i <<< 12) host.m2pPa dataFlags k space₁ l₁ m₁ with
      ⟨rc₂, done₂, space₂, l₂, m₂⟩
    obtain ⟨S₂, L₂, hsub₂, hs₂, hout₂⟩ := L₁.mapArray (by omega) (by omega) (by omega)
      (fun va h1 h2 => hpath.2 va h1 (by omega)) h₂
    rw [h₂] at hr
    cases hr
    refine ⟨S₂, L₂, hsub₁.trans hsub₂, hs₁.trans hs₂, hout₂.imp (fun h => ⟨h.1, ⟨?_, ?_⟩, h.2.2.2.trans hoom₁⟩) id⟩
    · exact fun va h1 h2 => hsub₂ (hall₁ va h1 (by omega))
    · exact fun va h1 h2 => h.2.2.1 va h1 (by omega)
  · have hr' : (rc₁, space₁, l₁, m₁) = (rc, space', l', m') := by
      rw [← hr]
      cases rc₁ <;> first | exact absurd rfl hne | rfl
    cases hr'
    exact ⟨S₁, L₁, hsub₁, hs₁, Or.inr ⟨hne, hoom₁⟩⟩

def Fits (k : Kload) (maxVa ramBytes : Nat) : Prop :=
  k.userRamVa = 0 ∨ imageHi maxVa + tableBytes ramBytes (imageHi maxVa) ≤ k.userRamBytes

theorem Supplied.growToTables (hs : Supplies host) (A : Accepted minVa maxVa ramBytes) (h : Supplied host l)
    (P : Placed maxVa ramBytes l.k) (hblock : l.k.block = []) (hbacked : l.k.backedPages = 0) (m : Mem) :
    ∃ ok l' m', growTo host l.k.tableEnd l m = some (ok, l', m') ∧ Supplied host l' ∧ Grown l l' ∧
      (ok = true → l'.k.backedPages * 4096 = l.k.tableEnd) ∧
      (Fits l.k maxVa ramBytes → ok = true ∧ l'.k.block.length ≤ l.k.tableEnd / 2 ^ 23 + 1) := by
  obtain ⟨hi0, hi, hial, -⟩ := A.imageHi_bounds
  obtain ⟨ht0, ht, htal⟩ := A.tableBytes_bounds
  have hend : l.k.tableEnd % 4096 = 0 ∧ l.k.tableEnd ≤ 2 ^ 32 := by rw [P.stop]; omega
  have hram : pagesUpTo l.k.tableEnd ≤ pagesUpTo (ramEnd maxVa ramBytes) := by
    have := A.ramEnd_bounds.1
    rw [P.stop, pagesUpTo, pagesUpTo]
    exact Nat.div_le_div_right (by omega)
  have hpages : pagesUpTo l.k.tableEnd * 4096 = l.k.tableEnd := by rw [pagesUpTo]; omega
  have hbase : pagesUpTo l.k.tableEnd ≤ l.k.windowBasePages := by rw [P.base]; exact hram
  obtain ⟨ok, l', m', hgrow, h', hg, hle, -, hok⟩ := growTo_supplied hs h m hbase
  rw [hbacked, Nat.max_eq_right (Nat.zero_le _)] at hle
  refine ⟨ok, l', m', hgrow, h', hg, fun ho => ?_, fun hfit => ?_⟩
  · exact Nat.le_antisymm (hpages ▸ Nat.mul_le_mul_right 4096 hle) (hok ho)
  · have hcap := A.capacityPages_eq
    have henough : Enough l.k l.k.tableEnd (l.k.tableEnd / 2 ^ 23 + 1) := by
      rw [Enough, blockLimit, hbacked]
      split <;> split <;> omega
    have hroom : Room l.k l.k.tableEnd (l.k.tableEnd / 2 ^ 23 + 1) := by
      have hblocks : maxBlocks = 16384 := rfl
      refine ⟨by rw [hblock, List.length_nil]; omega, by rw [P.capacity, hcap]; omega, by rw [P.base]; exact hram,
        fun hu => ?_⟩
      rw [hpages, P.stop]
      exact hfit.resolve_left hu
    obtain ⟨l₂, m₂, hgrow₂, -, -, -, hlen, -⟩ := growTo_full hs h m henough hroom
    rw [hgrow] at hgrow₂
    cases hgrow₂
    rw [hblock, List.length_nil, Nat.zero_add] at hlen
    exact ⟨rfl, hlen⟩

theorem Supplied.ready (hs : Supplies host) (A : Accepted minVa maxVa ramBytes) (h : Supplied host l)
    (P : Placed maxVa ramBytes l.k) (htop : l.k.tableTop = l.k.tableEnd)
    (hback : l.k.tableEnd ≤ l.k.backedPages * 4096) : l.Ready := by
  obtain ⟨hi0, hi, hial, -⟩ := A.imageHi_bounds
  obtain ⟨ht0, ht, htal⟩ := A.tableBytes_bounds
  have hstart := P.start
  have hstop := P.stop
  refine ⟨h.translated, fun h0 => ?_, h.blocks, fun p2m hp i hj => h.frames hs hp hj, by omega, by omega, hback,
    by omega⟩
  have hst := h.blocks
  rw [h0] at hst
  simp only [Stacked] at hst
  omega

theorem Supplied.createSpace (hs : Supplies host) (A : Accepted minVa maxVa ramBytes) (h : Supplied host l)
    (P : Placed maxVa ramBytes l.k) (htop : l.k.tableTop = l.k.tableEnd)
    (hback : l.k.tableEnd ≤ l.k.backedPages * 4096) (hoom : l.tableOom = false) (hR : [] ∈ R) (m : Mem) :
    ∃ space l' m' S, Arch.guestSpaceCreate (spaceHost host.osMap) true l m = (.ok space, l', m') ∧
      Loading host R space l' m' S ∧ SameRam l l' ∧ l'.tableOom = false := by
  obtain ⟨hi0, hi, hial, -⟩ := A.imageHi_bounds
  obtain ⟨ht0, ht, htal⟩ := A.tableBytes_bounds
  have hready := h.ready hs A P htop hback
  have hsupply : l.tablesLeft = l.supply := by rw [tablesLeft, supply, htop]
  have hleft : 0 < (budget host.osMap).left l := by
    show 0 < l.tablesLeft
    rw [hsupply, supply, P.start, P.stop]
    omega
  obtain ⟨space, l', m', hcreate, hcount, hsame⟩ := Arch.guestSpaceCreate_counted (F := frameSource host.osMap)
    hready hleft m
  have hr := (spaceHost_respects host.osMap).guestSpaceCreate true l m
  rw [hcreate] at hr
  have hoom' : l'.tableOom = false := by
    rw [← Bool.not_eq_true]
    exact fun ho => by rw [hsame.mp ho] at hoom; cases hoom
  obtain ⟨T, hleaf⟩ := Arch.tree_create (F := frameSource host.osMap) hready hcreate
  have hcount : l'.tablesLeft + space.tables = l.tablesLeft := hcount
  refine ⟨space, l', m', _, hcreate, ⟨h.congr hr.tables.backing hr.tables.requests, T, ?_, ?_, ?_, ?_, ?_, ?_, ?_⟩,
    hr, hoom'⟩
  · rw [hcount, hsupply, hr.tables.supply]
  · intro p hp
    rw [Finset.mem_singleton.mp hp]
    exact hR
  · intro ho
    rw [hoom'] at ho
    cases ho
  · rw [hr.tables.base, P.physBase]
  · rw [hr.tables.start, P.start]
    exact hial
  · exact fun va _ => hleaf va
  · intro va _ _ page hpage
    rw [hleaf] at hpage
    cases hpage

/-- What a successful `co_kload_begin` leaves. `view` is the state with the view the caller offered. -/
structure Begun (host : Host) (R : Finset (List Nat)) (view : Kload) (minVa maxVa ramBytes : Nat) (l : Loader)
    (m : Mem) (S : Shape Nat Nat) : Prop where
  space : ∃ space, l.k.space = some space ∧ Loading host R space l m S
  oom : l.tableOom = false
  arrays : ∀ r ∈ arrayRanges maxVa ramBytes, ∀ va, r.1 ≤ va → va ≤ r.2 → pathTo va 3 ∈ S.nodes
  placed : Placed maxVa ramBytes l.k
  first : l.k.minVa = minVa / 4096 * 4096
  last : l.k.maxVa = ullong (maxVa + 4095) / 4096 * 4096
  userRamVa : l.k.userRamVa = view.userRamVa
  userRamBytes : l.k.userRamBytes = view.userRamBytes
  backed : l.k.backedPages * 4096 = l.k.tableEnd
  blocks : Fits view maxVa ramBytes → l.k.block.length ≤ l.k.tableEnd / 2 ^ 23 + 1

theorem beginArrays_cases (hs : Answers host) (A : Accepted minVa maxVa ramBytes) (hR : [] ∈ R)
    (hpath : ∀ r ∈ arrayRanges maxVa ramBytes, ∀ va, r.1 ≤ va → va ≤ r.2 → ∀ level < 3, pathTo va (level + 1) ∈ R)
    {capacity : Nat} {k₁ : Kload} (halloc : l.k.translationAlloc capacity host.p2mOk host.m2pOk = (.ok, k₁))
    (hsup : Supplied host { l with k := k₁ }) (P : Placed maxVa ramBytes k₁) (hblock : k₁.block = [])
    (hbacked : k₁.backedPages = 0) (htop : k₁.tableTop = k₁.tableEnd) (hoom : l.tableOom = false) (m : Mem) :
    ∃ rc l' m', beginArrays host capacity minVa maxVa l m = some (rc, l', m') ∧
      (rc ≠ .ok ∧ (l'.tableOom = true → tableSupply maxVa ramBytes < R.card) ∧
          (Fits k₁ maxVa ramBytes → l'.tableOom = true) ∨
        rc = .ok ∧ ∃ S, Begun host R k₁ minVa maxVa ramBytes l' m' S) := by
  obtain ⟨ok, l₂, m₂, hgrow, h₂, hg, hback, hfull⟩ := hsup.growToTables hs.toSupplies A P hblock hbacked m
  have P₂ := Placed.grown (l := { l with k := k₁ }) P hg
  have hfields : l₂.k.tableTop = l₂.k.tableEnd ∧ l₂.k.tableEnd = k₁.tableEnd ∧ l₂.k.userRamVa = k₁.userRamVa ∧
      l₂.k.userRamBytes = k₁.userRamBytes := by
    obtain ⟨_, _, _, _, hk⟩ := hg.k
    rw [hk]
    exact ⟨htop, rfl, rfl, rfl⟩
  have hoom₂ : l₂.tableOom = false := hg.oom.trans hoom
  dsimp only at hgrow hback hfull
  simp only [beginArrays, halloc, hgrow, Option.bind_eq_bind, Option.bind_some]
  cases ok with
  | false =>
    refine ⟨_, _, _, rfl, Or.inl ⟨by decide, fun ho => ?_, fun hfit => ?_⟩⟩
    · rw [hoom₂] at ho; cases ho
    · cases (hfull hfit).1
  | true =>
    have hback := hback rfl
    obtain ⟨space₃, l₃, m₃, S₃, hcreate, L₃, hs₃, hoom₃⟩ := h₂.createSpace hs.toSupplies A P₂ hfields.1
      (by rw [hfields.2.1]; exact hback.ge) hoom₂ hR m₂
    have hs₄ : SameRam l₃ { l₃ with k := { l₃.k with space := some space₃ } } := ⟨_, _, _, _, _, _, rfl⟩
    rcases hmap : mapTranslationPages host space₃ { l₃ with k := { l₃.k with space := some space₃ } } m₃ with
      ⟨rc₅, space₅, l₅, m₅⟩
    obtain ⟨S₅, L₅, hsub, hs₅, hout⟩ := (L₃.congr hs₄.tables rfl rfl).mapTranslationPages A
      ((P₂.sameRam hs₃).sameRam hs₄) hpath hmap
    have hs₂₅ := hs₃.trans (hs₄.trans hs₅)
    have P₅ := P₂.sameRam hs₂₅
    simp only [if_true, hs.malloc, hcreate, hmap]
    rcases hout with ⟨rfl, harrays, hoom₅⟩ | ⟨hne, hoom₅⟩
    · have hw := A.word
      have hmin : minVa &&& Arch.pageMask = minVa / 4096 * 4096 :=
        Arch.and_pageMask (A.range.trans hw)
      have hmax : ullong (maxVa + Arch.pageSize - 1) &&& Arch.pageMask = ullong (maxVa + 4095) / 4096 * 4096 :=
        Arch.and_pageMask (Nat.mod_lt _ (by decide))
      refine ⟨_, _, _, rfl, Or.inr ⟨rfl, S₅, ⟨space₅, rfl, ?_⟩, hoom₅.trans hoom₃, harrays, ?_, hmin, hmax, ?_, ?_,
        ?_, ?_⟩⟩
      · refine L₅.congr ⟨?_, rfl, rfl, rfl, rfl⟩ rfl rfl
        constructor <;> rfl
      · exact { P₅ with }
      all_goals
        obtain ⟨_, _, _, _, _, _, rfl⟩ := hs₂₅
      · exact hfields.2.2.1
      · exact hfields.2.2.2
      · exact hback.trans hfields.2.1.symm
      · intro hfit
        have := (hfull hfit).2
        rw [← hfields.2.1] at this
        exact this
    · have hshort : tableSupply maxVa ramBytes < R.card := by
        have := L₅.oom hoom₅
        rw [supply, P₅.start, P₅.stop, Nat.add_sub_cancel_left] at this
        exact this
      cases rc₅ <;> first | exact absurd rfl hne | skip
      all_goals
        exact ⟨_, _, _, rfl, Or.inl ⟨hne, fun _ => hshort, fun _ => hoom₅⟩⟩

theorem Begun.of_view {k₁ view : Kload} (h : Begun host R k₁ minVa maxVa ramBytes l m S)
    (hva : k₁.userRamVa = view.userRamVa) (hbytes : k₁.userRamBytes = view.userRamBytes) :
    Begun host R view minVa maxVa ramBytes l m S := by
  have hfits : Fits view maxVa ramBytes → Fits k₁ maxVa ramBytes := by
    rw [Fits, Fits, hva, hbytes]
    exact id
  exact ⟨h.space, h.oom, h.arrays, h.placed, h.first, h.last, h.userRamVa.trans hva, h.userRamBytes.trans hbytes,
    h.backed, fun hfit => h.blocks (hfits hfit)⟩

theorem begin_cases (hs : Answers host) (hidle : Idle l) (hacc : ¬ BeginRefused minVa maxVa ramBytes)
    (A : Accepted minVa maxVa ramBytes) (hR : [] ∈ R)
    (hpath : ∀ r ∈ arrayRanges maxVa ramBytes, ∀ va, r.1 ≤ va → va ≤ r.2 → ∀ level < 3, pathTo va (level + 1) ∈ R)
    (puts ramUserVa ramUserBytes : Nat) (m : Mem) :
    ∃ rc l' m', begin host puts minVa maxVa ramBytes ramUserVa ramUserBytes l m = some (rc, l', m') ∧
      (rc ≠ .ok ∧ (l'.tableOom = true → tableSupply maxVa ramBytes < R.card) ∧
          (Fits (l.k.free.withView ramUserVa ramUserBytes) maxVa ramBytes → l'.tableOom = true) ∨
        rc = .ok ∧
          ∃ S, Begun host R (l.k.free.withView ramUserVa ramUserBytes) minVa maxVa ramBytes l' m' S) := by
  have hblock : (l.k.free.withView ramUserVa ramUserBytes).block = [] := by
    rw [withView]; split <;> exact hidle.block
  have hbacked : (l.k.free.withView ramUserVa ramUserBytes).backedPages = 0 := by
    rw [withView]; split <;> exact hidle.backed
  simp only [Loader.begin, waitForDeferredFree, hidle.pending, Bool.false_eq_true, if_false, if_neg hacc]
  generalize l.k.free.withView ramUserVa ramUserBytes = view at *
  obtain ⟨h0, hcap⟩ := A.capacityPages_bounds
  have halloc : (view.withLayout maxVa ramBytes).translationAlloc (capacityPages maxVa ramBytes) host.p2mOk host.m2pOk
      = (.ok, (view.withLayout maxVa ramBytes).withArrays (capacityPages maxVa ramBytes)) := by
    rw [hs.p2m, hs.m2p]
    exact translationAlloc_eq h0 hcap _
  have hsup : Supplied host { l with
      k := (view.withLayout maxVa ramBytes).withArrays (capacityPages maxVa ramBytes) } :=
    translationAlloc_supplied A hblock hbacked hidle.requests
  obtain ⟨rc, l', m', hr, hout⟩ := beginArrays_cases (l := { l with k := view.withLayout maxVa ramBytes }) hs A hR
    hpath halloc hsup (Accepted.placed A view)
    (by rw [withArrays_block, withLayout_block, hblock])
    (by rw [withArrays_backedPages, withLayout_backedPages, hbacked])
    (by rw [withArrays_tableTop, withArrays_tableEnd, withLayout_tableTop]) hidle.oom m
  have hva : ((view.withLayout maxVa ramBytes).withArrays (capacityPages maxVa ramBytes)).userRamVa
      = view.userRamVa := by
    rw [withArrays_userRamVa, withLayout_userRamVa]
  have hbytes : ((view.withLayout maxVa ramBytes).withArrays (capacityPages maxVa ramBytes)).userRamBytes
      = view.userRamBytes := by
    rw [withArrays_userRamBytes, withLayout_userRamBytes]
  refine ⟨rc, l', m', hr, hout.imp (fun h => ⟨h.1, h.2.1, fun hfit => h.2.2 ?_⟩)
    fun h => ⟨h.1, h.2.choose, h.2.choose_spec.of_view hva hbytes⟩⟩
  rw [Fits, hva, hbytes]
  exact hfit

/-- `co_kload_begin` succeeds when the view, if there is one, is large enough: the region has room for the tables
of the two arrays. -/
theorem begin_ok (hs : Answers host) (hidle : Idle l) (hacc : ¬ BeginRefused minVa maxVa ramBytes)
    (A : Accepted minVa maxVa ramBytes) {ramUserVa ramUserBytes : Nat}
    (hfit : Fits (l.k.free.withView ramUserVa ramUserBytes) maxVa ramBytes) (puts : Nat) (m : Mem) :
    ∃ l' m' S, begin host puts minVa maxVa ramBytes ramUserVa ramUserBytes l m = some (.ok, l', m') ∧
      Begun host (Arch.rangeNodes (arrayRanges maxVa ramBytes)) (l.k.free.withView ramUserVa ramUserBytes) minVa
        maxVa ramBytes l' m' S := by
  obtain ⟨rc, l', m', hbegin, ⟨-, hoom, hfull⟩ | ⟨rfl, S, hbegun⟩⟩ := begin_cases
    (R := Arch.rangeNodes (arrayRanges maxVa ramBytes)) hs hidle hacc A (Finset.mem_insert_self _ _)
    (fun r hr va h1 h2 level hl => Arch.mem_rangeNodes hr h1 h2 hl) puts ramUserVa ramUserBytes m
  · have hless := hoom (hfull hfit)
    have hcard := A.card_arrayRanges
    have ht := A.tableBytes_bounds
    rw [tableSupply] at hless
    omega
  · exact ⟨l', m', S, hbegin, hbegun⟩

/-! ## `co_kload_build_ram` -/

theorem Placed.desiredEnd_eq (A : Accepted minVa maxVa ramBytes) {k : Kload} (P : Placed maxVa ramBytes k) :
    desiredEnd k ramBytes = ramEnd maxVa ramBytes := by
  have hb := A.ramEnd_bounds.2
  rw [ramEnd] at hb
  rw [desiredEnd, ramEnd, P.start, P.stop]
  generalize imageHi maxVa = image at *
  generalize tableBytes ramBytes image = tables at *
  split
  · rw [ullong_of_lt] <;> omega
  · omega

theorem ramStart_tables (l : Loader) (ramBytes textVa endVa : Nat) :
    SameTables l (ramStart l ramBytes textVa endVa) := by
  refine ⟨?_, rfl, rfl, rfl, rfl⟩
  constructor <;> rfl

theorem Placed.ramStart (h : Placed maxVa ramBytes l.k) (textVa endVa : Nat) :
    Placed maxVa ramBytes (Loader.ramStart l ramBytes textVa endVa).k :=
  { h with }

structure RamArgs (l : Loader) (ramBytes textVa endVa : Nat) : Prop where
  text : kernelMap ≤ textVa
  range : textVa < endVa
  phys : (l.kvaPa endVa + Arch.pageSize - 1) &&& Arch.pageMask ≤ l.k.tableStart
  capacity : desiredEnd l.k ramBytes >>> 12 ≤ l.k.p2mCapacity

theorem Placed.ramArgs (A : Accepted minVa maxVa ramBytes) (P : Placed maxVa ramBytes l.k) {textVa endVa : Nat}
    (htext : kernelMap ≤ textVa) (hrange : textVa < endVa) (hend : endVa ≤ maxVa) :
    RamArgs l ramBytes textVa endVa := by
  have hsize : endVa - kernelMap ≤ maxVa - kernelMap := Nat.sub_le_sub_right hend _
  have hword : maxVa - kernelMap < 2 ^ 32 := by
    have := A.word
    have := kernelMap_eq
    omega
  refine ⟨htext, hrange, ?_, ?_⟩
  · rw [P.start, A.imageHi_eq, pagesUpTo, kvaPa, P.physBase, Nat.add_zero, Arch.pageSize]
    generalize endVa - kernelMap = size at *
    generalize maxVa - kernelMap = limit at *
    rw [Arch.and_pageMask (by omega)]
    omega
  · rw [P.desiredEnd_eq A, P.capacity, A.capacityPages_eq, Nat.shiftRight_eq_div_pow, pagesUpTo]
    generalize ramEnd maxVa ramBytes = stop
    omega

theorem RamArgs.buildRam_eq {textVa endVa : Nat} (ha : RamArgs l ramBytes textVa endVa)
    (hsp : l.k.space = some space) (hblock : l.k.block ≠ []) (m : Mem) :
    buildRam host ramBytes textVa endVa l m =
      mapRam host space (desiredEnd l.k ramBytes) (ramStart l ramBytes textVa endVa) m := by
  have hlen : l.k.block.length ≠ 0 := fun h0 => hblock (List.length_eq_zero_iff.mp h0)
  have hargs : ¬ (textVa < kernelMap ∨ endVa ≤ textVa) := by
    have := ha.text
    have := ha.range
    omega
  simp only [buildRam, hsp, if_neg hlen, if_neg hargs, if_neg (Nat.not_lt.mpr ha.phys),
    if_neg (Nat.not_lt.mpr ha.capacity)]

theorem buildRam_refused {textVa endVa : Nat} (hsp : l.k.space = some space) (hblock : l.k.block ≠ [])
    (ha : ¬ RamArgs l ramBytes textVa endVa) (m : Mem) :
    ∃ rc l', buildRam host ramBytes textVa endVa l m = some (rc, l', m) ∧ l'.tableOom = l.tableOom := by
  have hlen : l.k.block.length ≠ 0 := fun h0 => hblock (List.length_eq_zero_iff.mp h0)
  simp only [buildRam, hsp, if_neg hlen]
  split
  · exact ⟨_, _, rfl, rfl⟩
  next hargs =>
    split
    · exact ⟨_, _, rfl, rfl⟩
    next hphys =>
      split
      · exact ⟨_, _, rfl, rfl⟩
      next hcap =>
        exact absurd ⟨by omega, by omega, Nat.not_lt.mp hphys, Nat.not_lt.mp hcap⟩ ha

theorem Loading.mapRam {l₁ : Loader} {m₁ : Mem} (L : Loading host R space l₁ m₁ S) {target : Nat} {ok : Bool}
    (hgrow : growTo host target l m = some (ok, l₁, m₁)) (hle : l₁.k.backedPages ≤ 2 ^ 26)
    (hpath : ∀ va, directMap ≤ va → va < directMap + l₁.k.backedPages * 4096 → ∀ level < 3, pathTo va (level + 1) ∈ R) :
    ∃ rc l' m' space' S', mapRam host space target l m = some (rc, l', m') ∧ Loading host R space' l' m' S' ∧
      S.nodes ⊆ S'.nodes ∧ SameTables l₁ l' ∧ (l₁.tableOom = true → l'.tableOom = true) ∧
      (l'.tableOom = true ∨ ∀ va, directMap ≤ va → va < directMap + l₁.k.backedPages * 4096 →
        pathTo va 3 ∈ S'.nodes) := by
  obtain ⟨p2m, m2p, hp, -, -⟩ := L.supplied.translated.arrays
  have hd : directMap = 2 ^ 64 - 2 ^ 47 + 2 ^ 39 * 17 := by decide
  have hkernel := kernelMap_eq
  rcases hmap : Loader.mapRange host (fun i => directMap + i <<< 12) (fun i => ullong (p2m i <<< 12)) dataFlags
    l₁.k.backedPages space l₁ m₁ with ⟨rc, done, space₂, l₂, m₂⟩
  obtain ⟨S₂, L₂, hsub, hs₂, hout⟩ := L.mapArray (by omega) (by omega) (by omega) hpath hmap
  have hs₃ : ∀ ready, SameTables l₂ { l₂ with k := { l₂.k with
      space := some space₂, ramPages := done, ramReady := ready } } := fun ready => by
    refine ⟨?_, rfl, rfl, rfl, rfl⟩
    constructor <;> rfl
  have hrun : Loader.mapRam host space target l m = some (rc, { l₂ with k := { l₂.k with
      space := some space₂, ramPages := done, ramReady := decide (rc = .ok) } }, m₂) := by
    simp only [Loader.mapRam, hgrow, Option.bind_eq_bind, Option.bind_some, hp, hmap]
    rfl
  refine ⟨_, _, _, space₂, S₂, hrun, L₂.congr (hs₃ _) rfl rfl, hsub, hs₂.tables.trans (hs₃ _), ?_, ?_⟩
  · rcases hout with ⟨-, -, -, hoom⟩ | ⟨-, hoom⟩
    · exact fun h => hoom.trans h
    · exact fun _ => hoom
  · exact hout.symm.imp (fun h => h.2) fun h => h.2.2.1

end MoCoLinux.Loader
