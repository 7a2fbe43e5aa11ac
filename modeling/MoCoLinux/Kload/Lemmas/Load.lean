import MoCoLinux.Arch.Lemmas.Budget
import MoCoLinux.Arch.Lemmas.Host
import MoCoLinux.Arch.Lemmas.Lookup
import MoCoLinux.Kload.Lemmas.Grow

/-!
# Page tables during a load

Everything but growing leaves the RAM of the loader alone (`SameRam`). `Loading` is the invariant of a load:
the tables form a tree whose nodes are among the tables `R` the load may ask for, and the tables in use and
those left add up to the reserved region. So the region runs out exactly when `R` is larger.
-/

namespace MoCoLinux

open Arch (Mem GuestSpace guestSpaceCreate guestMap guestLookup Tree Budget pathTo leafPage vaCanonical kernelMap
  isPresent entryPa leafEntry kernpgTable)
open RadixTree (Shape)

namespace Loader

open Kload

variable {host : Host} {l l' l'' : Loader} {m m' : Mem} {S : Shape Nat Nat} {R : Finset (List Nat)}
variable {space : GuestSpace} {va pa flags : Nat}

/-! ## What mapping and loading leave alone -/

structure SameTop (l l' : Loader) : Prop where
  eq : ∃ hit top oom, l' =
    { l with k := { l.k with lastHit := hit, tableTop := top }, tableOom := oom }

theorem SameTop.refl (l : Loader) : SameTop l l := ⟨_, _, _, rfl⟩

theorem SameTop.trans (h : SameTop l l') (h' : SameTop l' l'') : SameTop l l'' := by
  obtain ⟨a, b, c, rfl⟩ := h
  obtain ⟨a', b', c', rfl⟩ := h'
  exact ⟨a', b', c', rfl⟩

theorem tableFrame_sameTop (l : Loader) (m : Mem) : SameTop l (tableFrame l m).2.1 := by
  rw [tableFrame]
  split
  · exact SameTop.refl l
  · split
    · exact ⟨_, _, _, rfl⟩
    · dsimp only
      split
      · exact ⟨_, _, _, rfl⟩
      next mfn _ =>
        obtain ⟨hit, hk⟩ := pseudoFrameVa_snd { l.k with tableTop := l.k.tableTop - Arch.pageSize }
          ((l.k.tableTop - Arch.pageSize) >>> 12)
        split <;> exact ⟨_, _, _, by rw [hk]⟩

theorem spaceHost_sameTop (osMap : Nat → Bool) : (spaceHost osMap).Respects SameTop where
  refl := SameTop.refl
  trans := SameTop.trans
  newTable l m := tableFrame_sameTop l m
  map l pfn := by
    obtain ⟨hit, hk⟩ := l.map_snd osMap pfn
    rw [hk]
    exact ⟨_, _, _, rfl⟩
  putPage l _ := SameTop.refl l

theorem mapRange_sameTop (host : Host) (vaOf paOf : Nat → Nat) (flags n : Nat) (space : GuestSpace)
    (l : Loader) (m : Mem) : SameTop l (mapRange host vaOf paOf flags n space l m).2.2.2.1 := by
  induction n with
  | zero => exact SameTop.refl l
  | succ n ih =>
    rw [mapRange]
    split
    next done space₁ l₁ m₁ he =>
      rw [he] at ih
      have hmap := (spaceHost_sameTop host.osMap).guestMap space₁ (vaOf n) (paOf n) flags l₁ m₁
      split <;> next he₂ => rw [he₂] at hmap; exact ih.trans hmap
    · exact ih

theorem mapTranslationPages_sameTop (host : Host) (space : GuestSpace) (l : Loader) (m : Mem) :
    SameTop l (mapTranslationPages host space l m).2.2.1 := by
  have h₁ := mapRange_sameTop host (fun i => p2mVa + i <<< 12) host.p2mPa dataFlags l.k.p2mAllocPages space l m
  rw [mapTranslationPages]
  split
  next done space₁ l₁ m₁ he =>
    rw [he] at h₁
    exact h₁.trans (mapRange_sameTop host (fun i => m2pVa + i <<< 12) host.m2pPa dataFlags l₁.k.m2pAllocPages
      space₁ l₁ m₁)
  next he => rw [he] at h₁; exact h₁

structure SameRam (l l' : Loader) : Prop where
  eq : ∃ space hit top pages chunks oom, l' =
    { l with
      k := { l.k with space := space, lastHit := hit, tableTop := top, pages := pages, chunks := chunks }
      tableOom := oom }

theorem SameRam.refl (l : Loader) : SameRam l l := ⟨_, _, _, _, _, _, rfl⟩

theorem SameRam.trans (h : SameRam l l') (h' : SameRam l' l'') : SameRam l l'' := by
  obtain ⟨s, a, b, c, d, e, rfl⟩ := h
  obtain ⟨s', a', b', c', d', e', rfl⟩ := h'
  exact ⟨s', a', b', c', d', e', rfl⟩

theorem SameTop.sameRam (h : SameTop l l') : SameRam l l' := by
  obtain ⟨hit, top, oom, rfl⟩ := h
  exact ⟨_, hit, top, _, _, oom, rfl⟩

theorem spaceHost_respects (osMap : Nat → Bool) : (spaceHost osMap).Respects SameRam where
  refl := SameRam.refl
  trans := SameRam.trans
  newTable l m := (tableFrame_sameTop l m).sameRam
  map l pfn := ((spaceHost_sameTop osMap).map l pfn).sameRam
  putPage l _ := SameRam.refl l

theorem Supplied.congr (h : Supplied host l) (hs : SameBacking l.k l'.k) (hreq : l'.requests = l.requests) :
    Supplied host l' := by
  refine ⟨hs.translated h.translated, ?_, ?_, ?_, ?_⟩
  · rw [hs.block, hs.backed]; exact h.blocks
  · rw [hreq, hs.block]; exact h.requests
  · rw [hs.block]; exact h.length
  · rw [hs.p2m, hs.backed, hreq]; exact h.origin

/-! ## The reserved region as a budget -/

def tablesLeft (l : Loader) : Nat := (l.k.tableTop - l.k.tableStart) / 4096

def supply (l : Loader) : Nat := (l.k.tableEnd - l.k.tableStart) / 4096

theorem TableFrame.map_ok (h : l.Ready) {q : Nat} (hq : l.TableFrame q) (osMap : Nat → Bool) :
    ((spaceHost osMap).map l q).1 = true := by
  obtain ⟨p2m, i, hp, -, hend, rfl⟩ := hq
  have hback := h.backed
  obtain ⟨va, hit, hva, heq⟩ := h.frameVa_eq hp (show i < l.k.backedPages by omega)
  simp [spaceHost, heq, hva]

def budget (osMap : Nat → Bool) : Budget (frameSource osMap) where
  left := tablesLeft
  failed l := l.tableOom = true
  map_ok h hq := TableFrame.map_ok h hq osMap
  map_left l q := by
    obtain ⟨hit, heq⟩ := l.map_snd osMap q
    rw [heq]
    rfl
  map_failed l q := by
    obtain ⟨hit, heq⟩ := l.map_snd osMap q
    rw [heq]
  newTable_ok {l m pfn l' m'} h hnew := by
    have hnew : tableFrame l m = (.ok pfn, l', m') := hnew
    rcases h.tableFrame_cases m with ⟨-, heq⟩ | ⟨p2m, hit, hp, hroom, heq⟩
    · rw [heq] at hnew; simp at hnew
    · rw [heq, Prod.mk.injEq, Prod.mk.injEq, Except.ok.injEq] at hnew
      obtain ⟨-, rfl, -⟩ := hnew
      refine ⟨?_, Iff.rfl⟩
      simp only [tablesLeft]
      omega
  newTable_error {l m rc l' m'} h hnew := by
    have hnew : tableFrame l m = (.error rc, l', m') := hnew
    rcases h.tableFrame_cases m with ⟨hroom, heq⟩ | ⟨p2m, hit, hp, hroom, heq⟩
    · rw [heq, Prod.mk.injEq, Prod.mk.injEq, Except.error.injEq] at hnew
      obtain ⟨-, rfl, -⟩ := hnew
      refine ⟨?_, ?_, rfl⟩ <;> simp only [tablesLeft] <;> omega
    · rw [heq] at hnew; simp at hnew

/-! ## The invariant of a load -/

def ImageFrame (l : Loader) (q : Nat) : Prop :=
  ∃ p2m i, l.k.p2m = some p2m ∧ (i + 1) * 4096 ≤ l.k.tableStart ∧ p2m i = q

/-- The tables of a load that asks for tables in `R` only. -/
structure Loading (host : Host) (R : Finset (List Nat)) (space : GuestSpace) (l : Loader) (m : Mem)
    (S : Shape Nat Nat) : Prop where
  supplied : Supplied host l
  tree : Tree (frameSource host.osMap) space l m S
  count : l.tablesLeft + space.tables = l.supply
  nodes : S.nodes ⊆ R
  oom : l.tableOom = true → l.supply < R.card
  base : l.k.physBase = 0
  aligned : l.k.tableStart % 4096 = 0
  /-- Nothing is mapped in the lower half. -/
  low : ∀ va < 2 ^ 47, leafPage S m va = none
  /-- The leaves of the image name frames of the image. -/
  image : ∀ va, kernelMap ≤ va → va < 2 ^ 64 → ∀ page, leafPage S m va = some page →
    ∃ q, l.ImageFrame q ∧ page = q * 4096

structure SameTables (l l' : Loader) : Prop where
  backing : SameBacking l.k l'.k
  requests : l'.requests = l.requests
  start : l'.k.tableStart = l.k.tableStart
  stop : l'.k.tableEnd = l.k.tableEnd
  base : l'.k.physBase = l.k.physBase

theorem SameRam.tables (h : SameRam l l') : SameTables l l' := by
  obtain ⟨s, a, b, c, d, e, rfl⟩ := h
  refine ⟨?_, rfl, rfl, rfl, rfl⟩
  constructor <;> rfl

theorem SameTables.trans (h : SameTables l l') (h' : SameTables l' l'') : SameTables l l'' where
  backing := h.backing.trans h'.backing
  requests := h'.requests.trans h.requests
  start := h'.start.trans h.start
  stop := h'.stop.trans h.stop
  base := h'.base.trans h.base

theorem SameTables.supply (h : SameTables l l') : l'.supply = l.supply := by
  rw [Loader.supply, Loader.supply, h.start, h.stop]

theorem ImageFrame.congr {q : Nat} (h : l.ImageFrame q) (hs : SameTables l l') : l'.ImageFrame q := by
  obtain ⟨p2m, i, hp, hi, hq⟩ := h
  exact ⟨p2m, i, hs.backing.p2m.trans hp, hs.start ▸ hi, hq⟩

theorem Loading.congr (L : Loading host R space l m S) (hs : SameTables l l')
    (htop : l'.k.tableTop = l.k.tableTop) (hoom : l'.tableOom = l.tableOom) : Loading host R space l' m S := by
  have hleft : l'.tablesLeft = l.tablesLeft := by rw [tablesLeft, tablesLeft, hs.start, htop]
  refine ⟨L.supplied.congr hs.backing hs.requests, ?_, ?_, L.nodes, ?_, hs.base.trans L.base, hs.start ▸ L.aligned,
    L.low, fun va hk hv page hpage => ?_⟩
  · exact L.tree.congr (L.tree.inv.congr hs.backing hs.start hs.stop htop) fun q hq =>
      ⟨hq.congr hs.backing.p2m htop.le hs.stop, rfl⟩
  · rw [hleft, hs.supply]; exact L.count
  · rw [hoom, hs.supply]; exact L.oom
  · obtain ⟨q, hq, he⟩ := L.image va hk hv page hpage
    exact ⟨q, hq.congr hs, he⟩

theorem leafPage_congr (hm : ∀ p ∈ S.nodes, m' (S.addr p) = m (S.addr p)) (va : Nat) :
    leafPage S m' va = leafPage S m va := by
  rw [leafPage, leafPage, Shape.get_congr hm]

theorem Loading.image_ne (L : Loading host R space l m S) {q : Nat} (hq : l.ImageFrame q) {a : Nat}
    (ha : l.TableFrame a) : a ≠ q := by
  obtain ⟨p2m, i, hp, hi, rfl⟩ := hq
  obtain ⟨p2m', j, hp', hj, hend, rfl⟩ := ha
  rw [hp, Option.some.injEq] at hp'
  subst hp'
  have hback := L.tree.inv.backed
  have hstart := L.tree.inv.start
  obtain ⟨-, m2p, -, hm2p, -⟩ := L.supplied.translated.arrays
  intro he
  have := (L.supplied.translated.mirror _ m2p hp hm2p).inj j (by omega) i (by omega) he
  omega

theorem Loading.write (L : Loading host R space l m S) {q : Nat} (hq : l.ImageFrame q)
    (hm : ∀ a, a ≠ q → m' a = m a) : Loading host R space l m' S := by
  have hsame : ∀ p ∈ S.nodes, m' (S.addr p) = m (S.addr p) := fun p hp =>
    hm _ (L.image_ne hq (L.tree.used p hp))
  refine ⟨L.supplied, L.tree.congr L.tree.inv fun a ha => ⟨ha, hm a (L.image_ne hq ha)⟩, L.count, L.nodes, L.oom,
    L.base, L.aligned, fun va hva => ?_, fun va hk hv page hpage => ?_⟩
  · rw [leafPage_congr hsame]; exact L.low va hva
  · rw [leafPage_congr hsame] at hpage; exact L.image va hk hv page hpage

/-! ## Maps and lookups -/

theorem vaCanonical_high (h47 : 2 ^ 64 - 2 ^ 47 ≤ va) (h64 : va < 2 ^ 64) : vaCanonical va = true := by
  rw [Arch.vaCanonical_iff]; omega

theorem vaCanonical_low (h : va < 2 ^ 47) : vaCanonical va = true := by
  rw [Arch.vaCanonical_iff]; omega

section

variable (L : Loading host R space l m S)
include L

theorem Loading.guestMap (h47 : 2 ^ 64 - 2 ^ 47 ≤ va) (h64 : va < 2 ^ 64)
    (hpath : ∀ level < 3, pathTo va (level + 1) ∈ R) (hflags : isPresent flags = true)
    (himage : kernelMap ≤ va → ∃ q, l.ImageFrame q ∧ entryPa (leafEntry pa flags) = q * 4096) {rc space' l' m'}
    (hr : guestMap (spaceHost host.osMap) space va pa flags l m = (rc, space', l', m')) :
    ∃ S', Loading host R space' l' m' S' ∧ S.nodes ⊆ S'.nodes ∧ SameRam l l' ∧
      (rc = .ok ∧ pathTo va 3 ∈ S'.nodes ∧ l'.tableOom = l.tableOom ∨ rc ≠ .ok ∧ l'.tableOom = true) := by
  have hva := vaCanonical_high h47 h64
  obtain ⟨S', M⟩ := Arch.guestMap_mapped va L.tree (Arch.isPresent_leafEntry pa hflags)
  have C : Arch.Counted (budget host.osMap) R space l
      (Arch.guestMap (spaceHost host.osMap) space va pa flags l m) :=
    Arch.guestMap_counted L.tree L.nodes hva hpath
  have hs := (spaceHost_respects host.osMap).guestMap space va pa flags l m
  rw [hr] at M C hs
  have ht := hs.tables
  have hsupply := ht.supply
  have hcount : l'.tablesLeft + space'.tables = l.supply := (C.total).trans L.count
  -- the leaf of another page is the one before
  have hleaf : ∀ va', vaCanonical va' = true → va' / 4096 ≠ va / 4096 → leafPage S' m' va' = leafPage S m va' := by
    intro va' hva' hne
    rw [leafPage, leafPage, M.get _ (Arch.length_pathTo va' 3),
      if_neg fun hc => hne ((Arch.page_eq_iff hva' hva).mp hc.2)]
  have hkernel : kernelMap = 2 ^ 64 - 2 ^ 31 := by decide
  refine ⟨S', ⟨L.supplied.congr ht.backing ht.requests, M.tree, by rw [hsupply]; exact hcount, fun p hp => ?_,
    fun hoom => ?_, ht.base.trans L.base, ht.start ▸ L.aligned, fun va' hv => ?_, fun va' hk hv page hpage => ?_⟩,
    M.subset, hs, ?_⟩
  · rcases M.path p hp with hp | ⟨level, hlt, rfl⟩
    · exact L.nodes hp
    · exact hpath level hlt
  · rw [hsupply]
    rcases C.outcome with ⟨-, hsame⟩ | ⟨-, -, hnone, hlt⟩
    · exact L.oom (hsame.mp hoom)
    · have hnone : l'.tablesLeft = 0 := hnone
      dsimp only at hlt
      omega
  · rw [hleaf va' (vaCanonical_low hv) (by omega)]
    exact L.low va' hv
  · by_cases hpage' : va' / 4096 = va / 4096
    · obtain ⟨q, hq, he⟩ := himage (by omega)
      rw [leafPage, M.get _ (Arch.length_pathTo va' 3)] at hpage
      by_cases hok : rc = .ok
      · rw [if_pos ⟨hok, (Arch.page_eq_iff (vaCanonical_high (by omega) hv) hva).mpr hpage'⟩, Option.map_some,
          Option.some.injEq, he] at hpage
        exact ⟨q, hq.congr ht, hpage.symm⟩
      · rw [if_neg fun hc => hok hc.1] at hpage
        obtain ⟨q', hq', he'⟩ := L.image va' hk hv page hpage
        exact ⟨q', hq'.congr ht, he'⟩
    · rw [hleaf va' (vaCanonical_high (by omega) hv) hpage'] at hpage
      obtain ⟨q, hq, he⟩ := L.image va' hk hv page hpage
      exact ⟨q, hq.congr ht, he⟩
  · rcases C.outcome with ⟨hok, hsame⟩ | ⟨hne, hoom, -⟩
    · exact Or.inl ⟨hok, M.done hok, Bool.eq_iff_iff.mpr hsame⟩
    · exact Or.inr ⟨hne, hoom⟩

theorem Loading.mapRange {vaOf paOf : Nat → Nat} {n : Nat}
    (h47 : ∀ i < n, 2 ^ 64 - 2 ^ 47 ≤ vaOf i) (hk : ∀ i < n, vaOf i < kernelMap)
    (hpath : ∀ i < n, ∀ level < 3, pathTo (vaOf i) (level + 1) ∈ R) (hflags : isPresent flags = true) :
    ∀ {rc done space' l' m'}, mapRange host vaOf paOf flags n space l m = (rc, done, space', l', m') →
    ∃ S', Loading host R space' l' m' S' ∧ S.nodes ⊆ S'.nodes ∧ SameRam l l' ∧
      (rc = .ok ∧ done = n ∧ (∀ i < n, pathTo (vaOf i) 3 ∈ S'.nodes) ∧ l'.tableOom = l.tableOom ∨
        rc ≠ .ok ∧ l'.tableOom = true) := by
  induction n with
  | zero =>
    intro rc done space' l' m' hr
    cases hr
    exact ⟨S, L, Finset.Subset.refl _, SameRam.refl _, Or.inl ⟨rfl, rfl, fun i hi => by omega, rfl⟩⟩
  | succ n ih =>
    intro rc done space' l' m' hr
    rcases hprev : Loader.mapRange host vaOf paOf flags n space l m with ⟨rc₁, done₁, space₁, l₁, m₁⟩
    obtain ⟨S₁, L₁, hsub₁, hs₁, hout₁⟩ := ih (fun i hi => h47 i (by omega)) (fun i hi => hk i (by omega))
      (fun i hi => hpath i (by omega)) hprev
    rcases hout₁ with ⟨rfl, rfl, hmem₁, hoom₁⟩ | ⟨hne, hoom₁⟩
    · rcases hmap : Arch.guestMap (spaceHost host.osMap) space₁ (vaOf done₁) (paOf done₁) flags l₁ m₁ with
        ⟨rc₂, space₂, l₂, m₂⟩
      have hlast := hk done₁ (by omega)
      obtain ⟨S₂, L₂, hsub₂, hs₂, hout₂⟩ := L₁.guestMap (h47 done₁ (by omega))
        (hlast.trans (by decide)) (hpath done₁ (by omega)) hflags (fun hge => absurd hlast (by omega)) hmap
      simp only [Loader.mapRange, hprev, hmap] at hr
      rcases hout₂ with ⟨rfl, hmem₂, hoom₂⟩ | ⟨hne, hoom₂⟩
      · cases hr
        refine ⟨S₂, L₂, hsub₁.trans hsub₂, hs₁.trans hs₂, Or.inl ⟨rfl, rfl, fun i hi => ?_, hoom₂.trans hoom₁⟩⟩
        rcases Nat.lt_succ_iff_lt_or_eq.mp hi with hlt | rfl
        · exact hsub₂ (hmem₁ i hlt)
        · exact hmem₂
      · cases rc₂ <;> first | exact absurd rfl hne | cases hr
        all_goals exact ⟨S₂, L₂, hsub₁.trans hsub₂, hs₁.trans hs₂, Or.inr ⟨hne, hoom₂⟩⟩
    · have hr' : (rc₁, done₁, space₁, l₁, m₁) = (rc, done, space', l', m') := by
        rw [← hr, Loader.mapRange, hprev]
        cases rc₁ <;> first | exact absurd rfl hne | rfl
      cases hr'
      exact ⟨S₁, L₁, hsub₁, hs₁, Or.inr ⟨hne, hoom₁⟩⟩

theorem Loading.guestLookup (hva : vaCanonical va = true) :
    (guestLookup (spaceHost host.osMap) space va l m).1.Finds (leafPage S m va) ∧
      ∃ hit, (guestLookup (spaceHost host.osMap) space va l m).2 = { l with k := { l.k with lastHit := hit } } := by
  refine Arch.guestLookupRoot_finds (P := fun l' => ∃ hit, l' = { l with k := { l.k with lastHit := hit } }) L.tree
    ?_ hva ⟨l.k.lastHit, rfl⟩
  rintro _ p ⟨hit, rfl⟩ hp
  have L' : Loading host R space { l with k := { l.k with lastHit := hit } } m S :=
    L.congr (SameRam.tables ⟨_, _, _, _, _, _, rfl⟩) rfl rfl
  refine ⟨TableFrame.map_ok L'.tree.inv (L'.tree.used p hp) host.osMap, ?_⟩
  obtain ⟨hit', heq⟩ := map_snd { l with k := { l.k with lastHit := hit } } host.osMap (S.addr p)
  exact ⟨hit', heq⟩

/-! ## Loading the image -/

theorem Loading.imageFrame {i : Nat} (hi : (i + 1) * 4096 ≤ l.k.tableStart) :
    ∃ p2m, l.k.p2m = some p2m ∧ l.ImageFrame (p2m i) ∧ i < l.k.backedPages ∧ p2m i < 2 ^ 40 := by
  obtain ⟨p2m, m2p, hp, -, -⟩ := L.supplied.translated.arrays
  have hstart := L.tree.inv.start
  have htop := L.tree.inv.top
  have hback := L.tree.inv.backed
  have hlt : i < l.k.backedPages := by omega
  exact ⟨p2m, hp, ⟨p2m, i, hp, hi, rfl⟩, hlt, (L.tree.inv.frames p2m hp i hlt).2⟩

theorem Loading.pageFor (hsp : l.k.space = some space) {lo : Nat}
    (hlo : kernelMap ≤ lo) (hal : lo % 4096 = 0)
    (hpath : ∀ va, lo ≤ va → va < kernelMap + l.k.tableStart → ∀ level < 3, pathTo va (level + 1) ∈ R)
    (hva : lo ≤ va ∨ va < 2 ^ 47) (h64 : va < 2 ^ 64) {rc pfn l' m'}
    (hr : pageFor host space va l m = (rc, pfn, l', m')) :
    ∃ space' S', l'.k.space = some space' ∧ Loading host R space' l' m' S' ∧ S.nodes ⊆ S'.nodes ∧ SameRam l l' ∧
      (l.tableOom = true → l'.tableOom = true) ∧
      (rc = .ok → lo ≤ va ∧ l'.ImageFrame pfn ∧ pathTo (va / 4096 * 4096) 3 ∈ S'.nodes) ∧
      (lo ≤ va → va < kernelMap + l.k.tableStart → rc = .ok ∨ l'.tableOom = true) := by
  have hkernel : kernelMap = 2 ^ 64 - 2 ^ 31 := by decide
  have hmask := Arch.and_pageMask h64
  have hcanon : vaCanonical (va / 4096 * 4096) = true := by
    rcases hva with hge | hlt
    · exact vaCanonical_high (by omega) (by omega)
    · exact vaCanonical_low (by omega)
  rcases hlook : Arch.guestLookup (spaceHost host.osMap) space (va / 4096 * 4096) l m with ⟨found, l₁⟩
  obtain ⟨hfinds, hit, hl₁⟩ := L.guestLookup hcanon
  rw [hlook] at hfinds hl₁
  subst hl₁
  have hs₁ : SameRam l { l with k := { l.k with lastHit := hit } } := ⟨_, _, _, _, _, _, rfl⟩
  have L₁ := L.congr hs₁.tables rfl rfl
  simp only [Loader.pageFor, hmask, hlook] at hr
  split at hr
  next hfound =>
    -- mapped before
    cases hr
    cases hleaf : leafPage S m (va / 4096 * 4096) with
    | none => rw [hleaf] at hfinds; exact absurd hfinds.2 hfound.2
    | some page =>
      rw [hleaf] at hfinds
      have hge : lo ≤ va := by
        rcases hva with hge | hlt
        · exact hge
        · rw [L.low _ (by omega)] at hleaf; cases hleaf
      obtain ⟨q, hq, rfl⟩ := L.image _ (by omega) (by omega) page hleaf
      have hpa : found.pa >>> 12 = q := by rw [hfinds.2, Nat.shiftRight_eq_div_pow]; omega
      refine ⟨space, S, hsp, L₁, Finset.Subset.refl _, hs₁, id, fun _ => ⟨hge, hpa ▸ hq.congr hs₁.tables, ?_⟩,
        fun _ _ => Or.inl rfl⟩
      by_contra hno
      rw [Arch.leafPage_of_absent L.tree (le_refl 3) hno] at hleaf
      cases hleaf
  · split at hr
    next hlow =>
      cases hr
      exact ⟨space, S, hsp, L₁, Finset.Subset.refl _, hs₁, id, (fun h => by cases h), fun hge _ => by omega⟩
    next hhigh =>
      have hge : lo ≤ va := hva.resolve_right (by omega)
      have hlen : l.k.block.length ≠ 0 := fun h0 => L.tree.inv.nonempty (List.length_eq_zero_iff.mp h0)
      have hpa : kvaPa { l with k := { l.k with lastHit := hit } } (va / 4096 * 4096)
          = (va / 4096 - kernelMap / 4096) * 4096 := by
        simp only [kvaPa, L.base]; omega
      have hal' := L.aligned
      simp only [hpa, hlen, false_or, Arch.pageSize] at hr
      split at hr
      · cases hr
        exact ⟨space, S, hsp, L₁, Finset.Subset.refl _, hs₁, id, (fun h => by cases h), fun _ hlt => by omega⟩
      next hin =>
        have hshift : ((va / 4096 - kernelMap / 4096) * 4096) >>> 12 = va / 4096 - kernelMap / 4096 := by
          rw [Nat.shiftRight_eq_div_pow]; omega
        obtain ⟨p2m, hp, hq, hlt, hq40⟩ := L.imageFrame (i := va / 4096 - kernelMap / 4096) (by omega)
        have hcap := L.supplied.translated.backed
        have hptm : { l.k with lastHit := hit }.pseudoToMachinePfn (va / 4096 - kernelMap / 4096)
            = some (p2m (va / 4096 - kernelMap / 4096)) := by
          simp only [pseudoToMachinePfn, hp]
          rw [if_neg (by omega), if_neg (by omega)]
        obtain ⟨p, hit₂, hpne, hpva⟩ := pseudoFrameVa_eq L₁.supplied.blocks hlt L₁.tree.inv.backed_lt
        have hs₂ : SameRam l { l with k := { l.k with lastHit := hit₂ } } := ⟨_, _, _, _, _, _, rfl⟩
        have L₂ : Loading host R space { l with k := { l.k with lastHit := hit₂ } }
            (m.zero (p2m (va / 4096 - kernelMap / 4096))) S :=
          (L.congr hs₂.tables rfl rfl).write hq fun a ha => Function.update_of_ne ha _ _
        have h40 : ∀ q, q < 2 ^ 40 → ullong (q <<< 12) = q * 4096 := fun q hq => by
          rw [Nat.shiftLeft_eq]; exact ullong_of_lt (by omega)
        simp only [hshift, hptm, hpva, if_neg hpne, h40 _ hq40] at hr
        rcases hmap : Arch.guestMap (spaceHost host.osMap) space (va / 4096 * 4096)
          (p2m (va / 4096 - kernelMap / 4096) * 4096) kernpgTable { l with k := { l.k with lastHit := hit₂ } }
          (m.zero (p2m (va / 4096 - kernelMap / 4096))) with ⟨rc₃, space₃, l₃, m₃⟩
        obtain ⟨S₃, L₃, hsub, hs₃, hout⟩ := L₂.guestMap (by omega) (by omega)
          (hpath _ (by omega) (by omega)) (by decide)
          (fun _ => ⟨_, hq, by rw [Arch.entryPa_leafEntry (by omega) (by decide)]; omega⟩) hmap
        have hs₄ : ∀ n, SameRam l₃ { l₃ with k := { l₃.k with space := some space₃, pages := n } } := fun n =>
          ⟨_, _, _, _, _, _, rfl⟩
        simp only [hmap] at hr
        rcases hout with ⟨rfl, hmem, hoom⟩ | ⟨hne, hoom⟩
        · cases hr
          exact ⟨space₃, S₃, rfl, L₃.congr (hs₄ _).tables rfl rfl, hsub, hs₂.trans (hs₃.trans (hs₄ _)),
            fun h => hoom.trans h, fun _ => ⟨hge, hq.congr (hs₂.trans (hs₃.trans (hs₄ _))).tables, hmem⟩,
            fun _ _ => Or.inl rfl⟩
        · have hs₅ : SameRam l₃ { l₃ with k := { l₃.k with space := some space₃ } } := ⟨_, _, _, _, _, _, rfl⟩
          cases rc₃ <;> first | exact absurd rfl hne | cases hr
          all_goals exact ⟨space₃, S₃, rfl, L₃.congr hs₅.tables rfl rfl, hsub, hs₂.trans (hs₃.trans hs₅), fun _ => hoom,
            fun h => absurd h hne, fun _ _ => Or.inr hoom⟩

theorem Loading.frameVa_eq {q : Nat} (hq : l.ImageFrame q) :
    ∃ p hit, p ≠ 0 ∧ l.k.frameVa q = (p, { l.k with lastHit := hit }) := by
  obtain ⟨p2m, i, hp, hi, rfl⟩ := hq
  obtain ⟨-, -, -, hlt, -⟩ := L.imageFrame hi
  exact L.tree.inv.frameVa_eq hp hlt

end

/-- The loop of `co_kload_chunk`, by induction on the rounds. A range inside the image is loaded whole, or the
region is full. -/
theorem Loading.chunkLoop {lo top : Nat} (hlo : kernelMap ≤ lo) (hal : lo % 4096 = 0) (htop : top ≤ 2 ^ 31)
    (hpath : ∀ va, lo ≤ va → va < kernelMap + top → ∀ level < 3, pathTo va (level + 1) ∈ R)
    (data : Nat → Nat) (zero : Bool) (rounds : Nat) : ∀ {va size start space l m S},
      Loading host R space l m S → l.k.space = some space → l.k.tableStart = top →
      lo ≤ va ∨ va < 2 ^ 47 → va < 2 ^ 64 → ∀ {rc l' m'},
      chunkLoop host data zero rounds va size start l m = (rc, l', m') →
      ∃ space' S', l'.k.space = some space' ∧ Loading host R space' l' m' S' ∧ S.nodes ⊆ S'.nodes ∧
        SameRam l l' ∧ (l.tableOom = true → l'.tableOom = true) ∧
        ((size ≠ 0 → lo ≤ va ∧ va + size ≤ kernelMap + top) → size ≤ rounds → l'.tableOom = true ∨
          rc = .ok ∧ ∀ y, va ≤ y → y < va + size → pathTo (y / 4096 * 4096) 3 ∈ S'.nodes) := by
  have hkernel : kernelMap = 2 ^ 64 - 2 ^ 31 := by decide
  induction rounds with
  | zero =>
    intro va size start space l m S L hsp _ _ _ rc l' m' hr
    cases hr
    exact ⟨space, S, hsp, L, Finset.Subset.refl _, SameRam.refl l, id,
      fun _ hle => Or.inr ⟨rfl, fun y hy hy' => by omega⟩⟩
  | succ rounds ih =>
    intro va size start space l m S L hsp hstart hva h64 rc l' m' hr
    rw [Loader.chunkLoop] at hr
    split at hr
    next h0 =>
      cases hr
      exact ⟨space, S, hsp, L, Finset.Subset.refl _, SameRam.refl l, id,
        fun _ _ => Or.inr ⟨rfl, fun y hy hy' => by omega⟩⟩
    next h0 =>
      have hoff : va &&& (Arch.pageSize - 1) = va % 4096 := Nat.and_two_pow_sub_one_eq_mod va 12
      have hps : Arch.pageSize = 4096 := rfl
      simp only [hoff, hsp] at hr
      simp only [hps] at hr
      generalize hpart : (if size < 4096 - va % 4096 then size else 4096 - va % 4096) = part at hr
      have hpos : 0 < part ∧ part ≤ size ∧ va % 4096 + part ≤ 4096 ∧
          (part = size ∨ va % 4096 + part = 4096) := by
        rw [← hpart]; split <;> omega
      rcases hpf : Loader.pageFor host space va l m with ⟨rc₁, pfn, l₁, m₁⟩
      obtain ⟨space₁, S₁, hsp₁, L₁, hsub₁, hs₁, hoom₁, hok₁, hin₁⟩ :=
        L.pageFor hsp hlo hal (hstart ▸ hpath) hva h64 hpf
      rw [hpf] at hr
      by_cases hok : rc₁ = .ok
      · subst hok
        obtain ⟨hge, hq, hmem₁⟩ := hok₁ rfl
        -- with or without a copy the loop goes on from tables of the same shape
        have hcont : ∃ start₂ l₂ m₂, Loading host R space₁ l₂ m₂ S₁ ∧ l₂.k.space = some space₁ ∧ SameRam l₁ l₂ ∧
            l₂.tableOom = l₁.tableOom ∧ Loader.chunkLoop host data zero rounds (ullong (va + part)) (size - part)
              start₂ l₂ m₂ = (rc, l', m') := by
          cases zero with
          | true => exact ⟨start, l₁, m₁, L₁, hsp₁, SameRam.refl l₁, rfl, hr⟩
          | false =>
            obtain ⟨p, hit, hp, hfva⟩ := L₁.frameVa_eq hq
            have hs₂ : SameRam l₁ { l₁ with k := { l₁.k with lastHit := hit } } := ⟨_, _, _, _, _, _, rfl⟩
            simp only [Bool.false_eq_true, if_false, hfva, if_neg hp] at hr
            exact ⟨_, _, _,
              (L₁.congr hs₂.tables rfl rfl).write (hq.congr hs₂.tables) fun a ha => Function.update_of_ne ha _ _,
              hsp₁, hs₂, rfl, hr⟩
        obtain ⟨start₂, l₂, m₂, L₂, hsp₂, hs₂, hoom₂, hr₂⟩ := hcont
        have hs₁₂ := hs₁.trans hs₂
        have hnext : lo ≤ ullong (va + part) ∧ ullong (va + part) = va + part ∨
            ullong (va + part) = 0 ∧ va + part = 2 ^ 64 := by
          rcases Nat.lt_or_ge (va + part) (2 ^ 64) with hlt | hge64
          · left
            rw [ullong_of_lt hlt]
            omega
          · right
            have : va + part = 2 ^ 64 := by omega
            rw [this]
            decide
        obtain ⟨space₃, S₃, hsp₃, L₃, hsub₃, hs₃, hoom₃, hrest⟩ := ih L₂ hsp₂
          (hs₁₂.tables.start.trans hstart) (by omega) (Nat.mod_lt _ (by decide)) hr₂
        refine ⟨space₃, S₃, hsp₃, L₃, hsub₁.trans hsub₃, hs₁₂.trans hs₃,
          fun h => hoom₃ (hoom₂.trans (hoom₁ h)), fun hrange hle => ?_⟩
        have hrange := hrange h0
        rcases hrest (fun hne => by omega) (by omega) with hfull | ⟨hrc, hcover⟩
        · exact Or.inl hfull
        · refine Or.inr ⟨hrc, fun y hy hy' => ?_⟩
          rcases Nat.lt_or_ge y (va + part) with hlt | hge'
          · have hpage : y / 4096 = va / 4096 := by omega
            rw [hpage]
            exact hsub₃ hmem₁
          · exact hcover y (by omega) (by omega)
      · have hr' : (rc₁, l₁, m₁) = (rc, l', m') := by
          rw [← hr]
          cases rc₁ <;> first | exact absurd rfl hok | rfl
        cases hr'
        refine ⟨space₁, S₁, hsp₁, L₁, hsub₁, hs₁, hoom₁, fun hrange _ => Or.inl ?_⟩
        obtain ⟨hge, hend⟩ := hrange h0
        exact (hin₁ hge (by omega)).resolve_left hok

end Loader

end MoCoLinux
