import MoCoLinux.Kload.Lemmas.Calls

/-!
# Whole loads
-/

namespace MoCoLinux.Loader

open Arch (Mem GuestSpace pathTo kernelMap directMap rangeNodes)
open RadixTree (Shape)
open Kload

variable {host : Host} {l l' : Loader} {m m' : Mem} {S : Shape Nat Nat} {R : Finset (List Nat)}
variable {view : Kload} {minVa maxVa ramBytes : Nat}

structure Imaged (host : Host) (R : Finset (List Nat)) (view : Kload) (minVa maxVa ramBytes : Nat) (l : Loader)
    (m : Mem) (S : Shape Nat Nat) : Prop where
  space : ∃ space, l.k.space = some space ∧ Loading host R space l m S
  arrays : ∀ r ∈ arrayRanges maxVa ramBytes, ∀ va, r.1 ≤ va → va ≤ r.2 → pathTo va 3 ∈ S.nodes
  placed : Placed maxVa ramBytes l.k
  userRamVa : l.k.userRamVa = view.userRamVa
  userRamBytes : l.k.userRamBytes = view.userRamBytes
  backed : l.k.backedPages * 4096 = l.k.tableEnd
  blocks : Fits view maxVa ramBytes → l.k.block.length ≤ l.k.tableEnd / 2 ^ 23 + 1

theorem Begun.imaged {S' : Shape Nat Nat} (h : Begun host R view minVa maxVa ramBytes l m S)
    (hl : Loaded host R S l l' m' S') : Imaged host R view minVa maxVa ramBytes l' m' S' := by
  have hp := h.placed.sameRam hl.same
  have harr : ∀ r ∈ arrayRanges maxVa ramBytes, ∀ va, r.1 ≤ va → va ≤ r.2 → pathTo va 3 ∈ S'.nodes :=
    fun r hr va h1 h2 => hl.subset (h.arrays r hr va h1 h2)
  have hspace := hl.space
  obtain ⟨_, _, _, _, _, _, rfl⟩ := hl.same
  exact { h with space := hspace, arrays := harr, placed := hp }

section Ram

variable (A : Accepted minVa maxVa ramBytes) (h : Imaged host R view minVa maxVa ramBytes l m S)
include A h

theorem Imaged.backed_le : l.k.backedPages ≤ pagesUpTo (ramEnd maxVa ramBytes) := by
  have hb := h.backed
  have hr := A.ramEnd_bounds.1
  rw [h.placed.stop] at hb
  rw [pagesUpTo]
  omega

theorem Imaged.grow (hs : Supplies host) (textVa endVa : Nat) :
    ∃ ok l₁ m₁ space, growTo host (desiredEnd l.k ramBytes) (ramStart l ramBytes textVa endVa) m = some (ok, l₁, m₁) ∧
      l.k.space = some space ∧ Loading host R space l₁ m₁ S ∧ Grown (ramStart l ramBytes textVa endVa) l₁ ∧
      l₁.k.backedPages ≤ pagesUpTo (ramEnd maxVa ramBytes) := by
  obtain ⟨space, hsp, L⟩ := h.space
  have hst := ramStart_tables l ramBytes textVa endVa
  have L₁ := L.congr hst rfl rfl
  have hbase : pagesUpTo (ramEnd maxVa ramBytes) ≤ (ramStart l ramBytes textVa endVa).k.windowBasePages := by
    rw [hst.backing.base, h.placed.base]
  obtain ⟨ok, l₁, m₁, hgrow, h₁, hg, hle, hmem, -⟩ := growTo_supplied hs L₁.supplied m hbase
  refine ⟨ok, l₁, m₁, space, by rw [h.placed.desiredEnd_eq A]; exact hgrow, hsp, L₁.grown hs h₁ hg hmem, hg, ?_⟩
  have hb : (ramStart l ramBytes textVa endVa).k.backedPages ≤ pagesUpTo (ramEnd maxVa ramBytes) := by
    rw [hst.backing.backed]
    exact h.backed_le A
  exact hle.trans (Nat.max_le.mpr ⟨hb, le_refl _⟩)

theorem Imaged.grow_full (hs : Supplies host) (hfit : Fits view maxVa ramBytes)
    (hroom : view.userRamVa = 0 ∨ ramEnd maxVa ramBytes % 4096 = 0 ∧ ramEnd maxVa ramBytes ≤ view.userRamBytes ∧
      ramEnd maxVa ramBytes ≤ 127 * 2 ^ 30 + 2 ^ 29) {textVa endVa : Nat} {ok l₁ m₁}
    (hgrow : growTo host (desiredEnd l.k ramBytes) (ramStart l ramBytes textVa endVa) m = some (ok, l₁, m₁)) :
    l₁.k.backedPages = pagesUpTo (ramEnd maxVa ramBytes) := by
  obtain ⟨space, hsp, L⟩ := h.space
  have hst := ramStart_tables l ramBytes textVa endVa
  have L₁ := L.congr hst rfl rfl
  have hle := h.backed_le A
  have hlen := h.blocks hfit
  have hback := h.backed
  have hend := A.ramEnd_bounds
  have hcap := A.capacityPages_eq
  have hi := A.imageHi_bounds
  have ht := A.tableBytes_bounds
  have hstop := h.placed.stop
  have hbase := h.placed.base
  have hmax : maxBlocks = 16384 := rfl
  rw [h.placed.desiredEnd_eq A] at hgrow
  generalize ramEnd maxVa ramBytes = target at *
  obtain ⟨n, hn, hblocks⟩ : ∃ n, (target - l.k.backedPages * 4096) / 4096 +
      (if (target - l.k.backedPages * 4096) % 4096 = 0 then 0 else blockLimit l.k) ≤ n * blockLimit l.k ∧
      l.k.block.length + n ≤ maxBlocks := by
    rw [blockLimit, h.userRamVa]
    rcases hroom with h0 | ⟨hal, -, hlow⟩
    · rw [if_pos h0]
      exact ⟨(target - l.k.backedPages * 4096) / 2 ^ 25 + 2, by split <;> omega, by omega⟩
    · have h0 : (target - l.k.backedPages * 4096) % 4096 = 0 := by omega
      rw [if_pos h0]
      exact ⟨(target - l.k.backedPages * 4096) / 2 ^ 23 + 1, by split <;> omega, by omega⟩
  have henough : Enough (ramStart l ramBytes textVa endVa).k target n := by
    rw [Enough, hst.backing.backed]
    exact hn
  have hview : view.userRamVa ≠ 0 → pagesUpTo target * 4096 ≤ view.userRamBytes := fun hu => by
    obtain ⟨hal, hle, -⟩ := hroom.resolve_left hu
    rw [pagesUpTo]
    omega
  have hr : Room (ramStart l ramBytes textVa endVa).k target n := by
    refine ⟨?_, ?_, ?_, fun hu => ?_⟩
    · rw [hst.backing.block]
      exact hblocks
    · rw [hst.backing.capacity, h.placed.capacity, hcap]
      exact Nat.le_add_right _ _
    · rw [hst.backing.base, hbase]
    · exact (hview (h.userRamVa ▸ hu)).trans_eq h.userRamBytes.symm
  obtain ⟨l₂, m₂, hgrow₂, -, -, hb, -, -⟩ := growTo_full hs L₁.supplied m henough hr
  rw [hgrow] at hgrow₂
  cases hgrow₂
  rw [hb, hst.backing.backed]
  exact Nat.max_eq_right hle

end Ram

theorem Imaged.sectionBound (h : Imaged host R view minVa maxVa ramBytes l m S) (hfit : Fits view maxVa ramBytes) :
    SectionBound l.k := by
  intro hu
  rw [h.backed, h.placed.stop, h.userRamBytes]
  exact hfit.resolve_left (h.userRamVa ▸ hu)

theorem Placed.supply_eq (P : Placed maxVa ramBytes l.k) : l.supply = tableSupply maxVa ramBytes := by
  rw [supply, tableSupply, P.start, P.stop, Nat.add_sub_cancel_left]

def loadNodes (minVa maxVa ramBytes : Nat) : Finset (List Nat) := rangeNodes (loadRanges minVa maxVa ramBytes)

theorem arrays_mem_loadNodes : ∀ r ∈ arrayRanges maxVa ramBytes, ∀ va, r.1 ≤ va → va ≤ r.2 →
    ∀ level < 3, pathTo va (level + 1) ∈ loadNodes minVa maxVa ramBytes := fun _ hr _ h1 h2 _ hl =>
  Arch.mem_rangeNodes (List.mem_cons_of_mem _ (List.mem_append_left _ hr)) h1 h2 hl

theorem image_mem_loadNodes {va : Nat} (h1 : minVa / 4096 * 4096 ≤ va) (h2 : va < kernelMap + imageHi maxVa) :
    ∀ level < 3, pathTo va (level + 1) ∈ loadNodes minVa maxVa ramBytes := fun level hl => by
  refine Arch.mem_rangeNodes (r := (minVa / 4096 * 4096, imageLast maxVa)) ?_ h1 (Nat.le_sub_one_of_lt h2) hl
  exact List.mem_cons_of_mem _ (List.mem_append_right _ (List.mem_singleton_self _))

theorem direct_mem_loadNodes {va : Nat} (h1 : directMap ≤ va)
    (h2 : va < directMap + pagesUpTo (ramEnd maxVa ramBytes) * 4096) :
    ∀ level < 3, pathTo va (level + 1) ∈ loadNodes minVa maxVa ramBytes := fun _ hl =>
  Arch.mem_rangeNodes (r := (directMap, directMap + pagesUpTo (ramEnd maxVa ramBytes) * 4096 - 1))
    (List.mem_cons_self ..) h1 (Nat.le_sub_one_of_lt h2) hl

theorem load_tables (hs : Answers host) (hidle : Idle l) (a : LoadArgs)
    (hacc : ¬ BeginRefused a.minVa a.maxVa a.ramBytes) (A : Accepted a.minVa a.maxVa a.ramBytes)
    (h64 : ∀ c ∈ a.chunks, c.va < 2 ^ 64) (m : Mem) :
    ∃ rc l' m', load host a l m = some (rc, l', m') ∧
      (l'.tableOom = true → tableSupply a.maxVa a.ramBytes < tableDemand a.minVa a.maxVa a.ramBytes) := by
  rw [← A.card_loadRanges]
  obtain ⟨hlo, -, -⟩ := A.image_bounds
  obtain ⟨rc₁, l₁, m₁, hbegin, ⟨hne, hoom, -⟩ | ⟨rfl, S₁, h₁⟩⟩ := begin_cases
    (R := loadNodes a.minVa a.maxVa a.ramBytes) hs hidle hacc A (Finset.mem_insert_self _ _) arrays_mem_loadNodes
    a.puts a.ramUserVa a.ramUserBytes m
  · refine ⟨rc₁, l₁, m₁, ?_, hoom⟩
    simp only [load, hbegin, Option.bind_eq_bind, Option.bind_some, if_neg hne]
    rfl
  · obtain ⟨space₁, hsp₁, L₁⟩ := h₁.space
    obtain ⟨S₂, hl⟩ := L₁.chunkAll hlo (Nat.mul_mod_left _ _) A.imageHi_bounds.2.1
      (fun va h1 h2 => image_mem_loadNodes h1 h2) hsp₁ h₁.first h₁.placed.start h64
    have h₂ := h₁.imaged hl
    obtain ⟨space₂, hsp₂, L₂⟩ := h₂.space
    simp only [load, hbegin, Option.bind_eq_bind, Option.bind_some, if_true]
    generalize (chunkAll host a.chunks l₁ m₁).1 = l₂ at *
    generalize (chunkAll host a.chunks l₁ m₁).2 = m₂ at *
    by_cases ha : RamArgs l₂ a.ramBytes a.textVa a.endVa
    · obtain ⟨ok, l₃, m₃, space, hgrow, hsp, L₃, hg, hle⟩ := h₂.grow A hs.toSupplies a.textVa a.endVa
      obtain ⟨rc, l', m', space', S', hrun, L', -, hst, -, -⟩ := L₃.mapRam hgrow
        (hle.trans A.ramPages_bounds.2) fun va h1 h2 =>
          direct_mem_loadNodes h1 (h2.trans_le (Nat.add_le_add_left (Nat.mul_le_mul_right _ hle) _))
      refine ⟨rc, l', m', ?_, fun ho => ?_⟩
      · rw [ha.buildRam_eq hsp L₂.tree.inv.nonempty]
        exact hrun
      · have := L'.oom ho
        rwa [hst.supply, ((h₂.placed.ramStart _ _).grown hg).supply_eq] at this
    · obtain ⟨rc, l', hr, hoom⟩ := buildRam_refused hsp₂ L₂.tree.inv.nonempty ha m₂
      refine ⟨rc, l', m₂, hr, fun ho => ?_⟩
      have := L₂.oom (hoom ▸ ho)
      rwa [h₂.placed.supply_eq] at this

def everything (minVa maxVa ramBytes : Nat) : LoadArgs where
  puts := 0
  minVa := minVa
  maxVa := maxVa
  ramBytes := ramBytes
  ramUserVa := 0
  ramUserBytes := 0
  chunks := [⟨minVa / 4096 * 4096, fun _ => 0, kernelMap + imageHi maxVa - minVa / 4096 * 4096, true⟩]
  textVa := kernelMap
  endVa := kernelMap + 1

theorem load_everything (hs : Answers host) (hidle : Idle l) (hpool : l.k.free.userRamVa = 0)
    (hacc : ¬ BeginRefused minVa maxVa ramBytes) (A : Accepted minVa maxVa ramBytes) (m : Mem) :
    ∃ rc l' m', load host (everything minVa maxVa ramBytes) l m = some (rc, l', m') ∧
      (l'.tableOom = false → tableDemand minVa maxVa ramBytes ≤ tableSupply maxVa ramBytes) := by
  rw [← A.card_loadRanges]
  obtain ⟨hlo, hle, hlt⟩ := A.image_bounds
  have hview : l.k.free.withView 0 0 = l.k.free := rfl
  have hfit : Fits l.k.free maxVa ramBytes := Or.inl hpool
  obtain ⟨rc₁, l₁, m₁, hbegin, ⟨hne, -, hoom⟩ | ⟨rfl, S₁, h₁⟩⟩ := begin_cases
    (R := loadNodes minVa maxVa ramBytes) hs hidle hacc A (Finset.mem_insert_self _ _) arrays_mem_loadNodes 0 0 0 m
  · refine ⟨rc₁, l₁, m₁, ?_, fun ho => ?_⟩
    · simp only [load, everything, hbegin, Option.bind_eq_bind, Option.bind_some, if_neg hne]
      rfl
    · rw [hview] at hoom
      rw [hoom hfit] at ho
      cases ho
  · rw [hview] at h₁
    obtain ⟨space₁, hsp₁, L₁⟩ := h₁.space
    obtain ⟨c, hc⟩ : ∃ c, (everything minVa maxVa ramBytes).chunks = [c] ∧ c.va = minVa / 4096 * 4096 ∧
        c.va + c.size = kernelMap + imageHi maxVa :=
      ⟨_, rfl, rfl, Nat.add_sub_cancel' (hle.trans (Nat.sub_le _ _))⟩
    obtain ⟨hchunks, hva, hsize⟩ := hc
    have hva64 : c.va < 2 ^ 64 := hva ▸ hle.trans_lt hlt
    rcases hrun : Loader.chunk host c l₁ m₁ with ⟨rc₂, l₂, m₂⟩
    obtain ⟨S₂, hl, hcover⟩ := L₁.chunk hlo (Nat.mul_mod_left _ _) A.imageHi_bounds.2.1
      (fun va h1 h2 => image_mem_loadNodes h1 h2) hsp₁ h₁.first h₁.placed.start hva64 hrun
    have hcover := hcover hva.ge hsize.le (by rw [hsize, h₁.last]; exact A.imageEnd_le)
    rw [hsize, hva] at hcover
    have h₂ := h₁.imaged hl
    obtain ⟨space₂, hsp₂, L₂⟩ := h₂.space
    have hall : chunkAll host (everything minVa maxVa ramBytes).chunks l₁ m₁ = (l₂, m₂) := by
      simp only [hchunks, chunkAll, hrun]
    have ha : RamArgs l₂ ramBytes kernelMap (kernelMap + 1) :=
      h₂.placed.ramArgs A (le_refl _) (Nat.lt_succ_self _) (by have := A.kernel; have := A.range; omega)
    obtain ⟨ok, l₃, m₃, space, hgrow, hsp, L₃, hg, hb⟩ := h₂.grow A hs.toSupplies kernelMap (kernelMap + 1)
    have hfull := h₂.grow_full A hs.toSupplies hfit (Or.inl hpool) hgrow
    obtain ⟨rc, l', m', space', S', hram, L', hsub, hst, hmono, hdirect⟩ := L₃.mapRam hgrow
      (hb.trans A.ramPages_bounds.2) fun va h1 h2 =>
        direct_mem_loadNodes h1 (h2.trans_le (Nat.add_le_add_left (Nat.mul_le_mul_right _ hb) _))
    refine ⟨rc, l', m', ?_, fun ho => ?_⟩
    · simp only [load, everything, hbegin, Option.bind_eq_bind, Option.bind_some, if_true]
      simp only [everything] at hall
      rw [hall]
      exact (ha.buildRam_eq hsp L₂.tree.inv.nonempty m₂).trans hram
    · have hno : ∀ l : Loader, (l.tableOom = true → l'.tableOom = true) → l.tableOom ≠ true := fun l hl h => by
        rw [hl h] at ho
        cases ho
      have himage := hcover.resolve_left (hno l₂ fun h => hmono (hg.oom.trans h))
      have hdirect := hdirect.resolve_left (hno l' id)
      have hsubset : loadNodes minVa maxVa ramBytes ⊆ S'.nodes := by
        refine Arch.rangeNodes_subset L'.tree.rep.root_mem (fun r hr => (A.loadRanges_bounds hr).2.1) ?_
        intro r hr va h1 h2 level hl
        rcases List.mem_cons.mp hr with rfl | hr
        · refine L'.tree.pathTo_mem_of_le (k := 3) hl (hdirect va h1 ?_)
          rw [hfull]
          exact Nat.lt_of_le_sub_one (by have := A.ramPages_bounds; omega) h2
        rcases List.mem_append.mp hr with hr | hr
        · exact L'.tree.pathTo_mem_of_le (k := 3) hl (hsub (h₂.arrays r hr va h1 h2))
        · obtain rfl := List.mem_singleton.mp hr
          rw [← Arch.pathTo_page va hl]
          refine L'.tree.pathTo_mem_of_le (k := 3) hl (hsub (himage va h1 ?_))
          exact Nat.lt_of_le_sub_one (by have := A.imageHi_bounds; omega) h2
      have hcard := Finset.card_le_card hsubset
      have hcount := L'.count
      rw [hst.supply, ((h₂.placed.ramStart _ _).grown hg).supply_eq, L'.tree.tables] at hcount
      exact hcard.trans (hcount ▸ Nat.le_add_left _ _)

theorem buildRam_backed (hs : Answers host) (hidle : Idle l) (hacc : ¬ BeginRefused minVa maxVa ramBytes)
    (A : Accepted minVa maxVa ramBytes) {puts ramUserVa ramUserBytes : Nat} {l₁ : Loader} {m₁ : Mem}
    (hbegin : begin host puts minVa maxVa ramBytes ramUserVa ramUserBytes l m = some (.ok, l₁, m₁))
    (hview : l.k.free.withView ramUserVa ramUserBytes = view)
    {chunks : List Chunk} (h64 : ∀ c ∈ chunks, c.va < 2 ^ 64) {textVa endVa : Nat} (htext : kernelMap ≤ textVa)
    (hrange : textVa < endVa) (hend : endVa ≤ maxVa) :
    ∃ rc l₃ m₃, buildRam host ramBytes textVa endVa (chunkAll host chunks l₁ m₁).1
        (chunkAll host chunks l₁ m₁).2 = some (rc, l₃, m₃) ∧
      l₃.k.tableStart = imageHi maxVa ∧ l₃.k.tableEnd = imageHi maxVa + tableBytes ramBytes (imageHi maxVa) ∧
      (Fits view maxVa ramBytes → (ramEnd maxVa ramBytes % 4096 = 0 ∧ ramEnd maxVa ramBytes ≤ view.userRamBytes ∧
          ramEnd maxVa ramBytes ≤ 127 * 2 ^ 30 + 2 ^ 29 →
        l₃.k.backedPages = pagesUpTo (ramEnd maxVa ramBytes)) ∧
      (view.userRamVa ≠ 0 → l₃.k.backedPages * 4096 ≤ view.userRamBytes)) := by
  obtain ⟨hlo, -, -⟩ := A.image_bounds
  obtain ⟨rc, l₁', m₁', hbegin', hcases⟩ := begin_cases
    (R := loadNodes minVa maxVa ramBytes) hs hidle hacc A (Finset.mem_insert_self _ _) arrays_mem_loadNodes
    puts ramUserVa ramUserBytes m
  rw [hbegin] at hbegin'
  cases hbegin'
  obtain ⟨-, S₁, h₁⟩ := hcases.resolve_left fun h => h.1 rfl
  rw [hview] at h₁
  obtain ⟨space₁, hsp₁, L₁⟩ := h₁.space
  obtain ⟨S₂, hl⟩ := L₁.chunkAll hlo (Nat.mul_mod_left _ _) A.imageHi_bounds.2.1
    (fun va h1 h2 => image_mem_loadNodes h1 h2) hsp₁ h₁.first h₁.placed.start h64
  have h₂ := h₁.imaged hl
  generalize (chunkAll host chunks l₁ m₁).1 = l₂ at *
  generalize (chunkAll host chunks l₁ m₁).2 = m₂ at *
  obtain ⟨ok, l₃, m₃, space, hgrow, hsp, L₃, hg, hb⟩ := h₂.grow A hs.toSupplies textVa endVa
  obtain ⟨space₂, hsp₂, L₂⟩ := h₂.space
  obtain ⟨rc, l', m', space', S', hram, L', -, hst, -, -⟩ := L₃.mapRam hgrow
    (hb.trans A.ramPages_bounds.2) fun va h1 h2 =>
      direct_mem_loadNodes h1 (h2.trans_le (Nat.add_le_add_left (Nat.mul_le_mul_right _ hb) _))
  have hp := (h₂.placed.ramStart textVa endVa).grown hg
  refine ⟨rc, l', m', ?_, hst.start.trans hp.start, hst.stop.trans hp.stop, fun hfit =>
    ⟨fun hroom => ?_, fun hu => ?_⟩⟩
  · exact ((h₂.placed.ramArgs A htext hrange hend).buildRam_eq hsp L₂.tree.inv.nonempty m₂).trans hram
  · exact hst.backing.backed.trans (h₂.grow_full A hs.toSupplies hfit (Or.inr hroom) hgrow)
  · have hbook := (L₂.congr (ramStart_tables l₂ ramBytes textVa endVa) rfl rfl).supplied.translated.toBookkept
    have hsec := (growTo_grown hbook (h₂.sectionBound hfit) hgrow).2.2
    obtain ⟨_, _, _, _, hk⟩ := hg.k
    have hva : l₃.k.userRamVa = view.userRamVa := by rw [hk]; exact h₂.userRamVa
    have hbytes : l₃.k.userRamBytes = view.userRamBytes := by rw [hk]; exact h₂.userRamBytes
    rw [hst.backing.backed, ← hbytes]
    exact hsec (hva ▸ hu)

end MoCoLinux.Loader
