import MoCoLinux.Arch.Lemmas.Entry
import MoCoLinux.Arch.Spec

/-!
# The table walk

The tables of a guest space form a radix tree of depth 3 (`Tree`). Each walk is taken one level at a time:
`guestMapLevel_present` and `guestMapLevel_absent` say what one level of `co_arch_guest_map` does, and the
results about whole walks follow from them by induction on the levels left.
-/

namespace MoCoLinux.Arch

open RadixTree (Shape Rep Linked)

variable {τ τ' : Type} {h : SpaceHost τ} {F : FrameSource h} {va pa flags : Nat}

def pathTo (va : Nat) : Nat → List Nat
  | 0 => []
  | level + 1 => spaceIndex va level :: pathTo va level

@[simp] theorem length_pathTo (va level : Nat) : (pathTo va level).length = level := by
  induction level with
  | zero => rfl
  | succ level ih => simp [pathTo, ih]

/-- The tables of `space` form a tree of shape `S`, in frames the source handed out. -/
structure Tree (F : FrameSource h) (space : GuestSpace) (t : τ) (m : Mem) (S : Shape Nat Nat) : Prop where
  inv : F.Inv t
  rep : Rep entryCodec 3 space.pml4Pfn m S
  used : ∀ p ∈ S.nodes, F.used t (S.addr p)
  tables : space.tables = S.nodes.card

variable {space : GuestSpace} {t t' : τ} {m m' : Mem} {S : Shape Nat Nat}

namespace Tree

variable (T : Tree F space t m S)
include T

theorem congr (hi : F.Inv t') (hk : ∀ q, F.used t q → F.used t' q ∧ m' q = m q) :
    Tree F space t' m' S where
  inv := hi
  rep := T.rep.congr fun p hp => (hk _ (T.used p hp)).2
  used p hp := (hk _ (T.used p hp)).1
  tables := T.tables

theorem map (pfn : Nat) : Tree F space (h.map t pfn).2 m S :=
  T.congr (F.map_inv pfn T.inv) fun _ hq => ⟨F.map_used pfn hq, rfl⟩

theorem putPage {pfn : Nat} (hfresh : ∀ p ∈ S.nodes, S.addr p ≠ pfn) :
    Tree F space (h.putPage t pfn) m S where
  inv := F.putPage_inv pfn T.inv
  rep := T.rep
  used p hp := F.putPage_used (T.used p hp) (hfresh p hp)
  tables := T.tables

theorem addr_lt {p} (hp : p ∈ S.nodes) : S.addr p < 2 ^ 51 := T.rep.valid p hp

theorem isPresent_iff {p} (hp : p ∈ S.nodes) (hd : p.length < 3) (i : Nat) :
    isPresent (m (S.addr p) i) = true ↔ i :: p ∈ S.nodes := T.rep.present_iff hp hd i

theorem entryPfn_eq {i p} (hi : i :: p ∈ S.nodes) :
    entryPfn (m (S.addr p) i) = S.addr (i :: p) := T.rep.target_eq hi

theorem not_isLarge {i p} (hi : i :: p ∈ S.nodes) :
    isLarge (m (S.addr p) i) = false := by
  rw [T.rep.linked i p hi]
  exact isLarge_tableEntry (T.addr_lt hi)

theorem link {p i next} (hp : p ∈ S.nodes) (hd : p.length < 3)
    (hi : i :: p ∉ S.nodes) (hnew : newTable h t m = (.ok next, t', m')) :
    Linked entryCodec S p i next m (m'.write (S.addr p) i (tableEntry next)) ∧
      Tree F { space with tables := space.tables + 1 } t' (m'.write (S.addr p) i (tableEntry next))
        (S.insert (i :: p) next) := by
  obtain ⟨hinv, hnot, hused, hlt, hzero, hkeep⟩ := F.newTable_ok T.inv hnew
  have hfresh : ∀ q ∈ S.nodes, S.addr q ≠ next := fun q hq he => hnot (he ▸ T.used q hq)
  have hl : Linked entryCodec S p i next m (m'.write (S.addr p) i (tableEntry next)) := by
    refine ⟨fun j => ?_, RadixTree.write_self .., fun q hq j hne => ?_⟩
    · rw [Mem.write, RadixTree.write_of_addr_ne _ _ _ _ (hfresh p hp).symm, hzero]
      rfl
    · rw [← (hkeep _ (T.used q hq)).2]
      by_cases hj : j = i
      · exact RadixTree.write_of_addr_ne _ _ _ _ fun he =>
          (hne.resolve_right (not_not_intro hj)) (T.rep.inj q hq p hp he)
      · exact RadixTree.write_of_index_ne _ _ _ _ hj
  refine ⟨hl, hinv, T.rep.extend hp hd hi (Nat.lt_trans hlt (by decide)) hfresh hl, fun q hq => ?_, ?_⟩
  · rcases Shape.mem_insert_nodes.mp hq with rfl | hq
    · rwa [Shape.insert_addr_self]
    · have hne : q ≠ i :: p := fun he => hi (he ▸ hq)
      rw [Shape.insert_addr_of_ne hne]
      exact (hkeep _ (T.used q hq)).1
  · rw [Shape.card_insert hi, T.tables]

end Tree

theorem guestMapLevel_present (T : Tree F space t m S) {left level} (hl : left + 1 + level = 3)
    (hp : pathTo va level ∈ S.nodes) (hc : pathTo va (level + 1) ∈ S.nodes) :
    guestMapLevel h va pa flags (left + 1) (S.addr (pathTo va level)) space t m =
      if (h.map t (S.addr (pathTo va level))).1 then
        guestMapLevel h va pa flags left (S.addr (pathTo va (level + 1))) space
          (h.map t (S.addr (pathTo va level))).2 m
      else (.error, space, (h.map t (S.addr (pathTo va level))).2, m) := by
  have hlv : 2 - left = level := by omega
  have hpres := (T.isPresent_iff hp (by simp; omega) (spaceIndex va level)).mpr hc
  rw [guestMapLevel, hlv]
  rcases h.map t (S.addr (pathTo va level)) with ⟨_ | _, t1⟩
  · rfl
  · simp [hpres, T.not_isLarge hc, T.entryPfn_eq hc]
    rfl

theorem guestMapLevel_absent (T : Tree F space t m S) {left level} (hl : left + 1 + level = 3)
    (hp : pathTo va level ∈ S.nodes) (hc : pathTo va (level + 1) ∉ S.nodes) :
    guestMapLevel h va pa flags (left + 1) (S.addr (pathTo va level)) space t m =
      if (h.map t (S.addr (pathTo va level))).1 then
        match newTable h (h.map t (S.addr (pathTo va level))).2 m with
        | (.error rc, t, m) => (rc, space, t, m)
        | (.ok next, t, m) =>
          if (h.map t (S.addr (pathTo va level))).1 then
            guestMapLevel h va pa flags left next { space with tables := space.tables + 1 }
              (h.map t (S.addr (pathTo va level))).2
              (m.write (S.addr (pathTo va level)) (spaceIndex va level) (tableEntry next))
          else (.error, space, h.putPage (h.map t (S.addr (pathTo va level))).2 next, m)
      else (.error, space, (h.map t (S.addr (pathTo va level))).2, m) := by
  have hlv : 2 - left = level := by omega
  have habs : isPresent (m (S.addr (pathTo va level)) (spaceIndex va level)) = false := by
    rw [← Bool.not_eq_true, T.isPresent_iff hp (by simp; omega)]
    exact hc
  have T1 := T.map (S.addr (pathTo va level))
  have hinv := T1.inv
  have hused := T1.used _ hp
  clear T1
  rw [guestMapLevel, hlv]
  revert hinv hused
  rcases h.map t (S.addr (pathTo va level)) with ⟨_ | _, t1⟩
  · intro _ _; rfl
  · intro hinv hused
    simp only [habs, if_true, Bool.false_eq_true, if_false]
    rcases hnew : newTable h t1 m with ⟨rc | next, t2, m2⟩
    · rfl
    · -- the entry read again is the one read before: the source left the parent alone
      have hsame := ((F.newTable_ok hinv hnew).2.2.2.2.2 _ hused).2
      rcases hmap : h.map t2 (S.addr (pathTo va level)) with ⟨_ | _, t3⟩
      · simp only [hmap]; rfl
      · simp only [hmap, hsame, habs, Bool.false_eq_true, if_false, if_true]

/-- The result `r` of a map of `va` with the entry `leaf`, on tables that held `m` in the shape `S`: the shape `S'`
has at most the tables on the path of `va` in addition, and only the leaf of `va` may have changed. -/
structure Mapped (F : FrameSource h) (va leaf : Nat) (space : GuestSpace) (m : Mem) (S : Shape Nat Nat)
    (r : Rc × GuestSpace × τ × Mem) (S' : Shape Nat Nat) : Prop where
  tree : Tree F r.2.1 r.2.2.1 r.2.2.2 S'
  root : r.2.1.pml4Pfn = space.pml4Pfn
  subset : S.nodes ⊆ S'.nodes
  path : ∀ p ∈ S'.nodes, p ∈ S.nodes ∨ ∃ level, level < 3 ∧ p = pathTo va (level + 1)
  done : r.1 = .ok → pathTo va 3 ∈ S'.nodes
  get : ∀ p, p.length = 3 → ∀ j, S'.get entryCodec r.2.2.2 p j =
    if r.1 = .ok ∧ p = pathTo va 3 ∧ j = pteIndex va then some leaf else S.get entryCodec m p j

variable {leaf : Nat}

theorem Mapped.fail (T : Tree F space t' m' S) (hm : ∀ p ∈ S.nodes, m' (S.addr p) = m (S.addr p)) {rc}
    (hrc : rc ≠ .ok) : Mapped F va leaf space m S (rc, space, t', m') S where
  tree := T
  root := rfl
  subset := Finset.Subset.refl _
  path _ hp := Or.inl hp
  done hok := absurd hok hrc
  get p _ j := by
    rw [if_neg fun hc => hrc hc.1]
    exact Shape.get_congr hm p j

theorem Mapped.write (T : Tree F space t' m S) (hp : pathTo va 3 ∈ S.nodes) (hleaf : isPresent leaf = true) :
    Mapped F va leaf space m S
      (.ok, space, t', m.write (S.addr (pathTo va 3)) (spaceIndex va 3) leaf) S where
  tree := { T with rep := T.rep.write hp (length_pathTo va 3) }
  root := rfl
  subset := Finset.Subset.refl _
  path _ hq := Or.inl hq
  done _ := hp
  get q _ j := by
    rw [Mem.write, T.rep.get_write hp hleaf q j]
    simp [spaceIndex]

theorem Mapped.of_link {level next r S'} (hlv : level < 3) (hc : pathTo va (level + 1) ∉ S.nodes)
    (hl : Linked entryCodec S (pathTo va level) (spaceIndex va level) next m m')
    (M : Mapped F va leaf { space with tables := space.tables + 1 } m'
      (S.insert (pathTo va (level + 1)) next) r S') :
    Mapped F va leaf space m S r S' where
  tree := M.tree
  root := M.root
  subset p hp := M.subset (Shape.mem_insert_nodes.mpr (Or.inr hp))
  path p hp := by
    rcases M.path p hp with hp | hp
    · rcases Shape.mem_insert_nodes.mp hp with rfl | hp
      · exact Or.inr ⟨level, hlv, rfl⟩
      · exact Or.inl hp
    · exact Or.inr hp
  done := M.done
  get p hp j := by
    rw [M.get p hp j]
    rw [← hl.get_insert (by simpa using hlv) hc hp j]
    rfl

variable (va) in
theorem guestMapLevel_mapped (hleaf : isPresent (leafEntry pa flags) = true) (left : Nat) :
    ∀ level {space t m S}, Tree F space t m S → left + level = 3 → pathTo va level ∈ S.nodes →
      ∃ S', Mapped F va (leafEntry pa flags) space m S
        (guestMapLevel h va pa flags left (S.addr (pathTo va level)) space t m) S' := by
  induction left with
  | zero =>
    intro level space t m S T hl hp
    obtain rfl : level = 3 := by omega
    have T1 := T.map (S.addr (pathTo va 3))
    rw [guestMapLevel]
    rcases hmap : h.map t (S.addr (pathTo va 3)) with ⟨_ | _, t1⟩
    · exact ⟨S, Mapped.fail (by simpa [hmap] using T1) (fun _ _ => rfl) (by decide)⟩
    · exact ⟨S, Mapped.write (by simpa [hmap] using T1) hp hleaf⟩
  | succ left ih =>
    intro level space t m S T hl hp
    have T1 := T.map (S.addr (pathTo va level))
    by_cases hc : pathTo va (level + 1) ∈ S.nodes
    · rw [guestMapLevel_present T hl hp hc]
      split
      · exact ih _ T1 (by omega) hc
      · exact ⟨S, Mapped.fail T1 (fun _ _ => rfl) (by decide)⟩
    · rw [guestMapLevel_absent T hl hp hc]
      split
      · rcases hnew : newTable h (h.map t (S.addr (pathTo va level))).2 m with ⟨rc | next, t2, m2⟩
        · obtain ⟨hinv, hrc, hkeep⟩ := F.newTable_error T1.inv hnew
          exact ⟨S, Mapped.fail (T1.congr hinv hkeep) (fun p hp => (hkeep _ (T1.used p hp)).2) hrc⟩
        · have hlv : (pathTo va level).length < 3 := by simp; omega
          obtain ⟨hlink, T2⟩ := T1.link hp hlv hc hnew
          obtain ⟨hinv, hnot, -, -, -, hkeep⟩ := F.newTable_ok T1.inv hnew
          dsimp only
          split
          · obtain ⟨S', M⟩ := ih (level + 1) (T2.map (S.addr (pathTo va level))) (by omega)
              (by simp [pathTo])
            rw [pathTo, Shape.insert_addr_self] at M
            exact ⟨S', Mapped.of_link (by omega) hc hlink M⟩
          · refine ⟨S, Mapped.fail (((T1.congr hinv hkeep).map _).putPage fun q hq he => ?_)
              (fun q hq => (hkeep _ (T1.used q hq)).2) (by decide)⟩
            exact hnot (he ▸ T1.used q hq)
      · exact ⟨S, Mapped.fail T1 (fun _ _ => rfl) (by decide)⟩

variable (va) in
theorem guestMap_mapped (T : Tree F space t m S) (hleaf : isPresent (leafEntry pa flags) = true) :
    ∃ S', Mapped F va (leafEntry pa flags) space m S (guestMap h space va pa flags t m) S' := by
  rw [guestMap]
  split
  · have hwalk := guestMapLevel_mapped va hleaf 3 0 T rfl T.rep.root_mem
    rwa [pathTo, T.rep.root_addr] at hwalk
  · exact ⟨S, Mapped.fail T (fun _ _ => rfl) (by decide)⟩

end MoCoLinux.Arch
