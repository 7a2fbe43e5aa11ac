import Mathlib.Data.Finset.Image
import MoCoLinux.Arch.Theorems

/-!
# What becomes of the pages of a space
-/

namespace MoCoLinux.Arch

open RadixTree (Shape Rep)

inductive PageEvent where
  | got (pfn : Nat)
  | gave (pfn : Nat)
  deriving DecidableEq

variable {τ : Type}

/-- The host with a record of what its page allocator gave and was given back, the latest first. -/
def SpaceHost.recorded (h : SpaceHost τ) : SpaceHost (τ × List PageEvent) where
  frameSource := none
  getPage t :=
    match h.getPage t.1 with
    | (.ok pfn, u) => (.ok pfn, u, .got pfn :: t.2)
    | (.error rc, u) => (.error rc, u, t.2)
  putPage t pfn := (h.putPage t.1 pfn, .gave pfn :: t.2)
  map t pfn := ((h.map t.1 pfn).1, (h.map t.1 pfn).2, t.2)

/-- The pages that are out, if every page that came was not out, and every page that went was. -/
def outstanding : List PageEvent → Option (Finset Nat)
  | [] => some ∅
  | .got pfn :: log => (outstanding log).bind fun out => if pfn ∈ out then none else some (insert pfn out)
  | .gave pfn :: log => (outstanding log).bind fun out => if pfn ∈ out then some (out.erase pfn) else none

/-- A space is made, mapped into and destroyed, where `hd` is the host meanwhile: the tables it had, those that were
counted, and the record. -/
def lifetime (h hd : SpaceHost τ) (calls : List MapCall) (t : τ) (m : Mem) :
    Except Rc (Nat × Nat × List PageEvent) :=
  match guestSpaceCreate h.recorded true (t, []) m with
  | (.error rc, _, _) => .error rc
  | (.ok space, t, m) =>
    let (_, space, t, m) := guestMapAll h.recorded calls space t m
    let (freed, t) := guestSpaceDestroy hd.recorded space t m
    .ok (space.tables, freed, t.2)

variable {log : List PageEvent} {out : Finset Nat} {pfn : Nat}

theorem outstanding_got (h : outstanding log = some out) (hp : pfn ∉ out) :
    outstanding (.got pfn :: log) = some (insert pfn out) := by
  simp [outstanding, h, hp]

theorem outstanding_gave (h : outstanding log = some out) (hp : pfn ∈ out) :
    outstanding (.gave pfn :: log) = some (out.erase pfn) := by
  simp [outstanding, h, hp]

theorem outstanding_unused (h : outstanding log = some out) (hp : pfn ∉ out) :
    outstanding (.gave pfn :: .got pfn :: log) = some out := by
  rw [outstanding_gave (outstanding_got h hp) (Finset.mem_insert_self _ _), Finset.erase_insert hp]

theorem outstanding_all {pages : List Nat} (hn : pages.Nodup) : ∀ {log}, outstanding log = some pages.toFinset →
    outstanding ((pages.map PageEvent.gave).reverse ++ log) = some ∅ := by
  induction pages with
  | nil => exact fun h => h
  | cons p pages ih =>
    intro log h
    obtain ⟨hp, hn⟩ := List.nodup_cons.mp hn
    rw [List.toFinset_cons] at h
    have hgave := outstanding_gave h (Finset.mem_insert_self _ _)
    rw [Finset.erase_insert (by simpa using hp)] at hgave
    rw [List.map_cons, List.reverse_cons, List.append_assoc]
    exact ih hn hgave

theorem got_of_outstanding : ∀ {log out}, outstanding log = some out → pfn ∈ out ∨ .gave pfn ∈ log →
    PageEvent.got pfn ∈ log := by
  intro log
  induction log with
  | nil =>
    intro out h hp
    cases h
    simp at hp
  | cons e log ih =>
    intro out h hp
    cases e <;> obtain ⟨out', h', h⟩ := Option.bind_eq_some_iff.mp h <;> split at h <;> cases h
    case got.isFalse.refl p hnot =>
      rcases eq_or_ne pfn p with rfl | hne
      · exact List.mem_cons_self
      · exact List.mem_cons_of_mem _ (ih h' (by simpa [hne] using hp))
    case gave.isTrue.refl p hmem =>
      refine List.mem_cons_of_mem _ (ih h' ?_)
      rcases hp with hp | hp
      · exact .inl (Finset.mem_of_mem_erase hp)
      · rcases List.mem_cons.mp hp with he | hp
        · cases he
          exact .inl hmem
        · exact .inr hp

variable {h : SpaceHost τ} {F : FrameSource h} {t t' : τ × List PageEvent} {m m' : Mem} {r : Except Rc Nat}
variable (hnone : h.frameSource = none)

/-- The page allocator hands out no page that is in use. -/
def Fresh (F : FrameSource h) : Prop :=
  ∀ t pfn u, F.Inv t → h.getPage t = (.ok pfn, u) → ¬ F.used t pfn

include hnone in
theorem newTable_of_recorded (hnew : newTable h.recorded t m = (r, t', m')) : newTable h t.1 m = (r, t'.1, m') := by
  simp only [newTable, hnone, SpaceHost.recorded] at hnew ⊢
  rcases hget : h.getPage t.1 with ⟨rc | pfn, u⟩
  · rw [hget] at hnew
    cases hnew
    rfl
  · rw [hget] at hnew
    rcases hmap : h.map u pfn with ⟨_ | _, v⟩ <;>
    · simp only [hmap] at hnew ⊢
      cases hnew
      rfl

theorem newTable_outstanding (hfresh : Fresh F) (hi : F.Inv t.1) (hout : outstanding t.2 = some out)
    (hused : ∀ p ∈ out, F.used t.1 p) (hnew : newTable h.recorded t m = (r, t', m')) :
    (∀ pfn, r = .ok pfn → pfn ∉ out ∧ t'.2 = .got pfn :: t.2) ∧ ∀ rc, r = .error rc → outstanding t'.2 = some out := by
  simp only [newTable, SpaceHost.recorded] at hnew
  rcases hget : h.getPage t.1 with ⟨rc | pfn, u⟩
  · rw [hget] at hnew
    cases hnew
    exact ⟨fun _ he => (by cases he), fun _ _ => hout⟩
  · have hnot : pfn ∉ out := fun hp => hfresh _ _ _ hi hget (hused pfn hp)
    rw [hget] at hnew
    rcases hmap : h.map u pfn with ⟨_ | _, v⟩ <;> simp only [hmap] at hnew <;> cases hnew
    · exact ⟨fun _ he => (by cases he), fun _ _ => outstanding_unused hout hnot⟩
    · exact ⟨fun _ he => (by cases he; exact ⟨hnot, rfl⟩), fun _ he => (by cases he)⟩

def FrameSource.recorded (F : FrameSource h) : FrameSource h.recorded where
  Inv t := F.Inv t.1
  used t := F.used t.1
  newTable_ok hi hnew := F.newTable_ok hi (newTable_of_recorded hnone hnew)
  newTable_error hi hnew := F.newTable_error hi (newTable_of_recorded hnone hnew)
  map_inv pfn hi := F.map_inv pfn hi
  map_used pfn hq := F.map_used pfn hq
  putPage_inv pfn hi := F.putPage_inv pfn hi
  putPage_used hq hne := F.putPage_used hq hne

/-- The pages that are out are the tables of the space. -/
structure Owned (F : FrameSource h) (space : GuestSpace) (t : τ × List PageEvent) (m : Mem) (S : Shape Nat Nat) :
    Prop extends Tree (F.recorded hnone) space t m S where
  out : outstanding t.2 = some (S.nodes.image S.addr)
  small : ∀ i p, i :: p ∈ S.nodes → i < 512

variable {hnone} {space : GuestSpace} {S : Shape Nat Nat} {va pa flags : Nat}

theorem Owned.map (O : Owned hnone F space t m S) (pfn : Nat) :
    Owned hnone F space (h.recorded.map t pfn).2 m S :=
  ⟨O.toTree.map pfn, O.out, O.small⟩

theorem Owned.newTable (O : Owned hnone F space t m S) (hfresh : Fresh F)
    (hnew : newTable h.recorded t m = (r, t', m')) :
    (∀ pfn, r = .ok pfn → pfn ∉ S.nodes.image S.addr ∧ t'.2 = .got pfn :: t.2) ∧
      ∀ rc, r = .error rc → outstanding t'.2 = some (S.nodes.image S.addr) := by
  refine newTable_outstanding hfresh O.inv O.out (fun p hp => ?_) hnew
  obtain ⟨q, hq, rfl⟩ := Finset.mem_image.mp hp
  exact O.used q hq

theorem spaceIndex_lt (va level : Nat) : spaceIndex va level < 512 := by
  unfold spaceIndex
  split <;> exact Nat.and_lt_two_pow (n := 9) _ (by decide)

theorem Owned.link (O : Owned hnone F space t m S) (hfresh : Fresh F) {level next : Nat} (hlevel : level < 3)
    (hp : pathTo va level ∈ S.nodes) (hc : pathTo va (level + 1) ∉ S.nodes)
    (hnew : Arch.newTable h.recorded t m = (.ok next, t', m')) :
    Owned hnone F { space with tables := space.tables + 1 } t'
      (m'.write (S.addr (pathTo va level)) (spaceIndex va level) (tableEntry next))
      (S.insert (pathTo va (level + 1)) next) := by
  obtain ⟨hnot, hlog⟩ := (O.newTable hfresh hnew).1 next rfl
  refine ⟨(O.toTree.link hp (by simpa using hlevel) hc hnew).2, ?_, fun i p hi => ?_⟩
  · rw [hlog, Shape.image_insert hc]
    exact outstanding_got O.out hnot
  · rcases Shape.mem_insert_nodes.mp hi with he | hi
    · cases he
      exact spaceIndex_lt va level
    · exact O.small i p hi

def Owns (hnone : h.frameSource = none) (F : FrameSource h) (r : GuestSpace × (τ × List PageEvent) × Mem) : Prop :=
  ∃ S, Owned hnone F r.1 r.2.1 r.2.2 S

variable (va pa flags) in
theorem guestMapLevel_owned (hfresh : Fresh F) (left : Nat) :
    ∀ level {space t m S}, Owned hnone F space t m S → left + level = 3 → pathTo va level ∈ S.nodes →
      Owns hnone F (guestMapLevel h.recorded va pa flags left (S.addr (pathTo va level)) space t m).2 := by
  induction left with
  | zero =>
    intro level space t m S O hl hp
    obtain rfl : level = 3 := by omega
    have O1 := O.map (S.addr (pathTo va 3))
    rw [guestMapLevel]
    rcases hmap : h.recorded.map t (S.addr (pathTo va 3)) with ⟨_ | _, t1⟩ <;> rw [hmap] at O1
    · exact ⟨S, O1⟩
    · exact ⟨S, { O1 with rep := O1.rep.write hp (length_pathTo va 3) }, O1.out, O1.small⟩
  | succ left ih =>
    intro level space t m S O hl hp
    have O1 := O.map (S.addr (pathTo va level))
    by_cases hc : pathTo va (level + 1) ∈ S.nodes
    · rw [guestMapLevel_present O.toTree hl hp hc]
      split
      · exact ih _ O1 (by omega) hc
      · exact ⟨S, O1⟩
    rw [guestMapLevel_absent O.toTree hl hp hc]
    split
    case isFalse => exact ⟨S, O1⟩
    case isTrue =>
      rcases hnew : newTable h.recorded (h.recorded.map t (S.addr (pathTo va level))).2 m with ⟨rc | next, t2, m2⟩
      · obtain ⟨hinv, -, hkeep⟩ := (F.recorded hnone).newTable_error O1.inv hnew
        exact ⟨S, O1.toTree.congr hinv hkeep, (O1.newTable hfresh hnew).2 rc rfl, O1.small⟩
      dsimp only
      split
      · have O2 := (O1.link hfresh (by omega) hp hc hnew).map (S.addr (pathTo va level))
        have hrest := ih (level + 1) O2 (by omega) (by simp)
        rwa [Shape.insert_addr_self] at hrest
      · -- the page that was not linked goes back
        obtain ⟨hinv, -, -, -, -, hkeep⟩ := (F.recorded hnone).newTable_ok O1.inv hnew
        obtain ⟨hnot, hlog⟩ := (O1.newTable hfresh hnew).1 next rfl
        refine ⟨S, ((O1.toTree.congr hinv hkeep).map _).putPage fun q hq he => ?_, ?_, O1.small⟩
        · exact hnot (Finset.mem_image.mpr ⟨q, hq, he⟩)
        · show outstanding (.gave next :: t2.2) = _
          rw [hlog]
          exact outstanding_unused O1.out hnot

theorem owns_create {u : τ} {m₀ : Mem} (hinv : F.Inv u) (hfresh : Fresh F)
    (hcreate : guestSpaceCreate h.recorded true (u, []) m₀ = (.ok space, t, m)) : Owns hnone F (space, t, m) := by
  have hinv' : (F.recorded hnone).Inv (u, []) := hinv
  refine ⟨_, (tree_create hinv' hcreate).1, ?_, fun i p hi => (by simp at hi)⟩
  rw [guestSpaceCreate] at hcreate
  rcases hnew : newTable h.recorded (u, []) m₀ with ⟨rc | pfn, t1, m1⟩ <;> rw [hnew] at hcreate <;> cases hcreate
  obtain ⟨-, hlog⟩ := (newTable_outstanding hfresh hinv (show outstanding [] = some ∅ from rfl) (by simp) hnew).1 _ rfl
  dsimp only
  rw [hlog]
  simp [outstanding]

theorem guestMapAll_owned (hfresh : Fresh F) (calls : List MapCall) : ∀ {space t m}, Owns hnone F (space, t, m) →
    Owns hnone F (guestMapAll h.recorded calls space t m).2 := by
  induction calls with
  | nil => exact fun O => O
  | cons c cs ih =>
    rintro space t m ⟨S, O⟩
    have hmap : Owns hnone F (guestMap h.recorded space c.va c.pa c.flags t m).2 := by
      rw [guestMap]
      split
      · have hwalk := guestMapLevel_owned c.va c.pa c.flags hfresh 3 0 O rfl O.rep.root_mem
        rwa [pathTo, O.rep.root_addr] at hwalk
      · exact ⟨S, O⟩
    exact ih hmap

/-- These pages were given back one after the other, and counted. -/
def Gave (pages : List Nat) (s s' : Nat × τ × List PageEvent) : Prop :=
  s'.1 = s.1 + pages.length ∧ s'.2.2 = (pages.map PageEvent.gave).reverse ++ s.2.2

theorem Gave.append {l l' : List Nat} {s s' s'' : Nat × τ × List PageEvent} (h : Gave l s s') (h' : Gave l' s' s'') :
    Gave (l ++ l') s s'' := by
  refine ⟨?_, ?_⟩
  · rw [h'.1, h.1, List.length_append, Nat.add_assoc]
  · rw [h'.2, h.2, List.map_append, List.reverse_append, List.append_assoc]

theorem freeTable_gave {hd : SpaceHost τ} {root : Nat} (hmap : ∀ u pfn, (hd.map u pfn).1 = true)
    (h : Rep entryCodec 3 root m S) (left : Nat) : ∀ {p} s, p ∈ S.nodes → left + p.length = 3 →
      Gave ((S.postorder (List.range 512) left p).map S.addr) s (freeTable hd.recorded m left (S.addr p) s) := by
  induction left with
  | zero => exact fun s _ _ => ⟨rfl, rfl⟩
  | succ left ih =>
    intro p s hp hl
    have hloop : ∀ (is : List Nat) s, Gave (((is.filter (· :: p ∈ S.nodes)).flatMap
        fun i => S.postorder (List.range 512) left (i :: p)).map S.addr) s
        (is.foldl (fun s i => freeEntry (freeTable hd.recorded m left) (m (S.addr p) i) s) s) := by
      intro is
      induction is with
      | nil => exact fun s => ⟨rfl, rfl⟩
      | cons i is ihl =>
        intro s
        have hiff : isPresent (m (S.addr p) i) = true ↔ i :: p ∈ S.nodes := h.present_iff hp (by omega) i
        rw [List.foldl_cons, freeEntry]
        by_cases hi : i :: p ∈ S.nodes
        · have hlarge : isLarge (m (S.addr p) i) = false := by
            rw [h.linked i p hi]
            exact isLarge_tableEntry (h.valid _ hi)
          have htarget : entryPfn (m (S.addr p) i) = S.addr (i :: p) := h.target_eq hi
          rw [hiff.mpr hi, hlarge, htarget, List.filter_cons_of_pos (by simpa using hi), List.flatMap_cons,
            List.map_append]
          exact (ih s hi (by simp; omega)).append (ihl _)
        · have habsent : isPresent (m (S.addr p) i) = false := Bool.eq_false_iff.mpr (mt hiff.mp hi)
          rw [habsent, List.filter_cons_of_neg (by simpa using hi)]
          exact ihl s
    have hput : ∀ s : Nat × τ × List PageEvent, Gave [S.addr p] s (putTable hd.recorded (S.addr p) s) :=
      fun s => ⟨rfl, rfl⟩
    have htrue : hd.recorded.map s.2 (S.addr p) = (true, (hd.map s.2.1 (S.addr p)).2, s.2.2) :=
      Prod.ext (hmap _ _) rfl
    rw [Shape.postorder, List.map_append, freeTable, htrue]
    exact (hloop (List.range 512) (s.1, (hd.map s.2.1 (S.addr p)).2, s.2.2)).append (hput _)

theorem Owned.destroy (O : Owned hnone F space t m S) {hd : SpaceHost τ}
    (hmap : ∀ u pfn, (hd.map u pfn).1 = true) :
    (guestSpaceDestroy hd.recorded space t m).1 = space.tables ∧
      outstanding (guestSpaceDestroy hd.recorded space t m).2.2 = some ∅ := by
  have hall : (S.postorder (List.range 512) 3 []).toFinset = S.nodes :=
    O.rep.toFinset_postorder fun i p hi => List.mem_range.mpr (O.small i p hi)
  have hnodup : (S.postorder (List.range 512) 3 []).Nodup := Shape.nodup_postorder List.nodup_range 3 []
  obtain ⟨hcount, hlog⟩ := freeTable_gave hmap O.rep 3 (0, t) O.rep.root_mem rfl
  rw [O.rep.root_addr] at hcount hlog
  refine ⟨?_, ?_⟩
  · rw [guestSpaceDestroy, hcount, O.tables, ← hall, List.toFinset_card_of_nodup hnodup, List.length_map, Nat.zero_add]
  · rw [guestSpaceDestroy, hlog]
    refine outstanding_all (hnodup.map_on fun p hp q hq => ?_) ?_
    · rw [← List.mem_toFinset, hall] at hp hq
      exact O.rep.inj p hp q hq
    · rw [O.out, ← hall]
      exact congrArg some (by ext; simp)

/-- Wherever the allocator and the mappings fail: every page obtained for a space is returned exactly once, a page
mapped as a leaf is not returned unless it was obtained for a table, and the count of the teardown is right. -/
theorem space_pages_returned (F : FrameSource h) (hnone : h.frameSource = none) (hfresh : Fresh F) (hd : SpaceHost τ)
    (hmap : ∀ u pfn, (hd.map u pfn).1 = true) (calls : List MapCall) (t : τ) (m : Mem) (hinv : F.Inv t)
    {tables freed : Nat} {log : List PageEvent} (hrun : lifetime h hd calls t m = .ok (tables, freed, log)) :
    outstanding log = some ∅ ∧
      (∀ c ∈ calls, PageEvent.got (c.pa / 4096) ∉ log → PageEvent.gave (c.pa / 4096) ∉ log) ∧ freed = tables := by
  rw [lifetime] at hrun
  rcases hcreate : guestSpaceCreate h.recorded true (t, []) m with ⟨rc | space, t1, m1⟩ <;> rw [hcreate] at hrun
  · cases hrun
  cases hrun
  have hnew : Owns hnone F (space, t1, m1) := owns_create hinv hfresh hcreate
  obtain ⟨S, O⟩ := guestMapAll_owned hfresh calls hnew
  obtain ⟨hcount, hout⟩ := O.destroy hmap
  exact ⟨hout, fun c _ hgot hgave => hgot (got_of_outstanding hout (.inr hgave)), hcount⟩

theorem bumpSource_fresh (limit : Nat) (hlimit : limit ≤ 2 ^ 40) : Fresh (bumpSource limit hlimit) := by
  intro t pfn u _ hget
  simp only [bumpHost] at hget
  split at hget <;> cases hget
  exact Nat.lt_irrefl t

def twoCallsLog : List PageEvent :=
  [.gave 1, .gave 5, .gave 2, .gave 3, .gave 4, .got 5, .got 4, .got 3, .got 2, .got 1]

/-- The second call takes the last page for a table and fails at the next one. -/
theorem space_pages_returned_two_calls :
    lifetime (bumpHost 6) (bumpHost 6) twoCalls 1 (fun _ _ => 0) = .ok (5, 5, twoCallsLog) ∧
      outstanding twoCallsLog = some ∅ := by
  have hrun : lifetime (bumpHost 6) (bumpHost 6) twoCalls 1 (fun _ _ => 0) = .ok (5, 5, twoCallsLog) := by decide +kernel
  exact ⟨hrun, (space_pages_returned (bumpSource 6 (by decide)) rfl (bumpSource_fresh 6 (by decide)) (bumpHost 6)
    (fun _ _ => rfl) twoCalls 1 (fun _ _ => 0) trivial hrun).1⟩

/-- The PML4 is mapped in its own space, as `co_arch_guest_map_own_tables` does it, and is returned. -/
theorem leaf_table_returned : ∃ log,
    lifetime (bumpHost 6) (bumpHost 6) [⟨0xffff888000001000, 0x1000, 0x63⟩] 1 (fun _ _ => 0) = .ok (4, 4, log) ∧
      PageEvent.gave (0x1000 / 4096) ∈ log :=
  ⟨[.gave 1, .gave 2, .gave 3, .gave 4, .got 4, .got 3, .got 2, .got 1], by decide +kernel⟩

end MoCoLinux.Arch
