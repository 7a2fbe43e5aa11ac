import MoCoLinux.Cogpu.Iovec
import MoCoLinux.Cogpu.Theorems.Chain
import MoCoLinux.Cogpu.Theorems.Slices
import MoCoLinux.Net.Lemmas.Record

/-!
# The iovecs of RESOURCE_ATTACH_BACKING: results
-/

namespace MoCoLinux.Cogpu

open Net (le32)

variable {mem : Nat → UInt8} {buf : Buf} {bufs : List Buf} {skip want : Nat} {done : List UInt8}

/-! ## The bytes of the request -/

@[simp] theorem Buf.content_length (mem : Nat → UInt8) (b : Buf) : (b.content mem).length = b.len := by
  simp [Buf.content, Buf.bytes]

@[simp] theorem readable_nil : readable mem [] = [] := rfl

theorem readable_cons : readable mem (buf :: bufs) = buf.content mem ++ readable mem bufs := by
  simp [readable, bufBytes, Buf.content]

theorem take_append_take {α : Type} (l r : List α) (n : Nat) : (l.take n ++ r).take n = (l ++ r).take n := by
  rcases Nat.le_total n l.length with h | h
  · rw [List.take_append_of_le_length (by rw [List.length_take_of_le h]), List.take_take, Nat.min_self,
      List.take_append_of_le_length h]
  · rw [List.take_of_length_le h]

theorem gatherBytes_eq (h : done.length ≤ want) :
    gatherBytes mem want bufs done = (done ++ readable mem bufs).take want := by
  induction bufs generalizing done with
  | nil => rw [gatherBytes, readable_nil, List.append_nil, List.take_of_length_le h]
  | cons buf bufs ih =>
    rw [gatherBytes, readable_cons]
    split
    · have hlen : (done ++ (buf.content mem).take (want - done.length)).length ≤ want := by
        simp only [List.length_append, List.length_take]
        omega
      rw [ih hlen, List.append_assoc, List.take_append, take_append_take, ← List.take_append]
    · rw [List.take_append_of_le_length (by omega), List.take_of_length_le h]

theorem gather_eq (h : skip ≤ buf.len) :
    gather mem (buf :: bufs) skip want = ((readable mem (buf :: bufs)).drop skip).take want := by
  have hfirst : (if buf.len ≤ skip then [] else ((buf.content mem).drop skip).take want) =
      ((buf.content mem).drop skip).take want := by
    split
    · rw [List.drop_eq_nil_of_le (by simpa), List.take_nil]
    · rfl
  have hlen : (((buf.content mem).drop skip).take want).length ≤ want := List.length_take_le ..
  rw [gather, hfirst, gatherBytes_eq hlen, take_append_take, readable_cons, List.drop_append_of_le_length (by simpa)]

theorem le32_content (bufs : List Buf) {k : Nat} (h : k + 4 ≤ buf.len) :
    le32 ((buf.content mem).drop k) = le32 ((readable mem (buf :: bufs)).drop k) := by
  have hdrop : 4 ≤ ((buf.content mem).drop k).length := by
    rw [List.length_drop, Buf.content_length]
    omega
  have hle : k ≤ (buf.content mem).length := by
    rw [Buf.content_length]
    omega
  rw [← Net.le32_take (List.drop k (readable mem (buf :: bufs))), readable_cons, List.drop_append_of_le_length hle,
    List.take_append_of_le_length hdrop, Net.le32_take]

theorem le32_lt (bytes : List UInt8) : le32 bytes < 2 ^ 32 := by
  unfold le32
  split
  · rename_i b₀ b₁ b₂ b₃ _
    have hb₀ := b₀.toNat_lt
    have hb₁ := b₁.toNat_lt
    have hb₂ := b₂.toNat_lt
    have hb₃ := b₃.toNat_lt
    simp only [Nat.shiftLeft_eq]
    refine Nat.or_lt_two_pow (Nat.or_lt_two_pow (Nat.or_lt_two_pow ?_ ?_) ?_) ?_ <;> omega
  · decide

theorem entriesOf_length_lt (count : Nat) (list : List UInt8) : ∀ e ∈ entriesOf count list, e.2 < 2 ^ 32 := by
  intro e he
  obtain ⟨i, -, rfl⟩ := List.mem_map.mp he
  exact le32_lt _

namespace Backing

variable {s s' s'' : Backing} {host : Host} {kmap : Kmap} {gpa len fin addr left room resId : Nat} {sl : Slice}
  {m : Mapping} {b : Build} {iov : List Buf} {ranges : List Nat} {entries : List (Nat × Nat)} {a : Answers}

/-! ## Mappings stay -/

structure Grows (s s' : Backing) : Prop where
  slices : ∀ sl ∈ s.slices, sl ∈ s'.slices
  view : s'.ramView = s.ramView
  base : s'.windowBase = s.windowBase

theorem Grows.refl (s : Backing) : s.Grows s := ⟨fun _ hsl => hsl, rfl, rfl⟩

theorem Grows.trans (h : s.Grows s') (h' : s'.Grows s'') : s.Grows s'' :=
  ⟨fun sl hsl => h'.slices sl (h.slices sl hsl), h'.view.trans h.view, h'.base.trans h.base⟩

theorem Grows.covers (h : s.Grows s') (hm : m.Covers s gpa fin) : m.Covers s' gpa fin := by
  cases m with
  | view =>
    obtain ⟨hbase, bytes, hview, hle⟩ := hm
    exact ⟨h.base.symm ▸ hbase, bytes, h.view.trans hview, hle⟩
  | slice sl => exact ⟨h.slices sl hm.1, hm.2⟩

theorem findSlice_grows (s : Backing) (gpa len : Nat) : s.Grows (s.findSlice gpa len).2 := by
  rw [findSlice]
  split
  · exact .refl s
  · split
    · exact ⟨fun _ hsl => hsl, rfl, rfl⟩
    · exact .refl s

theorem sliceMapLocked_grows (s : Backing) (kmap : Kmap) (gpa : Nat) : s.Grows (s.sliceMapLocked kmap gpa).2 := by
  have hfind := s.findSlice_grows gpa 1
  rw [sliceMapLocked]
  rcases heq : s.findSlice gpa 1 with ⟨_ | sl, s₁⟩ <;> rw [heq] at hfind
  · dsimp only
    split
    · exact hfind
    · split
      · exact hfind
      · split
        · exact hfind
        · exact hfind.trans ⟨fun _ hsl => List.mem_cons_of_mem _ hsl, rfl, rfl⟩
  · exact hfind

theorem mapSlice_grows (s : Backing) (kmap : Kmap) (gpa : Nat) : s.Grows (s.mapSlice kmap gpa).2 := by
  have hfind := s.findSlice_grows gpa 1
  rw [mapSlice]
  rcases heq : s.findSlice gpa 1 with ⟨_ | sl, s₁⟩ <;> rw [heq] at hfind
  · exact hfind.trans (s₁.sliceMapLocked_grows kmap gpa)
  · exact hfind

theorem resolveRun_grows (s : Backing) (kmap : Kmap) (gpa len : Nat) : s.Grows (s.resolveRun kmap gpa len).2 := by
  have hmap := s.mapSlice_grows kmap gpa
  rw [resolveRun]
  split
  · exact .refl s
  · rcases heq : s.mapSlice kmap gpa with ⟨_ | sl, s₁⟩ <;> rw [heq] at hmap <;> exact hmap

theorem resolveMapping_grows (s : Backing) (kmap : Kmap) (gpa len : Nat) :
    s.Grows (s.resolveMapping kmap gpa len).2 := by
  have hfind := s.findSlice_grows gpa len
  rw [resolveMapping]
  split
  · exact .refl s
  · rcases heq : s.findSlice gpa len with ⟨_ | sl, s₁⟩ <;> rw [heq] at hfind
    · have hmap := hfind.trans (s₁.mapSlice_grows kmap gpa)
      dsimp only
      rcases heq : s₁.mapSlice kmap gpa with ⟨_ | sl, s₂⟩ <;> rw [heq] at hmap
      · exact hmap
      · dsimp only
        split <;> exact hmap
    · exact hfind

theorem pinCollectAdd_grows (s : Backing) (pc : PinCollect) (gpa : Nat) : s.Grows (s.pinCollectAdd pc gpa).2 := by
  have hfind := s.findSlice_grows gpa 1
  rw [pinCollectAdd]
  rcases heq : s.findSlice gpa 1 with ⟨_ | sl, s₁⟩ <;> rw [heq] at hfind
  · exact hfind
  · dsimp only
    split
    · exact hfind
    · split <;> exact hfind

theorem resPinsDrop_grows (s : Backing) (resId : Nat) : s.Grows (s.resPinsDrop resId) := by
  rw [resPinsDrop]
  split
  · exact .refl s
  · split <;> exact ⟨fun _ hsl => hsl, rfl, rfl⟩

theorem resPinsCommit_grows (s : Backing) (own grows : Bool) (resId : Nat) (pc : PinCollect) :
    s.Grows (s.resPinsCommit own grows resId pc).2 := by
  have hdrop := s.resPinsDrop_grows resId
  rw [resPinsCommit]
  split
  · exact .refl s
  · dsimp only
    split
    · exact hdrop
    · split
      · exact hdrop
      · split
        · exact hdrop
        · exact hdrop.trans ⟨fun _ hsl => hsl, rfl, rfl⟩

/-! ## Resolving -/

theorem resolveMapping_target (s : Backing) (kmap : Kmap) (gpa len : Nat) :
    s.resolveGpa kmap gpa len =
      ((s.resolveMapping kmap gpa len).1.map Mapping.target, (s.resolveMapping kmap gpa len).2) := by
  rw [resolveGpa, resolveMapping]
  split
  · rfl
  · rcases s.findSlice gpa len with ⟨_ | sl, s₁⟩
    · dsimp only
      rcases s₁.mapSlice kmap gpa with ⟨_ | sl, s₂⟩
      · rfl
      · dsimp only
        split <;> rfl
    · rfl

theorem ramViewPtr_covers (h : s.ramViewPtr gpa len = true) : Mapping.Covers s gpa (gpa + len) .view := by
  rw [ramViewPtr] at h
  split at h
  · cases h
  · rename_i bytes hview
    obtain ⟨-, -, hbase, hle⟩ := of_decide_eq_true h
    exact ⟨hbase, bytes, hview, hle⟩

theorem Inv.resolveMapping (h : s.Inv) (kmap : Kmap) (gpa : Nat) (hlen : len < 2 ^ 64) {m : Mapping}
    (hm : (s.resolveMapping kmap gpa len).1 = some m) :
    m.Covers (s.resolveMapping kmap gpa len).2 gpa (gpa + len) := by
  rw [Backing.resolveMapping] at hm ⊢
  split
  · rename_i hview
    rw [if_pos hview] at hm
    cases hm
    exact ramViewPtr_covers hview
  · rename_i hview
    rw [if_neg hview] at hm
    have hfind := h.findSlice gpa hlen
    rcases heq : s.findSlice gpa len with ⟨_ | sl, s₁⟩ <;> rw [heq] at hfind hm
    · have hmap := hfind.1.inv.mapSlice kmap gpa
      dsimp only at hm ⊢
      rcases heq : s₁.mapSlice kmap gpa with ⟨_ | sl, s₂⟩ <;> rw [heq] at hmap hm
      · cases hm
      · dsimp only at hm ⊢
        split
        · rename_i hout
          rw [if_pos hout] at hm
          cases hm
        · rename_i hin
          rw [if_neg hin] at hm
          cases hm
          have hfound := hmap.2 sl rfl
          exact ⟨hfound.mem, hfound.spans.1, by omega⟩
    · cases hm
      have hfound := hfind.2 sl rfl
      exact ⟨hfound.mem, hfound.spans⟩

/-! ## The loops -/

theorem iovEntry_fst (host : Host) (kmap : Kmap) (room addr left : Nat) (b : Build) (iov : List Buf) :
    (iovEntry host kmap room addr left b iov).1 = buildEntry kmap room addr left b := by
  induction room generalizing addr left b iov with
  | zero =>
    rw [iovEntry, buildEntry]
    split
    · rfl
    · rcases b.s.resolveRun kmap addr left with ⟨_ | run, s₁⟩ <;> rfl
  | succ room ih =>
    rw [iovEntry, buildEntry]
    split
    · rfl
    · rcases b.s.resolveRun kmap addr left with ⟨_ | run, s₁⟩
      · rfl
      · dsimp only
        rw [resolveMapping_target]
        rcases s₁.resolveMapping kmap addr (run + 1) with ⟨_ | m, s₂⟩
        · rfl
        · exact ih ..

theorem iovEntries_fst (host : Host) (kmap : Kmap) (entries : List (Nat × Nat)) (b : Build × List Buf) :
    (iovEntries host kmap entries b).1 = buildEntries kmap entries b.1 := by
  induction entries generalizing b with
  | nil => rfl
  | cons e entries ih =>
    rw [iovEntries, buildEntries]
    split
    · rfl
    · rw [ih, iovEntry_fst]

/-! ## Where the iovecs point -/

theorem Laid.nil (host : Host) (s : Backing) : Laid host s [] [] := ⟨[], rfl, by simp, rfl⟩

theorem Laid.grows (h : Laid host s iov ranges) (hgrows : s.Grows s') : Laid host s' iov ranges := by
  obtain ⟨pieces, hiov, hcovers, hranges⟩ := h
  exact ⟨pieces, hiov, fun p hp => hgrows.covers (hcovers p hp), hranges⟩

theorem Laid.append (h : Laid host s iov ranges) (hm : m.Covers s gpa (gpa + len)) :
    Laid host s (iov ++ [⟨m.ptr host gpa, len⟩]) (ranges ++ List.range' gpa len) := by
  obtain ⟨pieces, rfl, hcovers, rfl⟩ := h
  refine ⟨pieces ++ [⟨m, gpa, len⟩], ?_, fun p hp => ?_, ?_⟩
  · rw [List.map_append]
    rfl
  · rcases List.mem_append.mp hp with hp | hp
    · exact hcovers p hp
    · obtain rfl := List.mem_singleton.mp hp
      exact hm
  · rw [List.flatMap_append, List.flatMap_singleton]
    rfl

theorem iovEntry_laid (hinv : b.s.Inv) (hleft : left < 2 ^ 64) (h : Laid host b.s iov ranges)
    (hbad : (iovEntry host kmap room addr left b iov).1.bad = false) :
    Laid host (iovEntry host kmap room addr left b iov).1.s (iovEntry host kmap room addr left b iov).2
      (ranges ++ List.range' addr left) := by
  induction room generalizing addr left b iov ranges with
  | zero =>
    rw [iovEntry] at hbad ⊢
    split
    · rename_i hzero
      rw [hzero, List.range'_zero, List.append_nil]
      exact h
    · rename_i hpos
      rw [if_neg hpos] at hbad
      split at hbad <;> cases hbad
  | succ room ih =>
    rw [iovEntry] at hbad ⊢
    split
    · rename_i hzero
      rw [hzero, List.range'_zero, List.append_nil]
      exact h
    · rename_i hpos
      rw [if_neg hpos] at hbad
      have hrun := hinv.resolveRun kmap addr left
      have hgrows := b.s.resolveRun_grows kmap addr left
      rcases heq : b.s.resolveRun kmap addr left with ⟨_ | run, s₁⟩ <;> rw [heq] at hrun hgrows hbad
      · cases hbad
      · obtain ⟨hext, hle⟩ := hrun
        dsimp only at hext hle hgrows hbad ⊢
        have hlen : run + 1 < 2 ^ 64 := Nat.lt_of_le_of_lt hle hleft
        have hinv' := (hext.inv.resolveGpa kmap addr hlen).1.inv
        rw [resolveMapping_target] at hinv'
        have hgrows' := s₁.resolveMapping_grows kmap addr (run + 1)
        have hcovers := fun m => hext.inv.resolveMapping kmap addr hlen (m := m)
        rcases heq : s₁.resolveMapping kmap addr (run + 1) with ⟨_ | m, s₂⟩ <;>
          rw [heq] at hinv' hgrows' hcovers hbad
        · cases hbad
        · dsimp only at hinv' hgrows' hcovers hbad ⊢
          -- what was mapped stays mapped while the pins are collected
          have hpin := s₂.pinCollectAdd_grows b.pins addr
          have hlaid := ((h.grows (hgrows.trans hgrows')).append (hcovers m rfl)).grows hpin
          have hrest := ih (b := ⟨(s₂.pinCollectAdd b.pins addr).2, _, _, _⟩)
            (hinv'.pinCollectAdd b.pins addr).inv (by omega) hlaid hbad
          rw [List.append_assoc, List.range'_append_1, Nat.add_sub_cancel' hle] at hrest
          exact hrest

theorem buildEntries_bad (hb : b.bad = true) : buildEntries kmap entries b = b := by
  cases entries with
  | nil => rfl
  | cons e entries => rw [buildEntries, if_pos hb]

theorem iovEntries_laid (kmap : Kmap) {c : Build × List Buf} (hbuilt : Built s c.1) (hlen : ∀ e ∈ entries, e.2 < 2 ^ 32)
    (h : Laid host c.1.s c.2 ranges) (hbad : (iovEntries host kmap entries c).1.bad = false) :
    Laid host (iovEntries host kmap entries c).1.s (iovEntries host kmap entries c).2
      (ranges ++ entryRanges entries) := by
  induction entries generalizing c ranges with
  | nil =>
    rw [entryRanges, List.flatMap_nil, List.append_nil]
    exact h
  | cons e entries ih =>
    obtain ⟨addr, len⟩ := e
    rw [iovEntries] at hbad ⊢
    split
    · rename_i hc
      rw [if_pos hc, hc] at hbad
      cases hbad
    · rename_i hc
      rw [if_neg hc] at hbad
      have hle : len < 2 ^ 64 := Nat.lt_trans (hlen (addr, len) List.mem_cons_self) (by decide)
      have hentry : (iovEntry host kmap (iovLimit - c.1.iov.length) addr len c.1 c.2).1.bad = false := by
        by_contra hb
        rw [iovEntries_fst, buildEntries_bad (eq_true_of_ne_false hb)] at hbad
        exact hb hbad
      have hlaid := iovEntry_laid hbuilt.extended.inv hle h hentry
      have hbuilt' := hbuilt.buildEntry hle kmap (iovLimit - c.1.iov.length) addr
      rw [← iovEntry_fst host kmap _ addr len c.1 c.2] at hbuilt'
      have hrest := ih hbuilt' (fun e he => hlen e (List.mem_cons_of_mem _ he)) hlaid hbad
      rw [List.append_assoc] at hrest
      exact hrest

theorem Inv.attachEntries (h : s.Inv) (hlen : ∀ e ∈ entries, e.2 < 2 ^ 32)
    (hok : (attachEntries host s resId entries a).1 = some iov) :
    Laid host (attachEntries host s resId entries a).2 iov (entryRanges entries) := by
  have hbuilt : Built s (⟨s, ⟨[], false⟩, [], false⟩ : Build) :=
    ⟨h.refl, List.nodup_nil, by simp, by simp [sliceIds]⟩
  have hlaid := iovEntries_laid a.kmap (c := (⟨s, ⟨[], false⟩, [], false⟩, [])) hbuilt hlen (Laid.nil host s)
  rw [Backing.attachEntries] at hok ⊢
  generalize iovEntries host a.kmap entries (⟨s, ⟨[], false⟩, [], false⟩, []) = c at hok hlaid ⊢
  split
  · rename_i hbad
    rw [if_pos hbad] at hok
    cases hok
  · rename_i hbad
    rw [if_neg hbad] at hok
    have hcommit := c.1.s.resPinsCommit_grows a.own a.grows resId c.1.pins
    rcases heq : c.1.s.resPinsCommit a.own a.grows resId c.1.pins with ⟨_ | _, s₁⟩ <;> rw [heq] at hcommit hok
    · cases hok
    · dsimp only at hcommit hok ⊢
      split
      · rename_i hno
        rw [if_pos hno] at hok
        cases hok
      · rename_i hyes
        rw [if_neg hyes] at hok
        obtain rfl := Option.some.inj hok
        have hhold : s₁.Grows (s₁.hold resId c.1.iov) := ⟨fun _ hsl => hsl, rfl, rfl⟩
        exact (hlaid (eq_false_of_ne_true hbad)).grows (hcommit.trans hhold)

/-! ## Runs -/

theorem Built.commit_inv (hb : Built s b) (own grows : Bool) (resId : Nat) :
    (b.s.resPinsCommit own grows resId b.pins).2.Inv := by
  rcases hb.extended.inv.resPinsCommit hb.nodup hb.mapped own grows resId with hc | ⟨-, hc⟩ | ⟨t, hc, -, hinv, -⟩ <;>
    rw [hc]
  · exact hb.extended.inv
  · exact (hb.extended.inv.resPinsDrop resId).1
  · exact hinv

theorem Inv.hold (h : s.Inv) (resId : Nat) (iov : List Target) : (s.hold resId iov).Inv := { h with }

theorem Inv.attachBacking (h : s.Inv) (hlen : ∀ e ∈ entries, e.2 < 2 ^ 32) :
    (s.attachBacking resId entries a).Inv := by
  have hb := h.build hlen a.kmap
  have hc := hb.commit_inv a.own a.grows resId
  rw [Backing.attachBacking]
  split
  · exact h
  · dsimp only
    split
    · exact hb.extended.inv
    · rcases heq : (s.build a.kmap entries).s.resPinsCommit a.own a.grows resId (s.build a.kmap entries).pins with
        ⟨_ | _, s₁⟩ <;> rw [heq] at hc
      · exact hc
      · dsimp only
        split
        · exact (hc.resPinsDrop resId).1
        · exact hc.hold ..

theorem Inv.createBlob (h : s.Inv) (hlen : ∀ e ∈ entries, e.2 < 2 ^ 32) : (s.createBlob resId entries a).Inv := by
  have hb := h.build hlen a.kmap
  have hc := hb.commit_inv a.own a.grows resId
  rw [Backing.createBlob]
  split
  · exact h
  · dsimp only
    split
    · exact hb.extended.inv
    · split
      · split
        · exact hb.extended.inv.hold ..
        · exact hb.extended.inv
      · rcases heq : (s.build a.kmap entries).s.resPinsCommit a.own a.grows resId (s.build a.kmap entries).pins with
          ⟨_ | _, s₁⟩ <;> rw [heq] at hc
        · exact hc
        · dsimp only
          split
          · exact hc.hold ..
          · exact (hc.resPinsDrop resId).1

theorem Inv.step (h : s.Inv) {request : Request} (hl : s.Legal request) : (s.step request).Inv := by
  cases request with
  | attachBacking resId entries a => exact h.attachBacking hl
  | createBlob resId entries a => exact h.createBlob hl
  | detachBacking resId => exact ((h.hold resId []).resPinsDrop resId).1
  | unref resId => exact ((h.hold resId []).resPinsDrop resId).1
  | resolve kmap gpa len => exact (h.resolveGpa kmap gpa (Nat.lt_trans hl (by decide))).1.inv
  | resolvePinned kmap gpa len => exact (h.resolveGpaPinned kmap gpa len).1
  | unpin token => exact h.unpin hl
  | evict raised => exact (Inv.slicesEvict (s := { s with clock := s.clock + 1 }) { h with } raised).1

theorem Reachable.inv {ok : Backing → Request → Prop} (h : Reachable ok s) : s.Inv := by
  refine Runs.Reach.invariant (P := Inv) (fun s hs => hs.sound.inv) (fun s request s' hinv hs => ?_) h
  obtain ⟨hl, -, rfl⟩ := hs
  exact hinv.step hl

/-- In every state of the slices and for every chain: where RESOURCE_ATTACH_BACKING is answered OK, the renderer got
iovecs that are, one after the other, the guest ranges of the list in the readable pieces, each in one mapping. -/
theorem attach_laid (host : Host) (s : Backing) (h : Reachable (fun _ _ => True) s) (mem : Nat → UInt8)
    (ins : List Buf) (a : Answers) (iov : List Buf) (hok : (attachChain host s mem ins a).1 = some iov) :
    let count := le32 ((readable mem ins).drop (headerBytes + 4))
    let list := ((readable mem ins).drop (headerBytes + 8)).take (count * entryBytes)
    list.length = count * entryBytes ∧
      Laid host (attachChain host s mem ins a).2 iov (entryRanges (entriesOf count list)) := by
  cases ins with
  | nil => cases hok
  | cons inp rest =>
    rw [attachChain] at hok ⊢
    split
    · rename_i hshort
      rw [if_pos hshort] at hok
      cases hok
    · rename_i hshort
      rw [if_neg hshort] at hok
      have hskip : headerBytes + 8 ≤ inp.len := Nat.not_lt.mp hshort
      rw [le32_content rest (by omega : headerBytes + 4 + 4 ≤ inp.len)] at hok ⊢
      generalize le32 ((readable mem (inp :: rest)).drop (headerBytes + 4)) = count at hok ⊢
      dsimp only at hok ⊢
      split
      · rename_i hcount
        rw [if_pos hcount] at hok
        cases hok
      · rename_i hcount
        rw [if_neg hcount] at hok
        have hwant : u32 (count * entryBytes) = count * entryBytes := by
          refine Nat.mod_eq_of_lt ?_
          have hle : count ≤ 16384 := Nat.not_lt.mp (not_or.mp hcount).2
          rw [show entryBytes = 16 from rfl]
          omega
        rw [hwant, gather_eq hskip] at hok ⊢
        split
        · rename_i hgot
          rw [if_pos hgot] at hok
          cases hok
        · rename_i hgot
          rw [if_neg hgot] at hok
          have hgot := Nat.not_lt.mp (not_or.mp hgot).2
          exact ⟨Nat.le_antisymm (List.length_take_le ..) hgot, h.inv.attachEntries (entriesOf_length_lt _ _) hok⟩

/-- A request for resource 7 with one entry, of 8192 bytes at 0xbff000; the entry is cut after its address. -/
def cutRequest : Nat → UInt8
  | 24 => 7
  | 28 => 1
  | 33 => 0xf0
  | 34 => 0xbf
  | 1001 => 0x20
  | _ => 0

def slicesAt : Host := ⟨0, fun id => 2 ^ 40 + id * 2 ^ 24⟩

/-- The range crosses from one slice to the next. -/
theorem attach_laid_cut :
    (attachChain slicesAt started cutRequest [⟨0, 40⟩, ⟨1000, 8⟩] (fullSlices true)).1 =
      some [⟨2 ^ 40 + 0xbff000, 4096⟩, ⟨2 ^ 40 + 2 ^ 24, 4096⟩] ∧
    Laid slicesAt (attachChain slicesAt started cutRequest [⟨0, 40⟩, ⟨1000, 8⟩] (fullSlices true)).2
      [⟨2 ^ 40 + 0xbff000, 4096⟩, ⟨2 ^ 40 + 2 ^ 24, 4096⟩] (entryRanges [(0xbff000, 8192)]) := by
  have hok : (attachChain slicesAt started cutRequest [⟨0, 40⟩, ⟨1000, 8⟩] (fullSlices true)).1 =
      some [⟨2 ^ 40 + 0xbff000, 4096⟩, ⟨2 ^ 40 + 2 ^ 24, 4096⟩] := by decide +kernel
  have hlaid := (attach_laid slicesAt started (.start started_start) cutRequest _ _ _ hok).2
  have hentries : entriesOf 1 (((readable cutRequest [⟨0, 40⟩, ⟨1000, 8⟩]).drop 32).take 16) = [(0xbff000, 8192)] := by
    decide +kernel
  have hcount : le32 ((readable cutRequest [⟨0, 40⟩, ⟨1000, 8⟩]).drop 28) = 1 := by decide +kernel
  simp only [headerBytes, entryBytes, Nat.reduceAdd, hcount, Nat.one_mul, hentries] at hlaid
  exact ⟨hok, hlaid⟩

end Backing

end MoCoLinux.Cogpu
