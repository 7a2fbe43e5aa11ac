import MoCoLinux.Cogpu.Chain

/-!
# `cogpu_vring_pop` delivers the bytes of the chain
-/

namespace MoCoLinux.Cogpu

variable {host : Nat → Nat} {resolve : Nat → Nat → Option Nat} {chain chain' : Chain} {bufs bufs' : List Buf}
  {addr len : Nat} {write : Bool} {d : Desc}

theorem ullong_add (a b : Nat) : ullong (ullong a + b) = ullong (a + b) := by
  simp only [ullong, Nat.mod_add_mod]

theorem guestRange_add (addr m n : Nat) :
    guestRange addr (m + n) = guestRange addr m ++ guestRange (ullong (addr + m)) n := by
  simp only [guestRange, List.range_add, List.map_append, List.map_map, List.append_cancel_left_eq]
  refine List.map_congr_left fun k _ => ?_
  simp only [Function.comp_apply]
  rw [ullong_add, Nat.add_assoc]

theorem guestRange_map {p : Nat} (h : ∀ k < len, host (ullong (addr + k)) = p + k) :
    (guestRange addr len).map host = List.range' p len := by
  rw [guestRange, List.map_map, List.range'_eq_map_range]
  exact List.map_congr_left fun k hk => h k (List.mem_range.mp hk)

theorem bufBytes_append (bufs more : List Buf) : bufBytes (bufs ++ more) = bufBytes bufs ++ bufBytes more :=
  List.flatMap_append

theorem bufBytes_singleton (b : Buf) : bufBytes [b] = List.range' b.addr b.len := List.append_nil _

theorem addBuf_bytes (h : addBuf bufs addr len = some bufs') :
    bufBytes bufs' = bufBytes bufs ++ List.range' addr len := by
  rw [addBuf] at h
  rcases List.eq_nil_or_concat bufs with rfl | ⟨front, last, rfl⟩
  · cases h
    exact bufBytes_singleton _
  · rw [List.concat_eq_append] at h ⊢
    rw [List.getLast?_concat] at h
    dsimp only at h
    split at h
    case isTrue hadj =>
      cases h
      rw [List.dropLast_concat, bufBytes_append, bufBytes_append, bufBytes_singleton, bufBytes_singleton,
        List.append_assoc, ← hadj.1, List.range'_append_1]
    case isFalse =>
      split at h
      · cases h
      · cases h
        rw [bufBytes_append, bufBytes_singleton]

structure Adds (chain : Chain) (write : Bool) (bytes : List Nat) (chain' : Chain) : Prop where
  added : bufBytes (chain'.side write) = bufBytes (chain.side write) ++ bytes
  other : chain'.side (!write) = chain.side (!write)

theorem Adds.refl (chain : Chain) (write : Bool) : Adds chain write [] chain := ⟨(List.append_nil _).symm, rfl⟩

theorem Adds.trans {chain'' : Chain} {bytes bytes' : List Nat} (h : Adds chain write bytes chain')
    (h' : Adds chain' write bytes' chain'') : Adds chain write (bytes ++ bytes') chain'' :=
  ⟨by rw [h'.added, h.added, List.append_assoc], h'.other.trans h.other⟩

theorem chainAdd_adds (h : chainAdd chain write addr len = some chain') :
    Adds chain write (List.range' addr len) chain' := by
  rw [chainAdd] at h
  cases write with
  | true =>
    simp only [if_true, Option.map_eq_some_iff] at h
    obtain ⟨bufs, hbufs, rfl⟩ := h
    exact ⟨addBuf_bytes hbufs, rfl⟩
  | false =>
    simp only [Bool.false_eq_true, if_false, Option.map_eq_some_iff] at h
    obtain ⟨bufs, hbufs, rfl⟩ := h
    exact ⟨addBuf_bytes hbufs, rfl⟩

theorem addPages_adds (himg : Images host resolve) {turns left : Nat} (hturns : left ≤ turns)
    (h : addPages resolve write turns addr left chain = some chain') :
    Adds chain write ((guestRange addr left).map host) chain' := by
  induction turns generalizing addr left chain with
  | zero =>
    obtain rfl := Nat.le_zero.mp hturns
    cases h
    exact .refl _ write
  | succ turns ih =>
    rw [addPages] at h
    split at h
    case isTrue hzero =>
      cases h
      subst hzero
      exact .refl _ write
    case isFalse hleft =>
      dsimp only at h
      generalize hpart : min (4096 - addr % 4096) left = part at h
      have hpos : 0 < part := by omega
      have hle : part ≤ left := by omega
      cases hres : resolve addr part with
      | none =>
        rw [hres] at h
        cases h
      | some p =>
        rw [hres] at h
        dsimp only at h
        cases hadd : chainAdd chain write p part with
        | none =>
          rw [hadd] at h
          cases h
        | some next =>
          rw [hadd] at h
          have hrest := ih (by omega) h
          have hfirst := chainAdd_adds hadd
          rw [← himg addr part p hres] at hfirst
          have hsplit : left = part + (left - part) := by omega
          rw [hsplit, guestRange_add, List.map_append]
          exact hfirst.trans hrest

theorem addDesc_adds (himg : Images host resolve) (h : addDesc resolve d chain = some chain') :
    Adds chain d.isWrite (d.range.map host) chain' := by
  rw [addDesc] at h
  split at h
  case isTrue hzero =>
    cases h
    rw [Desc.range, hzero]
    exact .refl chain d.isWrite
  case isFalse =>
    obtain ⟨added, hadded, hcount⟩ := Option.map_eq_some_iff.mp h
    have hpieces : Adds chain d.isWrite (d.range.map host) added := by
      cases hres : resolve d.addr d.len with
      | some p =>
        rw [hres] at hadded
        rw [Desc.range, himg d.addr d.len p hres]
        exact chainAdd_adds hadded
      | none =>
        rw [hres] at hadded
        exact addPages_adds himg (Nat.le_refl _) hadded
    -- The counts of bytes are not part of the lists.
    have hside : ∀ write, chain'.side write = added.side write := by
      intro write
      rw [← hcount]
      cases d.isWrite <;> cases write <;> rfl
    exact ⟨(congrArg bufBytes (hside _)).trans hpieces.added, (hside _).trans hpieces.other⟩

namespace Vring

variable {view : View} {vr : Vring} {num hops i : Nat}

theorem image_cons (host : Nat → Nat) (write : Bool) (d : Desc) (ds : List Desc) :
    image host write (d :: ds) = (if d.isWrite = write then d.range.map host else []) ++ image host write ds := by
  simp only [image, List.filter_cons, beq_iff_eq]
  split
  · rfl
  · rfl

theorem addDesc_side (himg : Images host view.resolve) (h : addDesc view.resolve d chain = some chain') (write : Bool) :
    bufBytes (chain'.side write) =
      bufBytes (chain.side write) ++ if d.isWrite = write then d.range.map host else [] := by
  have hadds := addDesc_adds himg h
  split
  case isTrue hw => exact hw ▸ hadds.added
  case isFalse hw =>
    have hnot : write = !d.isWrite := by
      cases write <;> cases hd : d.isWrite <;> simp_all
    rw [hnot, hadds.other, List.append_nil]

theorem walk_chain (himg : Images host view.resolve) (h : (walk num view hops i chain).1 = some chain') :
    ∃ ds, Linked num view hops i ds ∧
      ∀ write, bufBytes (chain'.side write) = bufBytes (chain.side write) ++ image host write ds := by
  induction hops generalizing i chain with
  | zero =>
    rw [walk] at h
    split at h
    · cases h
    · cases h
  | succ hops ih =>
    rw [walk] at h
    split at h
    case isTrue => cases h
    case isFalse hi =>
      dsimp only at h
      cases hadd : addDesc view.resolve (view.desc hops i) chain with
      | none =>
        rw [hadd] at h
        cases h
      | some next =>
        rw [hadd] at h
        dsimp only at h
        have hside := addDesc_side himg hadd
        split at h
        case isTrue hnext =>
          obtain ⟨ds, hlinked, hbytes⟩ := ih h
          refine ⟨_, .next (Nat.lt_of_not_le hi) hnext hlinked, fun write => ?_⟩
          rw [hbytes write, hside write, image_cons, List.append_assoc]
        case isFalse hnext =>
          cases h
          refine ⟨_, .last (Nat.lt_of_not_le hi) (by simpa using hnext), fun write => ?_⟩
          rw [hside write, image_cons]
          exact congrArg _ (List.append_nil _).symm

theorem visits_append (log more : List Access) : visits (log ++ more) = visits log + visits more := List.countP_append

theorem visits_descReads (i : Nat) (d : Desc) : visits (descReads i d) = 1 := by
  rw [descReads]
  split
  · split <;> simp [visits]
  · split <;> simp [visits]

theorem visits_walk (num : Nat) (view : View) (hops i : Nat) (chain : Chain) :
    visits (walk num view hops i chain).2 ≤ hops := by
  induction hops generalizing i chain with
  | zero =>
    rw [walk]
    split <;> exact Nat.zero_le _
  | succ hops ih =>
    rw [walk]
    split
    · exact Nat.zero_le _
    · dsimp only
      cases addDesc view.resolve (view.desc hops i) chain with
      | none =>
        dsimp only
        rw [visits_descReads]
        omega
      | some next =>
        dsimp only
        split
        · rw [visits_append, visits_descReads]
          have := ih (u16 (view.desc hops i).next) next
          omega
        · rw [visits_descReads]
          omega

theorem hopLimit_le (num : Nat) : hopLimit num ≤ num := by
  rw [hopLimit]
  split
  · exact Nat.le_refl _
  · exact Nat.zero_le _

theorem pop_walk (h : (vr.pop view).1 = some chain) :
    let head := u16 (view.ring (vr.lastAvail % vr.num))
    (walk vr.num view (hopLimit vr.num) head ⟨head, [], [], 0, 0⟩).1 = some chain := by
  rw [pop] at h
  dsimp only at h
  split at h
  · cases h
  · split at h
    · cases h
    · split at h
      · cases h
      · exact h

theorem visits_pop (vr : Vring) (view : View) : visits (vr.pop view).2 ≤ vr.num := by
  rw [pop]
  dsimp only
  split
  · exact Nat.zero_le _
  · split
    · exact Nat.zero_le _
    · split
      · exact Nat.zero_le _
      · rw [visits_append]
        have hwalk := visits_walk vr.num view (hopLimit vr.num) (u16 (view.ring (vr.lastAvail % vr.num)))
          ⟨u16 (view.ring (vr.lastAvail % vr.num)), [], [], 0, 0⟩
        have hlimit := hopLimit_le vr.num
        have hrings : visits [⟨.avail, 2, 2⟩, ⟨.avail, 4 + 2 * (vr.lastAvail % vr.num), 2⟩] = 0 := rfl
        omega

/-- In every state of the rings, with every resolve function that follows a mapping. -/
theorem pop_pops (host : Nat → Nat) (vr : Vring) (view : View) (himg : Images host view.resolve) :
    Pops host vr view where
  visits := visits_pop vr view
  chain chain h := by
    obtain ⟨ds, hlinked, hbytes⟩ := walk_chain himg (pop_walk h)
    refine ⟨by rw [afterPop, h]; rfl, ds, hlinked, ?_, ?_⟩
    · exact (hbytes false).trans (List.nil_append _)
    · exact (hbytes true).trans (List.nil_append _)
  none h := by rw [afterPop, h]

def splitRam : View where
  availIdx := 1
  ring _ := 0
  desc _ i := if i = 0 then ⟨0x1ff0, 32, 1, 1⟩ else ⟨0x2010, 8, 2, 0⟩
  resolve gpa len :=
    if 0x1000 ≤ gpa ∧ gpa + len ≤ 0x2000 then some (gpa + 0x10000)
    else if 0x2000 ≤ gpa ∧ gpa + len ≤ 0x3000 then some (gpa + 0x20000) else none

def splitHost (gpa : Nat) : Nat := if gpa < 0x2000 then gpa + 0x10000 else gpa + 0x20000

theorem splitRam_images : Images splitHost splitRam.resolve := by
  intro gpa len p h
  have hword : ∀ {k}, gpa + len ≤ 0x3000 → k < len → ullong (gpa + k) = gpa + k := fun hle hk => ullong_of_lt (by omega)
  simp only [splitRam] at h
  refine guestRange_map fun k hk => ?_
  split at h
  case isTrue hfirst =>
    cases h
    rw [hword (by omega) hk, splitHost, if_pos (by omega)]
    omega
  case isFalse =>
    split at h
    case isTrue hsecond =>
      cases h
      rw [hword (by omega) hk, splitHost, if_neg (by omega)]
      omega
    case isFalse => cases h

/-- A chain of a readable descriptor over the gap and a writable one. -/
theorem pop_pops_split : ((⟨8, 0, 0⟩ : Vring).pop splitRam).1 =
      some ⟨0, [⟨0x11ff0, 16⟩, ⟨0x22000, 16⟩], [⟨0x22010, 8⟩], 32, 8⟩ ∧ Pops splitHost ⟨8, 0, 0⟩ splitRam :=
  ⟨by decide, pop_pops _ _ _ splitRam_images⟩

end Vring

end MoCoLinux.Cogpu
