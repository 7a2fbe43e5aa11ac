import MoCoLinux.Net.Lemmas.Record
import MoCoLinux.Net.Walk

/-!
# Walking a copy of the transmit ring: theorems
-/

namespace MoCoLinux.Net.Walk

variable {σ : Type} {ring : Nat → UInt8} {func : Option (σ → Frame → Bool × σ)} {head tail pos : Nat} {data : σ}

theorem offset_eq (pos : Nat) : offset pos = pos % ringSize := and_ringMask pos

theorem offset_lt (pos : Nat) : offset pos < ringSize := by
  rw [offset_eq]
  exact Nat.mod_lt _ (by decide)

theorem length_frameIn (off len : Nat) : (Tx.frameIn ring off len).length = len := by
  simp only [Tx.frameIn, List.length_append, length_bytesAt]
  split <;> omega

theorem frameReads_lt {off len i : Nat} (hoff : off < ringSize) (hlen : len ≤ maxFrame)
    (hi : i ∈ frameReads off len) : i < ringSize := by
  have hsize : ringSize = 131072 := rfl
  have hmax : maxFrame = 1514 := rfl
  simp only [frameReads, List.mem_append, List.mem_range'_1] at hi
  split at hi <;> omega

theorem word_lt_iff (off : Nat) : (∀ i ∈ List.range' off 4, i < ringSize) ↔ off + 4 ≤ ringSize := by
  constructor
  · intro h
    have hlast := h (off + 3) (List.mem_range'_1.mpr ⟨by omega, by omega⟩)
    omega
  · intro h i hi
    have hrange := List.mem_range'_1.mp hi
    omega

theorem next_left (hhead : head < 2 ^ 32) (h : ¬ Corrupt ring head pos) :
    u32Sub head (next ring pos) + 8 ≤ u32Sub head pos ∧ next ring pos < 2 ^ 32 := by
  simp only [Corrupt, not_or, Nat.not_lt] at h
  obtain ⟨hzero, hmax, hfit⟩ := h
  have hrecord := recordBytes_eq hmax
  rw [next]
  simp only [u32Sub, u32] at hfit ⊢
  omega

theorem straight_head : Straight ring func head data head := by
  intro p hp hne
  cases hp with
  | here => exact absurd rfl hne
  | next hhead => exact absurd rfl hhead

theorem straight_iff (hne : pos ≠ head) : Straight ring func head data pos ↔ offset pos + 4 ≤ ringSize ∧
    (¬ Corrupt ring head pos → (call func data (frameAt ring pos)).1 = true →
      Straight ring func head (call func data (frameAt ring pos)).2 (next ring pos)) := by
  constructor
  · exact fun h => ⟨h pos .here hne, fun hok hgoes p hp => h p (.next hne hok hgoes hp)⟩
  · rintro ⟨hhere, hrest⟩ p hp hpne
    cases hp with
    | here => exact hhere
    | next _ hok hgoes hp => exact hrest hok hgoes p hp hpne

theorem loop_contained (hhead : head < 2 ^ 32) (fuel : Nat) : ∀ {pos} {w : Walk σ}, pos < 2 ^ 32 → w.consumed = pos →
    u32Sub head pos < fuel → (∀ frame ∈ w.handed, frame.length ≤ maxFrame) →
    ∃ w', loop ring func head fuel pos w = some w' ∧
      ((∀ i ∈ w'.reads, i < ringSize) ↔ (∀ i ∈ w.reads, i < ringSize) ∧ Straight ring func head w.data pos) ∧
      (∀ frame ∈ w'.handed, frame.length ≤ maxFrame) ∧
      u32Sub head w'.consumed ≤ u32Sub head pos ∧ w'.consumed < 2 ^ 32 := by
  induction fuel with
  | zero => intro pos w _ _ hfuel; omega
  | succ fuel ih =>
    intro pos w hpos hw hfuel hframes
    rw [loop]
    by_cases heq : pos = head
    · rw [if_pos heq]
      exact ⟨w, rfl, (and_iff_left (heq ▸ straight_head)).symm, hframes, by rw [hw], by omega⟩
    rw [if_neg heq, straight_iff heq]
    by_cases hbad : Corrupt ring head pos
    · rw [if_pos hbad]
      refine ⟨_, rfl, ?_, hframes, by rw [hw], by dsimp only; omega⟩
      simp only [List.forall_mem_append, word_lt_iff]
      exact and_congr_right fun _ => (and_iff_left fun h => absurd hbad h).symm
    rw [if_neg hbad]
    have hlen : lengthAt ring pos ≤ maxFrame := by
      unfold Corrupt at hbad
      omega
    have hoff := offset_lt (offset pos + 4)
    have hframe : ∀ frame ∈ w.handed ++ [frameAt ring pos], frame.length ≤ maxFrame := by
      rw [List.forall_mem_append]
      exact ⟨hframes, by simpa [frameAt, length_frameIn] using hlen⟩
    have hreads : ∀ l : List Nat, (∀ i ∈ l ++ List.range' (offset pos) 4 ++
        frameReads (offset (offset pos + 4)) (lengthAt ring pos), i < ringSize) ↔
        (∀ i ∈ l, i < ringSize) ∧ offset pos + 4 ≤ ringSize := by
      intro l
      simp only [List.forall_mem_append, word_lt_iff]
      exact and_iff_left fun i hi => frameReads_lt hoff hlen hi
    by_cases hgoes : (call func w.data (frameAt ring pos)).1 = false
    · simp only [hgoes, if_true]
      refine ⟨_, rfl, ?_, hframe, by rw [hw], by dsimp only; omega⟩
      rw [hreads]
      exact and_congr_right fun _ => (and_iff_left fun _ h => (by cases h)).symm
    · simp only [hgoes]
      obtain ⟨hleft, hnext⟩ := next_left hhead hbad
      obtain ⟨w', hloop, hread, hhanded, hconsumed, hword⟩ := ih
        (w := { w with
          data := (call func w.data (frameAt ring pos)).2
          reads := w.reads ++ List.range' (offset pos) 4 ++
            frameReads (offset (offset pos + 4)) (lengthAt ring pos)
          handed := w.handed ++ [frameAt ring pos]
          ret := w.ret + 1
          consumed := next ring pos }) hnext rfl (by omega) hframe
      refine ⟨w', hloop, ?_, hhanded, by omega, hword⟩
      rw [hread, hreads, and_assoc]
      refine and_congr_right fun _ => and_congr_right fun _ => ⟨fun h _ _ => h, fun h => h hbad trivial⟩

/-- For all indices, contents and callbacks: the walk ends, reads inside the copy, hands over no frame that is too
long and reports a position between the indices, exactly if none of the length words it comes to straddles the end of
the ring. -/
theorem run_contained_iff (hhead : head < 2 ^ 32) (htail : tail < 2 ^ 32) :
    (∃ w, run ring func head tail data = some w ∧ Contained head tail w) ↔
      (u32Sub head tail ≤ ringSize → Straight ring func head data tail) := by
  by_cases hsize : ringSize < u32Sub head tail
  · rw [run, if_pos hsize]
    refine ⟨fun _ h => absurd h (by omega), fun _ => ⟨_, rfl, by simp, by simp, ?_⟩⟩
    simp [u32Sub]
  · rw [run, if_neg hsize]
    obtain ⟨w, hloop, hreads, hhanded, hleft, hword⟩ :
        ∃ w, loop ring func head (ringSize + 1) tail ⟨data, 0, tail, [], []⟩ = some w ∧ _ :=
      loop_contained hhead (ringSize + 1) htail rfl (by omega) (by simp)
    have hconsumed : u32Sub w.consumed tail ≤ u32Sub head tail := by
      simp only [u32Sub] at hleft ⊢
      omega
    rw [hloop]
    constructor
    · rintro ⟨w', hw', h⟩ -
      cases hw'
      exact (hreads.mp h.reads).2
    · exact fun h => ⟨w, rfl, hreads.mpr ⟨by simp, h (by omega)⟩, hhanded, hconsumed⟩

theorem Meets.aligned {p : Nat} (h : Meets ring func head data pos p) (hpos : pos % 4 = 0) : p % 4 = 0 := by
  induction h with
  | here => exact hpos
  | @next data pos p _ hok _ _ ih =>
    simp only [Corrupt, not_or, Nat.not_lt] at hok
    have hrecord := recordBytes_eq hok.2.1
    refine ih ?_
    rw [Walk.next, u32]
    omega

theorem straight_of_aligned (hpos : pos % 4 = 0) : Straight ring func head data pos := by
  intro p hp _
  have haligned := hp.aligned hpos
  have hsize : ringSize = 131072 := rfl
  rw [offset_eq, hsize]
  omega

/-- A record of eight bytes at the start of the ring. -/
def oneRecord (i : Nat) : UInt8 := if i = 0 then 8 else 0

theorem run_contained_iff_aligned : (run oneRecord none 12 0 ()).map (fun w => (w.ret, w.consumed)) = some (1, 12) ∧
    ∃ w, run oneRecord none 12 0 () = some w ∧ Contained 12 0 w :=
  ⟨by decide +kernel, (run_contained_iff (by decide) (by decide)).mpr fun _ => straight_of_aligned rfl⟩

/-- A tail at the last byte of the ring. -/
theorem run_reads_behind : ∃ w, run (fun _ => 0) none ringSize (ringSize - 1) () = some w ∧ ringSize ∈ w.reads := by
  have hrun : (run (fun _ => 0) none ringSize (ringSize - 1) ()).map Walk.reads =
      some [131071, 131072, 131073, 131074] := by decide +kernel
  obtain ⟨w, hw, hreads⟩ := Option.map_eq_some_iff.mp hrun
  exact ⟨w, hw, by simp [hreads, ringSize]⟩

end MoCoLinux.Net.Walk
