import MoCoLinux.Net.Batch
import MoCoLinux.Net.Lemmas.Record

/-!
# The batch of the bridge: lemmas
-/

namespace MoCoLinux.Net

section Arrays

variable {buf : Nat → UInt8} {start n : Nat} {bytes : List UInt8}

theorem bytesAt_putBytes (buf : Nat → UInt8) (start : Nat) (bytes : List UInt8) :
    bytesAt (putBytes buf start bytes) start bytes.length = bytes := by
  refine List.ext_getElem (by simp) fun i _ hi => ?_
  simp [bytesAt, putBytes, hi]

theorem bytesAt_putBytes_of_disjoint {p : Nat} (h : start + n ≤ p ∨ p + bytes.length ≤ start) :
    bytesAt (putBytes buf p bytes) start n = bytesAt buf start n := by
  refine bytesAt_congr fun i h₁ h₂ => ?_
  unfold putBytes
  split
  · rw [List.getElem?_eq_none (by omega), Option.getD_none]
  · rfl

theorem putBytes_putBytes (buf : Nat → UInt8) (start : Nat) (bytes bytes' : List UInt8) :
    putBytes (putBytes buf start bytes) (start + bytes.length) bytes' = putBytes buf start (bytes ++ bytes') := by
  funext i
  simp only [putBytes]
  by_cases hs : start ≤ i
  · by_cases hb : start + bytes.length ≤ i
    · rw [if_pos hb, if_pos hs, if_pos hs, List.getElem?_append_right (by omega),
        List.getElem?_eq_none (l := bytes) (by omega), Option.getD_none, Nat.sub_sub]
    · rw [if_neg hb, if_pos hs, if_pos hs, List.getElem?_append_left (by omega)]
  · rw [if_neg (by omega), if_neg hs, if_neg hs]

theorem putBytes_cell {size p q : Nat} (hin : p % size + bytes.length ≤ size) (hq : q < p)
    (hlap : p + bytes.length ≤ q + size) : putBytes buf (p % size) bytes (q % size) = buf (q % size) := by
  unfold putBytes
  split
  next hle =>
    rw [List.getElem?_eq_none, Option.getD_none]
    refine Nat.le_of_not_lt fun hlt => ?_
    have hcell : q % size = (p + (q % size - p % size)) % size := by
      rw [Ring.cell_add (by omega)]
      omega
    exact Ring.cell_ne (by omega) (by omega) hcell
  next => rfl

end Arrays

structure Batch.Holds (b : Batch) (frames : List Frame) : Prop where
  records : Records b.bytes frames
  count : frames.length = b.frames
  fits : b.used ≤ batchSize

namespace Batch

variable {b : Batch} {frames : List Frame} {answer : Answer}

theorem Holds.used_eq (h : b.Holds frames) : b.used = recordsBytes frames := by
  simpa [bytes] using h.records.length

theorem Holds.frames_le (h : b.Holds frames) : b.frames ≤ 4096 := by
  have hc := h.records.count_le
  have hf : b.used ≤ 0x8000 := h.fits
  rw [h.count, bytes, length_bytesAt] at hc
  omega

theorem taken_le (answer : Answer) : taken answer ≤ answer.taken := by
  unfold taken
  split <;> omega

theorem skipRecords_eq {buf : Nat → UInt8} (k : Nat) {pos n : Nat} (hr : Records (bytesAt buf pos n) frames)
    (hk : k ≤ frames.length) (hn : pos + n < 2 ^ 32) :
    skipRecords buf k pos = pos + recordsBytes (frames.take k) := by
  induction k generalizing pos n frames with
  | zero => simp [skipRecords]
  | succ k ih =>
    cases frames with
    | nil => simp at hk
    | cons f fs =>
      obtain ⟨hl, hlen, _, hle, hrest⟩ := hr.first
      rw [length_bytesAt] at hle
      have hword : le32 (bytesAt buf pos 4) = f.length := by
        have h4 : 4 ≤ n := Nat.le_trans (by have := hl.record_bounds; omega) hle
        rw [← hlen]
        obtain ⟨m, rfl⟩ := Nat.exists_eq_add_of_le h4
        rw [bytesAt_add]
        rfl
      rw [drop_bytesAt hle] at hrest
      rw [skipRecords, hword, u32_of_lt (by omega), ih hrest (by simpa using hk) (by omega),
        List.take_succ_cons, recordsBytes_cons, Nat.add_assoc]

theorem Holds.flush (h : b.Holds frames) (hfair : answer.taken ≤ b.frames) :
    (b.flush answer).Holds (frames.drop (if b.frames = 0 then 0 else taken answer)) := by
  unfold Batch.flush
  by_cases h0 : b.frames = 0
  · rw [if_pos h0, if_pos h0, List.drop_zero]
    exact h
  rw [if_neg h0, if_neg h0]
  have hmax : b.used ≤ 0x8000 := h.fits
  have hcount := h.frames_le
  have htaken : taken answer ≤ frames.length := by
    rw [h.count]
    exact Nat.le_trans (taken_le answer) hfair
  have hpos : skipRecords b.buf (taken answer) 0 = recordsBytes (frames.take (taken answer)) := by
    rw [skipRecords_eq _ h.records htaken (by omega), Nat.zero_add]
  have hused : b.used = recordsBytes (frames.take (taken answer)) + recordsBytes (frames.drop (taken answer)) := by
    rw [← recordsBytes_append, List.take_append_drop, h.used_eq]
  have hrest := h.records.drop (taken answer)
  rw [bytes, drop_bytesAt (by omega), Nat.zero_add] at hrest
  simp only [hpos]
  split
  · -- Nothing is left behind the taken records, so all of them were taken.
    have hnil : frames.drop (taken answer) = [] := by
      have hc := hrest.count_le
      rw [length_bytesAt] at hc
      exact List.eq_nil_of_length_eq_zero (by omega)
    rw [hnil]
    exact ⟨.nil, rfl, Nat.zero_le _⟩
  · refine ⟨?_, ?_, by simp only [batchSize]; omega⟩
    · have hmove : bytes
          { buf := fun i => if i < b.used - recordsBytes (frames.take (taken answer)) then
              b.buf (recordsBytes (frames.take (taken answer)) + i) else b.buf i
            used := b.used - recordsBytes (frames.take (taken answer))
            frames := u32Sub b.frames (taken answer)
            rxFull := if answer.rc ≠ .ok ∨ answer.taken < b.frames then true else b.rxFull } =
          bytesAt b.buf (recordsBytes (frames.take (taken answer)))
            (b.used - recordsBytes (frames.take (taken answer))) := by
        refine List.map_congr_left fun i hi => ?_
        simp only [Nat.zero_add, if_pos (List.mem_range.mp hi)]
      rw [hmove]
      exact hrest
    · rw [List.length_drop, h.count]
      simp only [u32Sub]
      have := h.count
      omega

theorem Holds.takes_eq (h : b.Holds frames) (hfair : answer.taken ≤ b.frames) :
    BatchRun.takes answer b = frames.take (if b.frames = 0 then 0 else taken answer) := by
  unfold BatchRun.takes
  split
  · rfl
  · exact h.records.decode _ (by rw [h.count]; exact Nat.le_trans (taken_le answer) hfair)

theorem Holds.flush_split (h : b.Holds frames) (hfair : answer.taken ≤ b.frames) :
    ∃ rest, (b.flush answer).Holds rest ∧ BatchRun.takes answer b ++ rest = frames :=
  ⟨_, h.flush hfair, by rw [h.takes_eq hfair, List.take_append_drop]⟩

theorem Holds.append (h : b.Holds frames) {frame : Frame} (hl : Legal frame) {buf : Nat → UInt8} (pad : List UInt8)
    (hpad : pad.length + (4 + frame.length) = recordBytes frame.length)
    (hold : bytesAt buf 0 b.used = bytesAt b.buf 0 b.used)
    (hnew : bytesAt buf b.used (recordBytes frame.length) = word32 frame.length ++ frame ++ pad)
    (hroom : b.used + recordBytes frame.length ≤ batchSize) :
    Holds { b with buf := buf, used := u32 (b.used + recordBytes frame.length), frames := u32 (b.frames + 1) }
      (frames ++ [frame]) := by
  have hmax : b.used + recordBytes frame.length ≤ 0x8000 := hroom
  have hcount := h.frames_le
  have hu : u32 (b.used + recordBytes frame.length) = b.used + recordBytes frame.length := u32_of_lt (by omega)
  refine ⟨?_, ?_, ?_⟩
  · rw [bytes, hu, bytesAt_add, Nat.zero_add, hold, hnew]
    exact h.records.append (.singleton hl hpad)
  · rw [List.length_append, List.length_singleton, h.count]
    exact (u32_of_lt (by omega)).symm
  · rw [hu]
    exact hroom

theorem toUInt32_of_pos {n : Int32} (h : 0 < n) : (n.toUInt32.toNat : Int) = n.toInt := by
  have hpos : 0 < n.toInt := by simpa [Int32.lt_iff_toInt_lt] using h
  have hint : n.toInt = n.toBitVec.toInt := rfl
  have hnat : n.toUInt32.toNat = n.toBitVec.toNat := rfl
  rw [hint, BitVec.toInt_eq_toNat_cond] at hpos ⊢
  split at hpos <;> omega

open BatchRun

variable {pkt : Nat → UInt8} {pktLen : Int32}

theorem length_packet (pkt : Nat → UInt8) (h : 0 < pktLen) : (packet pkt pktLen).length = pktLen.toUInt32.toNat := by
  have := toUInt32_of_pos h
  rw [packet, length_bytesAt]
  omega

theorem legal_packet (h : LegalSize pktLen) : Legal (packet pkt pktLen) := by
  obtain ⟨hpos, hmax⟩ := h
  have heq := toUInt32_of_pos hpos
  have h0 : 0 < pktLen.toInt := by simpa [Int32.lt_iff_toInt_lt] using hpos
  rw [Legal, length_packet pkt hpos]
  omega

theorem legalSize_iff : LegalSize pktLen ↔ ¬(pktLen ≤ 0 ∨ maxFrame < pktLen.toUInt32.toNat) := by
  rw [LegalSize, not_or, Int32.not_le, Nat.not_lt]
  refine and_congr_right fun h => ?_
  have := toUInt32_of_pos h
  omega

theorem output_of_illegal (h : ¬ LegalSize pktLen) : b.output answer pkt pktLen = b := by
  rw [legalSize_iff, not_not] at h
  exact if_pos h

theorem output_of_noRoom (h : LegalSize pktLen)
    (hfull : (b.makeRoom answer (recordBytes (packet pkt pktLen).length)).noRoom
      (recordBytes (packet pkt pktLen).length) = true) :
    b.output answer pkt pktLen =
      { b.makeRoom answer (recordBytes (packet pkt pktLen).length) with rxFull := true } := by
  rw [length_packet pkt h.1] at hfull ⊢
  simp only [output, if_neg (legalSize_iff.mp h), if_pos hfull]

theorem bytesAt_packet (h : 0 < pktLen) : bytesAt pkt 0 pktLen.toUInt32.toNat = packet pkt pktLen := by
  have := toUInt32_of_pos h
  rw [packet]
  congr 1
  omega

theorem Holds.output_of_room (h : LegalSize pktLen)
    (hb : (b.makeRoom answer (recordBytes (packet pkt pktLen).length)).Holds frames)
    (hroom : (b.makeRoom answer (recordBytes (packet pkt pktLen).length)).noRoom
      (recordBytes (packet pkt pktLen).length) = false) :
    (b.output answer pkt pktLen).Holds (frames ++ [packet pkt pktLen]) := by
  have hl : Legal (packet pkt pktLen) := legal_packet h
  have hrec := hl.record_bounds
  have hlen := length_packet pkt h.1
  rw [hlen] at hb hroom hrec
  simp only [output, if_neg (legalSize_iff.mp h), hroom, Bool.false_eq_true, if_false, bytesAt_packet h.1]
  generalize b.makeRoom answer (recordBytes pktLen.toUInt32.toNat) = b₁ at hb hroom ⊢
  generalize pktLen.toUInt32.toNat = len at hlen hroom hrec ⊢
  generalize packet pkt pktLen = frame at hl hlen ⊢
  subst hlen
  have hmax : b₁.used ≤ 0x8000 := hb.fits
  have hfit : b₁.used + recordBytes frame.length ≤ batchSize := by
    rw [noRoom, decide_eq_false_iff_not, u32_of_lt (by omega)] at hroom
    omega
  -- Both branches of the padding are the copy of as many zeroes as are missing.
  have hzero : ∀ buf : Nat → UInt8,
      (if 4 + frame.length < recordBytes frame.length then
        putBytes buf (b₁.used + 4 + frame.length) (List.replicate (recordBytes frame.length - 4 - frame.length) 0)
      else buf) =
        putBytes buf (b₁.used + 4 + frame.length)
          (List.replicate (recordBytes frame.length - 4 - frame.length) 0) := by
    intro buf
    split
    · rfl
    · have hz : recordBytes frame.length - 4 - frame.length = 0 := by omega
      funext i
      simp [putBytes, hz]
  have hcopy : putBytes (putBytes (putBytes b₁.buf b₁.used (word32 frame.length)) (b₁.used + 4) frame)
      (b₁.used + 4 + frame.length) (List.replicate (recordBytes frame.length - 4 - frame.length) 0) =
        putBytes b₁.buf b₁.used
          (word32 frame.length ++ frame ++ List.replicate (recordBytes frame.length - 4 - frame.length) 0) := by
    have hword := putBytes_putBytes b₁.buf b₁.used (word32 frame.length) frame
    have hpad := putBytes_putBytes b₁.buf b₁.used (word32 frame.length ++ frame)
      (List.replicate (recordBytes frame.length - 4 - frame.length) 0)
    rw [length_word32] at hword
    rw [List.length_append, length_word32, ← Nat.add_assoc] at hpad
    rw [hword, hpad]
  rw [hzero, hcopy]
  have hbytes : (word32 frame.length ++ frame ++
      List.replicate (recordBytes frame.length - 4 - frame.length) 0).length = recordBytes frame.length := by
    simp only [List.length_append, length_word32, List.length_replicate]
    omega
  refine hb.append hl (List.replicate (recordBytes frame.length - 4 - frame.length) 0) ?_ ?_ ?_ hfit
  · rw [List.length_replicate]
    omega
  · exact bytesAt_putBytes_of_disjoint (by omega)
  · have hcopied := bytesAt_putBytes b₁.buf b₁.used
      (word32 frame.length ++ frame ++ List.replicate (recordBytes frame.length - 4 - frame.length) 0)
    rwa [hbytes] at hcopied

end Batch

end MoCoLinux.Net
