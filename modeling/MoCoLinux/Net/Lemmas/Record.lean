import MoCoLinux.Lib.Bits
import MoCoLinux.Lib.Ring
import MoCoLinux.Net.Record

/-!
# The record format: lemmas
-/

namespace MoCoLinux.Net

variable {frame : Frame} {frames frames' : List Frame} {bytes bytes' : List UInt8}

theorem recordBytes_eq {len : Nat} (h : len ≤ maxFrame) : recordBytes len = 4 + (len + 3) / 4 * 4 := by
  have hm : len ≤ 1514 := h
  have hmask : (0xfffffffc : Nat) = (2 ^ (32 - 2) - 1) <<< 2 := by decide
  rw [recordBytes, u32_of_lt (by omega : len + 3 < 2 ^ 32), hmask, Bits.and_highMask (by omega)]
  exact u32_of_lt (by omega)

theorem Legal.record_bounds (h : Legal frame) : 8 ≤ recordBytes frame.length ∧ recordBytes frame.length ≤ 1520 ∧
    recordBytes frame.length % 4 = 0 ∧ 4 + frame.length ≤ recordBytes frame.length := by
  have hmax : frame.length ≤ 1514 := h.2
  have hpos := h.1
  rw [recordBytes_eq h.2]
  omega

@[simp] theorem length_word32 (n : Nat) : (word32 n).length = 4 := rfl

theorem le32_word32 {n : Nat} (h : n < 2 ^ 32) (rest : List UInt8) : le32 (word32 n ++ rest) = n := by
  simp only [le32, word32, List.cons_append, UInt8.toNat_ofNat']
  rw [Bits.or_shiftLeft (i := 8) (by omega), Bits.or_shiftLeft (i := 16) (by omega),
    Bits.or_shiftLeft (i := 24) (by omega)]
  omega

theorem word32_le32 (b₀ b₁ b₂ b₃ : UInt8) : word32 (le32 [b₀, b₁, b₂, b₃]) = [b₀, b₁, b₂, b₃] := by
  have h₀ := b₀.toNat_lt
  have h₁ := b₁.toNat_lt
  have h₂ := b₂.toNat_lt
  have h₃ := b₃.toNat_lt
  simp only [le32, word32]
  rw [Bits.or_shiftLeft (i := 8) (by omega), Bits.or_shiftLeft (i := 16) (by omega),
    Bits.or_shiftLeft (i := 24) (by omega)]
  simp only [List.cons.injEq, and_true, ← UInt8.toNat_inj, UInt8.toNat_ofNat']
  omega

theorem le32_take (bytes : List UInt8) : le32 (bytes.take 4) = le32 bytes := by
  match bytes with
  | [] => rfl
  | [_] => rfl
  | [_, _] => rfl
  | [_, _, _] => rfl
  | _ :: _ :: _ :: _ :: _ => rfl

theorem Legal.le32 (h : Legal frame) (rest : List UInt8) : le32 (word32 frame.length ++ rest) = frame.length :=
  le32_word32 (by have : frame.length ≤ 1514 := h.2; omega) rest

theorem and_ringMask (n : Nat) : n &&& (ringSize - 1) = n % ringSize := Nat.and_two_pow_sub_one_eq_mod n 17

theorem u32Sub_u32 {p q : Nat} (hle : q ≤ p) (hlt : p < q + 2 ^ 32) : u32Sub (u32 p) (u32 q) = p - q :=
  Ring.index_sub hle hlt

theorem u32_add (p n : Nat) : u32 (u32 p + n) = u32 (p + n) := Nat.mod_add_mod p _ n

section Arrays

variable {buf buf' : Nat → UInt8} {start n : Nat}

@[simp] theorem length_bytesAt : (bytesAt buf start n).length = n := by simp [bytesAt]

theorem bytesAt_add (m : Nat) : bytesAt buf start (m + n) = bytesAt buf start m ++ bytesAt buf (start + m) n := by
  simp only [bytesAt, List.range_add, List.map_append, List.map_map]
  congr 1
  refine List.map_congr_left fun i _ => ?_
  simp [Nat.add_assoc]

theorem bytesAt_congr (h : ∀ i, start ≤ i → i < start + n → buf i = buf' i) :
    bytesAt buf start n = bytesAt buf' start n := by
  refine List.map_congr_left fun i hi => h _ (by omega) ?_
  have := List.mem_range.mp hi
  omega

theorem drop_bytesAt {k : Nat} (hk : k ≤ n) : (bytesAt buf start n).drop k = bytesAt buf (start + k) (n - k) := by
  obtain ⟨m, rfl⟩ := Nat.exists_eq_add_of_le hk
  rw [bytesAt_add, List.drop_left' length_bytesAt, Nat.add_sub_cancel_left]

theorem slice_eq_bytesAt {size p : Nat} (h : p % size + n ≤ size) :
    Ring.slice size buf p n = bytesAt buf (p % size) n := by
  induction n with
  | zero => rfl
  | succ n ih =>
    rw [Ring.slice_succ, ih (by omega), bytesAt_add, Ring.cell_add (by omega)]
    rfl

theorem slice_eq_wrap {size p first : Nat} (hn : n ≤ size) (hp : p % size < size) (hfirst : first ≤ n)
    (hin : p % size + first ≤ size) (hwrap : first < n → p % size + first = size) :
    Ring.slice size buf p n = bytesAt buf (p % size) first ++ bytesAt buf 0 (n - first) := by
  obtain ⟨m, rfl⟩ := Nat.exists_eq_add_of_le hfirst
  rw [Ring.slice_add, slice_eq_bytesAt hin, Nat.add_sub_cancel_left]
  rcases Nat.eq_zero_or_pos m with rfl | hm
  · rfl
  · have hzero : (p + first) % size = 0 := by
      rcases Nat.eq_zero_or_pos first with rfl | hpos
      · have := hwrap (by omega)
        omega
      · have hedge := hwrap (by omega)
        rcases Nat.lt_or_ge first size with hlt | hge
        · rw [Ring.cell_wrap (by omega) hlt]
          omega
        · omega
    rw [slice_eq_bytesAt (by omega), hzero]

end Arrays

@[simp] theorem recordsBytes_nil : recordsBytes [] = 0 := rfl

@[simp] theorem recordsBytes_cons (frame : Frame) (frames : List Frame) :
    recordsBytes (frame :: frames) = recordBytes frame.length + recordsBytes frames := rfl

@[simp] theorem recordsBytes_append (frames frames' : List Frame) :
    recordsBytes (frames ++ frames') = recordsBytes frames + recordsBytes frames' := by
  simp [recordsBytes]

theorem recordsBytes_take_succ {k : Nat} (h : frames[k]? = some frame) :
    recordsBytes (frames.take (k + 1)) = recordsBytes (frames.take k) + recordBytes frame.length := by
  rw [List.take_add_one, h, recordsBytes_append]
  rfl

theorem recordsBytes_take_le {j k : Nat} (h : j ≤ k) (frames : List Frame) :
    recordsBytes (frames.take j) ≤ recordsBytes (frames.take k) := by
  obtain ⟨n, rfl⟩ := Nat.exists_eq_add_of_le h
  rw [List.take_add, recordsBytes_append]
  exact Nat.le_add_right _ _

theorem recordsBytes_mod (frames : List Frame) (h : ∀ frame ∈ frames, Legal frame) : recordsBytes frames % 4 = 0 := by
  induction frames with
  | nil => rfl
  | cons f fs ih =>
    have hfs := ih fun frame hf => h frame (List.mem_cons_of_mem f hf)
    have hf := (h f List.mem_cons_self).record_bounds
    rw [recordsBytes_cons]
    omega

theorem Records.length (h : Records bytes frames) : bytes.length = recordsBytes frames := by
  induction h with
  | nil => rfl
  | cons _ hpad _ ih =>
    simp only [List.length_append, length_word32, ih, recordsBytes_cons]
    omega

theorem Records.append (h : Records bytes frames) (h' : Records bytes' frames') :
    Records (bytes ++ bytes') (frames ++ frames') := by
  induction h with
  | nil => exact h'
  | cons hl hpad _ ih =>
    rw [List.append_assoc, List.cons_append]
    exact .cons hl hpad ih

theorem Records.singleton {pad : List UInt8} (hl : Legal frame)
    (hpad : pad.length + (4 + frame.length) = recordBytes frame.length) :
    Records (word32 frame.length ++ frame ++ pad) [frame] := by
  have h := Records.cons hl hpad .nil
  rwa [List.append_nil] at h

theorem Records.legal (h : Records bytes frames) : ∀ frame ∈ frames, Legal frame := by
  induction h with
  | nil => simp
  | cons hl _ _ ih =>
    intro f hf
    rcases List.mem_cons.mp hf with rfl | hf
    · exact hl
    · exact ih f hf

theorem Records.first (h : Records bytes (frame :: frames)) : Legal frame ∧ Net.le32 bytes = frame.length ∧
    (bytes.drop 4).take frame.length = frame ∧ recordBytes frame.length ≤ bytes.length ∧
    Records (bytes.drop (recordBytes frame.length)) frames := by
  generalize hfs : frame :: frames = fs at h
  cases h with
  | nil => cases hfs
  | @cons f pad rest fs' hl hpad hrest =>
    cases hfs
    refine ⟨hl, ?_, ?_, ?_, ?_⟩
    · rw [List.append_assoc, List.append_assoc]
      exact hl.le32 _
    · rw [List.append_assoc, List.append_assoc, List.drop_left' (length_word32 _), List.take_left' rfl]
    · simp only [List.length_append, length_word32]
      omega
    · rw [List.drop_left']
      · exact hrest
      · simp only [List.length_append, length_word32]
        omega

theorem Records.drop (h : Records bytes frames) (n : Nat) :
    Records (bytes.drop (recordsBytes (frames.take n))) (frames.drop n) := by
  induction n generalizing bytes frames with
  | zero => simpa using h
  | succ n ih =>
    cases frames with
    | nil =>
      have hb : bytes = [] := List.eq_nil_of_length_eq_zero h.length
      simpa [hb] using Records.nil
    | cons f fs =>
      obtain ⟨_, _, _, _, hrest⟩ := h.first
      rw [List.take_succ_cons, recordsBytes_cons, ← List.drop_drop, List.drop_succ_cons]
      exact ih hrest

theorem Records.aligned (h : Records bytes frames) : bytes.length % 4 = 0 := by
  rw [h.length]
  exact recordsBytes_mod frames h.legal

theorem Records.count_le (h : Records bytes frames) : 8 * frames.length ≤ bytes.length := by
  induction h with
  | nil => simp
  | cons hl hpad _ ih =>
    have := hl.record_bounds
    simp only [List.length_append, length_word32, List.length_cons]
    omega

theorem Records.decode (h : Records bytes frames) (n : Nat) (hn : n ≤ frames.length) :
    decode n bytes = frames.take n := by
  induction n generalizing bytes frames with
  | zero => rfl
  | succ n ih =>
    cases frames with
    | nil => simp at hn
    | cons f fs =>
      obtain ⟨_, hlen, hframe, _, hrest⟩ := h.first
      rw [Net.decode, hlen, hframe, ih hrest (by simpa using hn), List.take_succ_cons]

end MoCoLinux.Net
