import Mathlib.Logic.Function.Basic
import Mathlib.Tactic.Common

/-!
# Ring buffers with free-running positions

A position counts everything ever written, and position `p` lives in cell `p % size`. A word of a shared
index holds a position modulo the range of the word.
-/

namespace Ring

variable {α : Type*} {size p q n m : Nat} {buf buf' : Nat → α} {v : α}

/-- The `n` cells from position `p` on. -/
def slice (size : Nat) (buf : Nat → α) : Nat → Nat → List α
  | _, 0 => []
  | p, n + 1 => buf (p % size) :: slice size buf (p + 1) n

@[simp] theorem length_slice (n : Nat) : ∀ p, (slice size buf p n).length = n := by
  induction n with
  | zero => exact fun _ => rfl
  | succ n ih => exact fun p => congrArg Nat.succ (ih (p + 1))

theorem slice_add (m n : Nat) : ∀ p, slice size buf p (m + n) = slice size buf p m ++ slice size buf (p + m) n := by
  induction m with
  | zero => intro p; simp [slice]
  | succ m ih =>
    intro p
    rw [Nat.succ_add, slice, slice, ih (p + 1), List.cons_append, Nat.add_right_comm p 1 m]
    rfl

theorem slice_succ (p n : Nat) : slice size buf p (n + 1) = slice size buf p n ++ [buf ((p + n) % size)] := by
  rw [slice_add]
  rfl

theorem take_slice (h : m ≤ n) (p : Nat) : (slice size buf p n).take m = slice size buf p m := by
  obtain ⟨k, rfl⟩ := Nat.le.dest h
  rw [slice_add, List.take_left' (length_slice m p)]

theorem drop_slice (h : m ≤ n) (p : Nat) : (slice size buf p n).drop m = slice size buf (p + m) (n - m) := by
  obtain ⟨k, rfl⟩ := Nat.le.dest h
  rw [slice_add, List.drop_left' (length_slice m p), Nat.add_sub_cancel_left]

theorem slice_congr (n : Nat) : ∀ p, (∀ i < n, buf' ((p + i) % size) = buf ((p + i) % size)) →
    slice size buf' p n = slice size buf p n := by
  induction n with
  | zero => exact fun _ _ => rfl
  | succ n ih =>
    intro p h
    rw [slice, slice, ih (p + 1) fun i hi => ?_]
    · exact congrArg (· :: _) (h 0 (Nat.succ_pos n))
    · have := h (i + 1) (by omega)
      rwa [show p + 1 + i = p + (i + 1) by omega]

theorem cell_ne (h : p < q) (hq : q < p + size) : p % size ≠ q % size := by
  intro he
  have hdvd : size ∣ q - p := Nat.dvd_of_mod_eq_zero (Nat.sub_mod_eq_zero_of_mod_eq he.symm)
  have := Nat.le_of_dvd (by omega) hdvd
  omega

theorem slice_update (hq : p + n ≤ q) (hlap : q < p + size) :
    slice size (Function.update buf (q % size) v) p n = slice size buf p n :=
  slice_congr n p fun i hi => Function.update_of_ne (cell_ne (p := p + i) (by omega) (by omega)) _ _

theorem slice_update_succ (hlap : n < size) :
    slice size (Function.update buf ((p + n) % size) v) p (n + 1) = slice size buf p n ++ [v] := by
  rw [slice_succ, slice_update (Nat.le_refl _) (by omega), Function.update_self]

theorem cell_add (h : p % size + n < size) : (p + n) % size = p % size + n := by
  rw [Nat.add_mod]
  have hn : n % size = n := Nat.mod_eq_of_lt (by omega)
  rw [hn, Nat.mod_eq_of_lt h]

theorem cell_wrap (h : size ≤ p % size + n) (hn : n < size) : (p + n) % size = p % size + n - size := by
  have hp : p % size < size := Nat.mod_lt _ (by omega)
  have hmod : n % size = n := Nat.mod_eq_of_lt hn
  rw [Nat.add_mod, hmod, Nat.mod_eq_sub_mod h, Nat.mod_eq_of_lt (by omega)]

/-- `stream` is all that was ever published, from position `start` on. The cells between `tail` and `head` still
hold the part of it that has not been given back. -/
structure Window (size : Nat) (buf : Nat → α) (start tail : Nat) (stream : List α) : Prop where
  start_le : start ≤ tail
  tail_le : tail ≤ start + stream.length
  fits : start + stream.length ≤ tail + size
  content : slice size buf tail (start + stream.length - tail) = stream.drop (tail - start)

namespace Window

variable {start tail tail' : Nat} {stream bytes : List α}

theorem nil (h : 0 ≤ size) : Window size buf start start ([] : List α) :=
  ⟨Nat.le_refl _, Nat.le_refl _, Nat.add_le_add_left h start, by simp [slice]⟩

variable (h : Window size buf start tail stream)
include h

theorem update (hq : start + stream.length ≤ q) (hlap : q < tail + size) :
    Window size (Function.update buf (q % size) v) start tail stream := by
  refine { h with content := ?_ }
  have := h.tail_le
  rw [slice_update (by omega) hlap]
  exact h.content

theorem publish (hfit : start + stream.length + n ≤ tail + size) :
    Window size buf start tail (stream ++ slice size buf (start + stream.length) n) := by
  have htail := h.tail_le
  have hstart := h.start_le
  refine ⟨h.start_le, ?_, ?_, ?_⟩
  · rw [List.length_append]
    omega
  · rw [List.length_append, length_slice]
    omega
  · have hlen : start + (stream ++ slice size buf (start + stream.length) n).length - tail =
        (start + stream.length - tail) + n := by
      rw [List.length_append, length_slice]
      omega
    rw [hlen, slice_add, h.content, List.drop_append_of_le_length (by omega),
      show tail + (start + stream.length - tail) = start + stream.length by omega]

theorem release (hle : tail ≤ tail') (hhead : tail' ≤ start + stream.length) :
    Window size buf start tail' stream := by
  have hfits := h.fits
  have hstart := h.start_le
  refine ⟨by omega, hhead, by omega, ?_⟩
  have hdrop : slice size buf tail' (start + stream.length - tail') =
      (slice size buf tail (start + stream.length - tail)).drop (tail' - tail) := by
    rw [drop_slice (by omega), show tail + (tail' - tail) = tail' by omega,
      show start + stream.length - tail - (tail' - tail) = start + stream.length - tail' by omega]
  rw [hdrop, h.content, List.drop_drop, show tail - start + (tail' - tail) = tail' - start by omega]

theorem read (hp : tail ≤ p) (hn : p + n ≤ start + stream.length) :
    slice size buf p n = (stream.drop (p - start)).take n := by
  have hstart := h.start_le
  have hrest := h.release hp (by omega)
  rw [← hrest.content, take_slice (by omega)]

theorem congr
    (hb : ∀ q, tail ≤ q → q < start + stream.length → buf' (q % size) = buf (q % size)) :
    Window size buf' start tail stream := by
  have htail := h.tail_le
  refine { h with content := ?_ }
  rw [slice_congr _ _ fun i hi => hb (tail + i) (by omega) (by omega)]
  exact h.content

end Window

variable {W h t : Nat}

theorem index_cell (hd : size ∣ W) (p : Nat) : p % W % size = p % size := Nat.mod_mod_of_dvd p hd

theorem index_sub (hle : t ≤ h) (hlt : h < t + W) : (h % W + W - t % W) % W = h - t := by
  have hW : 0 < W := by omega
  obtain ⟨d, rfl⟩ := Nat.le.dest hle
  have ht : t % W < W := Nat.mod_lt _ hW
  rw [Nat.add_sub_cancel_left, Nat.add_mod, Nat.mod_eq_of_lt (show d < W by omega)]
  rcases Nat.lt_or_ge (t % W + d) W with hc | hc
  · rw [Nat.mod_eq_of_lt hc, show t % W + d + W - t % W = d + W by omega, Nat.add_mod_right,
      Nat.mod_eq_of_lt (by omega)]
  · rw [Nat.mod_eq_sub_mod hc, Nat.mod_eq_of_lt (show t % W + d - W < W by omega),
      show t % W + d - W + W - t % W = d by omega, Nat.mod_eq_of_lt (by omega)]

theorem index_inj (hle : t ≤ h) (hlt : h < t + W) (he : h % W = t % W) : h = t := by
  have hsub := index_sub hle hlt
  have hW : 0 < W := by omega
  rw [he, Nat.add_sub_cancel_left, Nat.mod_self] at hsub
  omega

end Ring
