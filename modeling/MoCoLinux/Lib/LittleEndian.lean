import Mathlib.Algebra.Group.Nat.Defs

/-!
# Words in bytes, low byte first
-/

namespace LittleEndian

def word : List UInt8 → Nat
  | [] => 0
  | b :: bs => b.toNat + 256 * word bs

def bytes : Nat → Nat → List UInt8
  | 0, _ => []
  | n + 1, w => .ofNat w :: bytes n (w / 256)

@[simp] theorem length_bytes (n w : Nat) : (bytes n w).length = n := by
  induction n generalizing w with
  | zero => rfl
  | succ n ih => simp [bytes, ih]

theorem word_bytes (n w : Nat) : word (bytes n w) = w % 256 ^ n := by
  induction n generalizing w with
  | zero => simp [bytes, word, Nat.mod_one]
  | succ n ih =>
    have hb : (UInt8.ofNat w).toNat = w % 256 := by simp
    rw [bytes, word, ih, hb, Nat.pow_succ', Nat.mod_mul]

theorem bytes_word (bs : List UInt8) : bytes bs.length (word bs) = bs := by
  induction bs with
  | nil => rfl
  | cons b bs ih =>
    have hb := b.toNat_lt
    have hdiv : (b.toNat + 256 * word bs) / 256 = word bs := by omega
    have hlow : UInt8.ofNat (b.toNat + 256 * word bs) = b := by
      apply UInt8.toNat_inj.mp
      simp
    rw [List.length_cons, bytes, word, hdiv, hlow, ih]

end LittleEndian
