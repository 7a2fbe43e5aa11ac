import Mathlib.Algebra.GroupWithZero.Nat

/-!
# Return codes and machine words

The host driver is built for Win64, which is LLP64: `unsigned long` has 32 bits and `unsigned long long`
has 64. A word is a natural number, and the wraparound of each operation is written out where it matters.
-/

namespace MoCoLinux

/-- `co_rc_t`, as far as the modelled functions return it. -/
inductive Rc where
  | ok
  | error
  | outOfMemory
  | invalidParameter
  | notFound
  deriving DecidableEq, Repr

/-- Conversion to `unsigned long`. -/
def ulong (n : Nat) : Nat := n % 2 ^ 32

def ulongSub (a b : Nat) : Nat := (a + 2 ^ 32 - b) % 2 ^ 32

def u32 (n : Nat) : Nat := n % 2 ^ 32

def u32Sub (a b : Nat) : Nat := (a + 2 ^ 32 - b) % 2 ^ 32

def ullong (n : Nat) : Nat := n % 2 ^ 64

def ullongSub (a b : Nat) : Nat := (a + 2 ^ 64 - b) % 2 ^ 64

theorem ulong_lt (n : Nat) : ulong n < 2 ^ 32 := Nat.mod_lt _ (by decide)

theorem ulong_of_lt {n : Nat} (h : n < 2 ^ 32) : ulong n = n := Nat.mod_eq_of_lt h

theorem u32_of_lt {n : Nat} (h : n < 2 ^ 32) : u32 n = n := Nat.mod_eq_of_lt h

theorem ullong_of_lt {n : Nat} (h : n < 2 ^ 64) : ullong n = n := Nat.mod_eq_of_lt h

theorem ulongSub_of_le {a b : Nat} (h : b ≤ a) (ha : a < 2 ^ 32) : ulongSub a b = a - b := by
  unfold ulongSub; omega

end MoCoLinux
