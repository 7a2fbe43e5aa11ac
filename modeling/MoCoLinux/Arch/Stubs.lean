import Mathlib.Logic.Relation
import MoCoLinux.Common
import MoCoLinux.Lib.LittleEndian

/-!
# The interrupt stubs of a passage page (`arch/x86_64/switch.c`)

A page of 256 stubs that push their vector and jump to one handler, and the gates that lead to them.
-/

namespace MoCoLinux.Arch

def stubSize : Nat := 16

def vectorHasErrorCode (vector : Nat) : Bool := vector ∈ [8, 10, 11, 12, 13, 14, 17, 21, 29, 30]

/-- What one round of `co_build_guest_stubs` stores. -/
def guestStub (stubsVa handlerVa vector : Nat) : List UInt8 :=
  let nextVa := ullong (stubsVa + vector * stubSize + 12)
  (if vectorHasErrorCode vector then [0x90, 0x90] else [0x6a, 0]) ++ [0x68, .ofNat vector, 0, 0, 0] ++
    0xe9 :: LittleEndian.bytes 4 (ullongSub handlerVa nextVa) ++ [0x90, 0x90, 0x90, 0x90]

/-- The byte `i` of the page. -/
def buildGuestStubs (stubsVa handlerVa i : Nat) : UInt8 :=
  (guestStub stubsVa handlerVa (i / stubSize)).getD (i % stubSize) 0

/-- `struct co_x86_64_gate`. -/
structure Gate where
  offsetLow : Nat
  selector : Nat
  flags : Nat
  offsetMid : Nat
  offsetHigh : Nat
  reserved : Nat

def setGate (handler selector : Nat) : Gate :=
  ⟨handler &&& 0xffff, selector, 0x8e01, handler >>> 16 &&& 0xffff, handler >>> 32, 0⟩

def buildGuestIdt (stubsVa selector vector : Nat) : Gate := setGate (ullong (stubsVa + vector * stubSize)) selector

/-! ## The processor -/

def Gate.target (g : Gate) : Nat := g.offsetLow + g.offsetMid * 2 ^ 16 + g.offsetHigh * 2 ^ 32

/-- The vectors for which the processor pushes an error code. -/
def PushesErrorCode (vector : Nat) : Prop :=
  vector = 8 ∨ 10 ≤ vector ∧ vector ≤ 14 ∨ vector = 17 ∨ vector = 21 ∨ vector = 29 ∨ vector = 30

instance (vector : Nat) : Decidable (PushesErrorCode vector) := inferInstanceAs (Decidable (_ ∨ _))

/-- The instruction pointer, and the words on the stack from the top. -/
structure Cpu where
  rip : Nat
  stack : List Nat

/-- A vector arrives over `frame`, which the processor pushed. -/
def Cpu.deliver (idt : Nat → Gate) (vector code : Nat) (frame : List Nat) : Cpu :=
  ⟨(idt vector).target, if PushesErrorCode vector then code :: frame else frame⟩

def signExtend (bits x : Nat) : Nat := if x < 2 ^ (bits - 1) then x else x + (2 ^ 64 - 2 ^ bits)

/-- `nop`, `push imm8`, `push imm32` and `jmp rel32` in long mode. -/
def Cpu.step (fetch : Nat → UInt8) (c : Cpu) : Option Cpu :=
  let imm32 := signExtend 32 (LittleEndian.word ([1, 2, 3, 4].map fun i => fetch (c.rip + i)))
  if fetch c.rip = 0x90 then some ⟨c.rip + 1, c.stack⟩
  else if fetch c.rip = 0x6a then some ⟨c.rip + 2, signExtend 8 (fetch (c.rip + 1)).toNat :: c.stack⟩
  else if fetch c.rip = 0x68 then some ⟨c.rip + 5, imm32 :: c.stack⟩
  else if fetch c.rip = 0xe9 then some ⟨ullong (c.rip + 5 + imm32), c.stack⟩
  else none

abbrev Cpu.Reaches (fetch : Nat → UInt8) : Cpu → Cpu → Prop :=
  Relation.ReflTransGen fun c c' => c.step fetch = some c'

end MoCoLinux.Arch
