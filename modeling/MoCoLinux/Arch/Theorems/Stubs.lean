import Mathlib.Data.Nat.Bitwise
import MoCoLinux.Arch.Stubs

/-!
# Every vector reaches the handler, over a frame of one form
-/

namespace MoCoLinux.Arch

theorem target_setGate (handler selector : Nat) : (setGate handler selector).target = handler := by
  have low : handler &&& 0xffff = handler % 2 ^ 16 := Nat.and_two_pow_sub_one_eq_mod handler 16
  have mid : handler >>> 16 &&& 0xffff = handler / 2 ^ 16 % 2 ^ 16 := by
    rw [Nat.shiftRight_eq_div_pow]
    exact Nat.and_two_pow_sub_one_eq_mod _ 16
  simp only [Gate.target, setGate, low, mid, Nat.shiftRight_eq_div_pow handler 32]
  omega

theorem vectorHasErrorCode_eq (vector : Nat) : vectorHasErrorCode vector = decide (PushesErrorCode vector) := by
  refine decide_eq_decide.mpr ?_
  simp only [PushesErrorCode, List.mem_cons, List.not_mem_nil, or_false]
  omega

/-- The stubs are mapped at `stubsVa`, within reach of a near jump to the handler. -/
structure Installed (fetch : Nat → UInt8) (stubsVa handlerVa : Nat) : Prop where
  bytes : ∀ i < 256 * stubSize, fetch (stubsVa + i) = buildGuestStubs stubsVa handlerVa i
  fits : stubsVa + 256 * stubSize ≤ 2 ^ 64
  word : handlerVa < 2 ^ 64
  above : handlerVa < stubsVa + 2 ^ 31
  below : stubsVa + 256 * stubSize ≤ handlerVa + 2 ^ 31

section Stub

variable {fetch : Nat → UInt8} {stubsVa handlerVa v : Nat} (h : Installed fetch stubsVa handlerVa) (hv : v < 256)

include h hv

theorem Installed.fetch_eq {k : Nat} (hk : k < 16) :
    fetch (stubsVa + (v * stubSize + k)) = (guestStub stubsVa handlerVa v).getD k 0 := by
  rw [h.bytes (v * stubSize + k) (by simp only [stubSize]; omega), buildGuestStubs]
  congr 2 <;> simp only [stubSize] <;> omega

theorem Installed.push (stack : List Nat) : Cpu.step fetch ⟨stubsVa + (v * stubSize + 2), stack⟩ =
    some ⟨stubsVa + (v * stubSize + 7), v :: stack⟩ := by
  have sign : signExtend 32 v = v := if_pos (by omega)
  cases he : vectorHasErrorCode v <;>
    simp [Cpu.step, h.fetch_eq hv, guestStub, he, Nat.add_assoc, LittleEndian.word, Nat.mod_eq_of_lt hv, sign]

/-- The displacement leads to the handler, forwards or backwards. -/
theorem Installed.displacement : ullong (stubsVa + v * stubSize + 12 +
    signExtend 32 (ullongSub handlerVa (ullong (stubsVa + v * stubSize + 12)) % 256 ^ 4)) = handlerVa := by
  obtain ⟨_, hf, hw, ha, hb⟩ := h
  simp only [stubSize] at *
  rw [ullong_of_lt (by omega : stubsVa + v * 16 + 12 < 2 ^ 64), signExtend]
  unfold ullong ullongSub
  by_cases forward : stubsVa + v * 16 + 12 ≤ handlerVa
  · rw [if_pos (by omega)]
    omega
  · rw [if_neg (by omega)]
    omega

theorem Installed.jump (stack : List Nat) : Cpu.step fetch ⟨stubsVa + (v * stubSize + 7), stack⟩ =
    some ⟨handlerVa, stack⟩ := by
  have reach := h.displacement hv
  rw [← LittleEndian.word_bytes] at reach
  cases he : vectorHasErrorCode v <;>
    simpa [Cpu.step, h.fetch_eq hv, guestStub, he, Nat.add_assoc, LittleEndian.bytes] using reach

/-- Whether the processor pushed an error code or not, the handler finds the vector, a code and the frame. -/
theorem every_vector_reaches_handler (selector code : Nat) (frame : List Nat) :
    Cpu.Reaches fetch (.deliver (buildGuestIdt stubsVa selector) v code frame)
      ⟨handlerVa, v :: (if PushesErrorCode v then code else 0) :: frame⟩ := by
  have entry : (buildGuestIdt stubsVa selector v).target = stubsVa + (v * stubSize + 0) := by
    have hf := h.fits
    rw [buildGuestIdt, target_setGate, ullong_of_lt (by simp only [stubSize] at *; omega), Nat.add_zero]
  have common : ∀ stack, Cpu.Reaches fetch ⟨stubsVa + (v * stubSize + 2), stack⟩ ⟨handlerVa, v :: stack⟩ :=
    fun stack => .head (h.push hv stack) (.single (h.jump hv _))
  rw [Cpu.deliver, entry]
  by_cases he : PushesErrorCode v
  · rw [if_pos he, if_pos he]
    have nop : ∀ k < 2, Cpu.step fetch ⟨stubsVa + (v * stubSize + k), code :: frame⟩ =
        some ⟨stubsVa + (v * stubSize + (k + 1)), code :: frame⟩ := by
      intro k hk
      have byte : fetch (stubsVa + (v * stubSize + k)) = 0x90 := by
        rw [h.fetch_eq hv (by omega), guestStub, vectorHasErrorCode_eq, decide_eq_true he]
        match k, hk with
        | 0, _ => rfl
        | 1, _ => rfl
      exact if_pos byte
    exact .head (nop 0 (by decide)) (.head (nop 1 (by decide)) (common _))
  · rw [if_neg he, if_neg he]
    have first := h.fetch_eq hv (by decide : 0 < 16)
    refine .head ?_ (common (0 :: frame))
    simp only [Nat.add_zero, guestStub, vectorHasErrorCode_eq, he] at first
    simp [Cpu.step, first, h.fetch_eq hv, guestStub, vectorHasErrorCode_eq, he, Nat.add_assoc, signExtend]

end Stub

theorem page_fault_reaches_handler : Cpu.Reaches (fun a => buildGuestStubs 0x1000 0x5000 (a - 0x1000))
    (.deliver (buildGuestIdt 0x1000 0x10) 14 2 [0x401000]) ⟨0x5000, [14, 2, 0x401000]⟩ :=
  every_vector_reaches_handler
    ⟨fun i _ => by rw [Nat.add_sub_cancel_left], by decide, by decide, by decide, by decide⟩ (by decide) _ _ _

end MoCoLinux.Arch
