import Mathlib.Data.Fin.VecNotation
import Mathlib.Logic.Function.Basic
import MoCoLinux.Common
import MoCoLinux.Lib.BinarySearch

/-!
# The guest's exception table (`extable.c`)

A fault of the guest at an instruction that has an entry in `__ex_table` is repaired in the frame the stub saved, as the
guest's own `fixup_exception` would repair its registers.
-/

namespace MoCoLinux.Arch.Extable

open Function

/-- `co_ex_entry_t`. -/
structure Entry where
  insn : BitVec 32
  fixup : BitVec 32
  data : BitVec 32
  deriving DecidableEq, Repr

namespace Entry

/-- `CO_EX_TYPE`, `CO_EX_REG`, `CO_EX_FLAGS` and `CO_EX_IMM`; the immediate is signed. -/
def type (e : Entry) : BitVec 8 := e.data.extractLsb' 0 8

def reg (e : Entry) : Fin 16 := (e.data.extractLsb' 8 4).toFin

def flags (e : Entry) : BitVec 4 := e.data.extractLsb' 12 4

def imm (e : Entry) : BitVec 64 := (e.data.extractLsb' 16 16).signExtend 64

/-- `CO_EX_FLAG_CLEAR_AX` and `CO_EX_FLAG_CLEAR_DX`. -/
def clearsAx (e : Entry) : Bool := e.flags.getLsbD 0

def clearsDx (e : Entry) : Bool := e.flags.getLsbD 1

end Entry

inductive Handler where
  | default
  | fault
  | wrmsrSafe
  | rdmsrSafe
  | popReg
  | immReg
  | ucopyLen
  deriving DecidableEq, Repr

def Entry.handler (e : Entry) : Option Handler :=
  match e.type.toNat with
  | 1 => some .default
  | 14 => some .default
  | 3 => some .default
  | 2 => some .fault
  | 15 => some .fault
  | 10 => some .wrmsrSafe
  | 11 => some .rdmsrSafe
  | 16 => some .popReg
  | 17 => some .immReg
  | 19 => some .ucopyLen
  | _ => none

def entrySize : Nat := 12

structure Table where
  start : BitVec 64
  entries : List Entry
  deriving DecidableEq, Repr

namespace Table

def count (t : Table) : Nat := t.entries.length

def entry (t : Table) (i : Nat) : Entry := t.entries.getD i ⟨0, 0, 0⟩

def insnAddr (t : Table) (i : Nat) : BitVec 64 :=
  t.start + BitVec.ofNat 64 i * BitVec.ofNat 64 entrySize + (t.entry i).insn.signExtend 64

def fixupAddr (t : Table) (i : Nat) : BitVec 64 :=
  t.start + BitVec.ofNat 64 i * BitVec.ofNat 64 entrySize + 4 + (t.entry i).fixup.signExtend 64

def sorted (t : Table) : Bool := (List.range (t.count - 1)).all fun i => !(t.insnAddr (i + 1) < t.insnAddr i)

def probe (t : Table) (rip : BitVec 64) (i : Nat) : Ordering :=
  if t.insnAddr i = rip then .eq else if t.insnAddr i < rip then .gt else .lt

def find (t : Table) (rip : BitVec 64) : Option Nat :=
  if t.sorted then BinarySearch.search (t.probe rip) t.count 0 t.count
  else (List.range t.count).find? fun i => t.insnAddr i = rip

end Table

/-- `co_arch_extable_load`. `read` is what `co_kload_read` returns, with the words it left in the buffer. -/
def load (start stop : BitVec 64) (alloc : Bool) (read : Except Rc (Nat → BitVec 32)) : Rc × Option Table :=
  if start = 0 ∨ stop ≤ start then (.invalidParameter, none)
  else
    let bytes := ulong (stop - start).toNat
    if bytes % entrySize ≠ 0 then (.invalidParameter, none)
    else if !alloc then (.outOfMemory, none)
    else
      match read with
      | .error rc => (rc, none)
      | .ok words =>
        (.ok, some ⟨start, (List.range (bytes / entrySize)).map fun i =>
          ⟨words (3 * i), words (3 * i + 1), words (3 * i + 2)⟩⟩)

/-- The stub's saved frame: fifteen registers, vector and error code, and what the processor pushed. -/
abbrev Frame := Fin 22 → BitVec 64

/-- `co_ex_reg_offset`, by the assembler's numbers of the registers. -/
def regOffset : Fin 16 → Nat :=
  ![0x70, 0x60, 0x58, 0x68, 0xa0, 0x40, 0x50, 0x48, 0x38, 0x30, 0x28, 0x20, 0x18, 0x10, 0x08, 0x00]

def slot (r : Fin 16) : Fin 22 := Fin.ofNat 22 (regOffset r / 8)

/-- `CO_EX_FRAME_RIP`. -/
def ripSlot : Fin 22 := Fin.ofNat 22 (0x88 / 8)

def Handler.apply (h : Handler) (e : Entry) (vector : BitVec 64) (frame : Frame) : Frame :=
  match h with
  | .default => frame
  | .fault => update frame (slot 0) vector
  | .wrmsrSafe => update frame (slot e.reg) (-5)
  | .rdmsrSafe =>
    update (update (update frame (slot 0) 0) (slot 2) 0) (slot e.reg) (-5)
  | .popReg =>
    let rsp := Fin.ofNat 22 (0xa0 / 8)
    update (update frame rsp (frame rsp + 8)) (slot e.reg) e.imm
  | .immReg => update frame (slot e.reg) e.imm
  | .ucopyLen => update frame (slot 1) (e.imm * frame (slot 1) + frame (slot e.reg))

def clearFlags (e : Entry) (frame : Frame) : Frame :=
  let frame := if e.clearsAx then update frame (slot 0) 0 else frame
  if e.clearsDx then update frame (slot 2) 0 else frame

/-- What `co_arch_extable_fixup` returns, with the frame it leaves and `type_out`. -/
structure Outcome where
  fixed : Bool
  frame : Frame
  type : BitVec 8

def fixup (t : Table) (frame : Frame) (vector : BitVec 64) : Outcome :=
  match t.find (frame ripSlot) with
  | none => ⟨false, frame, 0⟩
  | some i =>
    let e := t.entry i
    match e.handler with
    | none => ⟨false, frame, e.type⟩
    | some h =>
      ⟨true, update (clearFlags e (h.apply e vector frame)) ripSlot (t.fixupAddr i), e.type⟩

/-! ## The guest's own handling -/

/-- `struct pt_regs`, as far as `fixup_exception` writes it; the numbers are those of `pt_regs_nr`. -/
structure Regs where
  gp : Fin 16 → BitVec 64
  ip : BitVec 64

namespace Regs

def set (regs : Regs) (r : Fin 16) (v : BitVec 64) : Regs := { regs with gp := update regs.gp r v }

/-- `ex_handler_default`: bits 12 and 13 of the data word are `EX_FLAG_CLEAR_AX` and `EX_FLAG_CLEAR_DX`. -/
def exDefault (regs : Regs) (data : BitVec 32) (fixup : BitVec 64) : Regs :=
  let regs := if data.getLsbD 12 then regs.set 0 0 else regs
  let regs := if data.getLsbD 13 then regs.set 2 0 else regs
  { regs with ip := fixup }

end Regs

/-- The guest's `fixup_exception`, by the `EX_TYPE_` numbers of its headers, for the types that need registers only. -/
def fixupException (data : BitVec 32) (fixup trapnr : BitVec 64) (regs : Regs) : Option Regs :=
  let reg := Fin.ofNat 16 (data.toNat / 2 ^ 8)
  let imm := BitVec.ofInt 64 (data.toInt / 0x10000)
  match data.toNat % 2 ^ 8 with
  | 1 | 3 | 14 => some (regs.exDefault data fixup)
  | 2 | 15 => some ((regs.set 0 trapnr).exDefault data fixup)
  | 10 => some ((regs.set reg (-5)).exDefault data fixup)
  | 11 => some ((((regs.set 0 0).set 2 0).set reg (-5)).exDefault data fixup)
  | 16 => some (((regs.set 4 (regs.gp 4 + 8)).set reg imm).exDefault data fixup)
  | 17 => some ((regs.set reg imm).exDefault data fixup)
  | 19 => some ((regs.set 1 (imm * regs.gp 1 + regs.gp reg)).exDefault data fixup)
  | _ => none

def Frame.regs (frame : Frame) : Regs := ⟨fun r => frame (slot r), frame ripSlot⟩

/-- The table is what the guest has between the two addresses. -/
structure Table.Holds (t : Table) (start stop : BitVec 64) (words : Nat → BitVec 32) : Prop where
  place : t.start = start
  count : t.count * entrySize = ulong (stop - start).toNat
  entry : ∀ i < t.count, t.entry i = ⟨words (3 * i), words (3 * i + 1), words (3 * i + 2)⟩

/-- What a fixup does: which entry it selects, when it succeeds, and what it leaves. Of the registers it leaves those
alone that the entry does not name, as `fixup_exception` does. -/
structure Fixes (t : Table) (frame : Frame) (vector : BitVec 64) (out : Outcome) : Prop where
  selected : ∀ i, t.find (frame ripSlot) = some i → i < t.count ∧ t.insnAddr i = frame ripSlot
  complete : ∀ i < t.count, t.insnAddr i = frame ripSlot → (t.find (frame ripSlot)).isSome
  distinct : (∀ i < t.count, ∀ j < t.count, t.insnAddr i = t.insnAddr j → i = j) →
    ∀ i < t.count, t.insnAddr i = frame ripSlot → t.find (frame ripSlot) = some i
  succeeds : out.fixed = true ↔ ∃ i, t.find (frame ripSlot) = some i ∧
    (fixupException (t.entry i).data (t.fixupAddr i) vector (Frame.regs frame)).isSome
  refused : out.fixed = false → out.frame = frame
  fixed : out.fixed = true → ∃ i, t.find (frame ripSlot) = some i ∧ out.frame ripSlot = t.fixupAddr i ∧
    fixupException (t.entry i).data (t.fixupAddr i) vector (Frame.regs frame) = some (Frame.regs out.frame) ∧
    ∀ k, k ≠ ripSlot → (∀ r, k ≠ slot r) → out.frame k = frame k

end MoCoLinux.Arch.Extable
