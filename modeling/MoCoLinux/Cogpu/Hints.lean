import MoCoLinux.Common
import MoCoLinux.Lib.Recency

/-!
# Readbacks in a command stream (`cogpu-daemon/vrend.c`)

Before it runs a command stream, the daemon looks in its own copy for packets that read a resource back, and keeps a
hint for each such resource. A packet is a header, which has its opcode and the number of words behind it, and these
words. A read outside of the stream is `none`.
-/

namespace MoCoLinux.Cogpu

structure Hint where
  resourceId : UInt32
  level : UInt32
  x : UInt32
  y : UInt32
  width : UInt32
  height : UInt32
  deriving DecidableEq, Repr

def maxPresentHints : Nat := 8

/-- `COGPU_VIRGL_CCMD_TRANSFER3D` and `COGPU_VIRGL_CCMD_COPY_TRANSFER3D`, with the sizes of their packets. -/
def ccmdTransfer3d : Nat := 43

def ccmdCopyTransfer3d : Nat := 45

def transfer3dSize : Nat := 13

def copyTransfer3dSize : Nat := 14

def transferFromHost : UInt32 := 2

def copyReadFromHost : UInt32 := 2

def packetLength (header : UInt32) : Nat := header.toNat >>> 16

def packetOpcode (header : UInt32) : Nat := header.toNat &&& 0xff

/-- `vrend_add_present_hint`; `present_hint_count` is the length of the list. -/
def addPresentHint (hints : List Hint) (command : Nat → Option UInt32) : Option (List Hint) := do
  let hint : Hint := ⟨← command 1, ← command 2, ← command 6, ← command 7, ← command 9, ← command 10⟩
  return Recency.insert Hint.resourceId maxPresentHints hints hint

/-- The two conditions of the loop. Neither looks further than the packet is long. -/
def readsBack (command : Nat → Option UInt32) (opcode length : Nat) : Option Bool :=
  if opcode = ccmdTransfer3d ∧ transfer3dSize ≤ length then (command 13).map (· == transferFromHost)
  else if opcode = ccmdCopyTransfer3d ∧ length = copyTransfer3dSize then
    (command 14).map (· &&& copyReadFromHost != 0)
  else some false

def visit (command : Nat → Option UInt32) (header : UInt32) (hints : List Hint) : Option (List Hint) :=
  (readsBack command (packetOpcode header) (packetLength header)).bind fun back =>
    if back then addPresentHint hints command else some hints

def hintLoop (stream : List UInt32) : Nat → Nat → List Hint → Option (List Hint)
  | 0, _, _ => none
  | fuel + 1, offset, hints =>
    if offset < stream.length then
      stream[offset]?.bind fun header =>
        if u32Sub (u32Sub stream.length offset) 1 < packetLength header then some hints
        else (visit (fun i => stream[offset + i]?) header hints).bind
          (hintLoop stream fuel (u32 (offset + (packetLength header + 1))))
    else some hints

def findPresentHints (stream : List UInt32) : Option (List Hint) := hintLoop stream (stream.length + 1) 0 []

/-- The packets of the well-formed prefix: those that end inside of the stream, up to the first that does not. -/
def packets : List UInt32 → List (List UInt32)
  | [] => []
  | header :: rest =>
    if packetLength header ≤ rest.length then
      (header :: rest.take (packetLength header)) :: packets (rest.drop (packetLength header))
    else []
  termination_by stream => stream.length
  decreasing_by
    simp only [List.length_drop, List.length_cons]
    omega

/-- The packet transfers from the host, or copies and reads from the host. -/
def isReadback (word : Nat → UInt32) : Bool :=
  packetOpcode (word 0) == ccmdTransfer3d && transfer3dSize ≤ packetLength (word 0) && word 13 == transferFromHost ||
  packetOpcode (word 0) == ccmdCopyTransfer3d && packetLength (word 0) == copyTransfer3dSize &&
    word 14 &&& copyReadFromHost != 0

def hintOf (word : Nat → UInt32) : Hint := ⟨word 1, word 2, word 6, word 7, word 9, word 10⟩

def readbacks (stream : List UInt32) : List Hint :=
  ((packets stream).map fun packet i => packet.getD i 0).filter isReadback |>.map hintOf

end MoCoLinux.Cogpu
