import MoCoLinux.Common

/-!
# Presentation records (`user/copresent/copresent.h`)
-/

namespace MoCoLinux.Copresent

def version : Nat := 1

/-! `enum copresent_opcode` -/

def opBind : Nat := 1
def opPresent : Nat := 2
def opUnbind : Nat := 3
def opBound : Nat := 0x101
def opRelease : Nat := 0x102
def opUnbound : Nat := 0x103
def opError : Nat := 0x1ff

/-! `enum copresent_status`, as far as the rings and the broker read it -/

def statusOk : Nat := 0
def statusBadRecord : Nat := 1

structure Record where
  opcode : Nat
  version : Nat
  generation : Nat
  connection : Nat
  buffer : Nat
  serial : Nat
  xid : Nat
  resourceId : Nat
  width : Nat
  height : Nat
  damageX : Nat
  damageY : Nat
  damageWidth : Nat
  damageHeight : Nat
  flags : Nat
  status : Nat
  deriving DecidableEq, Repr

namespace Record

def words (r : Record) : List Nat :=
  [r.opcode, r.version, r.generation, r.connection, r.buffer, r.serial, r.xid, r.resourceId, r.width, r.height,
    r.damageX, r.damageY, r.damageWidth, r.damageHeight, r.flags, r.status]

def ofWords (w : List Nat) : Record where
  opcode := w.getD 0 0
  version := w.getD 1 0
  generation := w.getD 2 0
  connection := w.getD 3 0
  buffer := w.getD 4 0
  serial := w.getD 5 0
  xid := w.getD 6 0
  resourceId := w.getD 7 0
  width := w.getD 8 0
  height := w.getD 9 0
  damageX := w.getD 10 0
  damageY := w.getD 11 0
  damageWidth := w.getD 12 0
  damageHeight := w.getD 13 0
  flags := w.getD 14 0
  status := w.getD 15 0

theorem ofWords_words (r : Record) : ofWords r.words = r := rfl

theorem length_words (r : Record) : r.words.length = 16 := rfl

/-- `handle_record`: what is answered to a request, where `status` is what the renderer or the presenter said. -/
def answer (generation status : Nat) (request : Record) : Record :=
  if request.version ≠ Copresent.version ∨ request.generation ≠ generation ∨ request.connection = 0 then
    { request with opcode := opError, status := statusBadRecord }
  else if request.opcode = opBind then { request with opcode := opBound, status := u32 status }
  else if request.opcode = opPresent then { request with opcode := opRelease, status := u32 status }
  else if request.opcode = opUnbind then { request with opcode := opUnbound, status := u32 status }
  else { request with opcode := opError, status := statusBadRecord }

end Record

end MoCoLinux.Copresent
