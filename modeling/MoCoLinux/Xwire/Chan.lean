import MoCoLinux.Xwire.Channel

/-!
# The host's passes over a header it cannot trust (`xwire.c`)

The guest announces any pages, any number of them up to a limit, and writes to the header what it likes while the host
runs. These are the passes of `chan_thread` without the bytes, but with the buffers they hand to the socket.
-/

namespace MoCoLinux.Xwire

open Threads (Prog)

def magic : Nat := 0x58574952

structure Open where
  magic : Nat
  ringBytes : Nat
  npages : Nat

/-- `accept_chan`: the channel when the announcement is sane and each page can be resolved. -/
def acceptChan (op : Open) (gpa : Nat → Nat) (resolve : Nat → Option Nat) : Option Chan :=
  if op.magic ≠ magic then none
  else if h : op.npages = 0 ∨ maxPages < op.npages ∨ op.ringBytes ≠ ringBytes then none
  else if ∀ i < op.npages, (resolve (gpa i)).isSome then
    some ⟨fun i => (resolve (gpa i)).getD 0, op.npages, Nat.pos_of_ne_zero fun hz => h (.inl hz),
      Nat.not_lt.mp fun hlt => h (.inr (.inl hlt))⟩
  else none

structure Buffer where
  addr : Nat
  len : Nat
  deriving DecidableEq, Repr

structure Hdr where
  head : Dir → Nat
  tail : Dir → Nat
  closed : Bool
  /-- History: the buffers passed to `send`, and those passed to `recv`. -/
  sends : List Buffer
  recvs : List Buffer
  left : Bool

namespace Chan

def send (p run : Nat) : Prog Hdr Sent := do
  Prog.write fun s => { s with sends := s.sends ++ [⟨p, run⟩] }
  let n ← Prog.pick
  let fails ← Prog.pick
  if n = 0 then pure .blocked else if fails ≠ 0 then pure .broken else pure (.put (min n run))

/-- `recv`. A peer that has closed and an error have the same effect. -/
def recv (p run : Nat) : Prog Hdr Received := do
  Prog.write fun s => { s with recvs := s.recvs ++ [⟨p, run⟩] }
  let n ← Prog.pick
  let fails ← Prog.pick
  if n = 0 then pure .blocked else if fails ≠ 0 then pure .ended else pure (.got (min n run))

def host (c : Chan) : Host Hdr where
  chan := c
  head d s := s.head d
  tail d s := s.tail d
  send := send
  recv := recv
  release tail _ s := { s with tail := Function.update s.tail .tx tail }
  publish head _ s := { s with head := Function.update s.head .rx head }

def free : Prog Hdr Unit := Prog.write fun s => { s with closed := true, left := true }

def turn (c : Chan) : Prog Hdr Unit := do
  let a ← c.host.drainTx
  let b ← c.host.fillRx
  endTurn (Prog.read fun s => s.closed) free a b

def store (head tail : Dir → Nat) (closed : Bool) : Prog Hdr Unit :=
  Prog.write fun s => { s with head := head, tail := tail, closed := closed }

def Calls (c : Chan) : Side → Hdr → Prog Hdr Unit → Prop
  | .host, s, p => s.left = false ∧ p = c.turn
  | .guest, _, p => ∃ head tail closed, p = store head tail closed

structure Start (s : Hdr) : Prop where
  sends : s.sends = []
  recvs : s.recvs = []

def Reachable (c : Chan) : Threads.Config Hdr Side → Prop := Threads.Reachable Start c.Calls fun _ _ _ => True

/-- The buffer is so many consecutive bytes of a ring, and its pages are those of the ring. -/
def InRing (c : Chan) (d : Dir) (b : Buffer) : Prop :=
  ∃ start, start + b.len ≤ ringBytes ∧ ∀ k < b.len, c.addr (d.off + (start + k)) = some (b.addr + k)

structure Kept (c : Chan) (s : Hdr) : Prop where
  sends : ∀ b ∈ s.sends, c.InRing .tx b
  recvs : ∀ b ∈ s.recvs, c.InRing .rx b

end Chan

end MoCoLinux.Xwire
