import MoCoLinux.Common
import MoCoLinux.Lib.Ring
import MoCoLinux.Lib.Threads

/-!
# The X connection in guest memory (`coxwire-guest.c` and the daemon's `xwire.c`)

The guest copies what an X client sends into one ring and what the X server answers from the other to the client. The
host does the same between the rings and the X server. The region is some pages of guest memory, of which the host has
a pointer each.

A socket call moves its bytes one at a time, and how many it moves, or that it would block or is interrupted, is chosen
by the environment. A read reports that the peer has closed after all its bytes; a write fails only once the peer has
closed. The counters that are only for statistics and idling are left out.
-/

namespace MoCoLinux.Xwire

open Function
open Threads (Prog)

/-! ## The region -/

/-- `COXWIRE_PAGE`. -/
def pageBytes : Nat := 4096

def ringBytes : Nat := 4 * 1024 * 1024

/-- The two directions: from the client to the X server, and back. -/
inductive Dir where
  | tx
  | rx
  deriving DecidableEq, Repr

def Dir.off : Dir → Nat
  | .tx => pageBytes
  | .rx => pageBytes + ringBytes

def Dir.other : Dir → Dir
  | .tx => .rx
  | .rx => .tx

/-- The pages of `COXWIRE_REGION_BYTES`, which the guest announces. -/
def regionPages : Nat := (pageBytes + ringBytes + ringBytes) / pageBytes

/-- The loop of `build_runs`, for the page with so many pages behind it. -/
def buildRuns (page : Nat → Nat) : Nat → Nat → Nat
  | 0, _ => pageBytes
  | left + 1, i => if page i + pageBytes = page (i + 1) then pageBytes + buildRuns page left (i + 1) else pageBytes

def maxPages : Nat := 2100

/-- The pages of `struct xchan`, as the host sees them, with the limits `accept_chan` has tested. Pages may overlap. -/
structure Chan where
  page : Nat → Nat
  npages : Nat
  pos : 0 < npages
  bound : npages ≤ maxPages

namespace Chan

def runlen (c : Chan) (i : Nat) : Nat := u32 (buildRuns c.page (c.npages - 1 - i) i)

/-- `at`: a byte of the channel as a host pointer, and how many contiguous bytes follow it. -/
def hostAt (c : Chan) (off : Nat) : Option (Nat × Nat) :=
  if c.npages ≤ off / pageBytes then none
  else some (c.page (off / pageBytes) + off % pageBytes, u32Sub (c.runlen (off / pageBytes)) (off % pageBytes))

def addr (c : Chan) (off : Nat) : Option Nat :=
  if off / pageBytes < c.npages then some (c.page (off / pageBytes) + off % pageBytes) else none

end Chan

/-- The pages of a guest that announces its region: no two of them overlap. -/
structure Region where
  page : Nat → Nat
  apart : ∀ i < regionPages, ∀ j < regionPages, i ≠ j → page i + pageBytes ≤ page j ∨ page j + pageBytes ≤ page i

namespace Region

def chan (r : Region) : Chan := ⟨r.page, regionPages, by decide, by decide⟩

def addr (r : Region) (off : Nat) : Nat := r.page (off / pageBytes) + off % pageBytes

def cell (r : Region) (off position : Nat) : Nat := r.addr (off + position % ringBytes)

end Region

/-! ## State -/

/-- One direction: the two counters of the header, and the sockets at its ends. -/
structure Pipe where
  head : Nat
  tail : Nat
  /-- What the peer at the source has sent, whether it has closed, and how much of it was read. -/
  sent : List UInt8
  ended : Bool
  taken : Nat
  given : List UInt8
  /-- History: how many bytes were published in `head`, and how many were given back in `tail`. -/
  shown : Nat
  freed : Nat

inductive Side where
  | guest
  | host
  deriving DecidableEq, Repr

def Side.other : Side → Side
  | .guest => .host
  | .host => .guest

def Side.fills : Side → Dir
  | .guest => .tx
  | .host => .rx

def Side.empties : Side → Dir
  | .guest => .rx
  | .host => .tx

structure Wire where
  mem : Nat → UInt8
  pipe : Dir → Pipe
  closed : Bool
  /-- The side has closed its socket; the guest has given its pages back then. -/
  done : Side → Bool
  left : Side → Bool
  /-- History: how often a write at the end of the direction failed, and how often a side found `closed` set. -/
  broken : Dir → Nat
  noticed : Side → Nat

namespace Wire

def setPipe (s : Wire) (d : Dir) (p : Pipe) : Wire := { s with pipe := update s.pipe d p }

/-- The peer at the end of a direction has closed. It is the one at the source of the other direction. -/
def sinkEnded (s : Wire) (d : Dir) : Bool := (s.pipe d.other).ended

def takeByte (s : Wire) (d : Dir) (a : Nat) : Wire :=
  let p := s.pipe d
  { s.setPipe d { p with taken := p.taken + 1 } with mem := update s.mem a (p.sent.getD p.taken 0) }

def giveByte (s : Wire) (d : Dir) (a : Nat) : Wire :=
  let p := s.pipe d
  s.setPipe d { p with given := p.given ++ [s.mem a] }

def publish (s : Wire) (d : Dir) (head n : Nat) : Wire :=
  let p := s.pipe d
  s.setPipe d { p with head := head, shown := p.shown + n }

def release (s : Wire) (d : Dir) (tail n : Nat) : Wire :=
  let p := s.pipe d
  s.setPipe d { p with tail := tail, freed := p.freed + n }

end Wire

/-! ## Sockets -/

def takeBytes (d : Dir) (addr : Nat → Nat) : Nat → Nat → Prog Wire Unit
  | 0, _ => pure ()
  | n + 1, i => do
      Prog.write fun s => s.takeByte d (addr i)
      takeBytes d addr n (i + 1)

def giveBytes (d : Dir) (addr : Nat → Nat) : Nat → Nat → Prog Wire Unit
  | 0, _ => pure ()
  | n + 1, i => do
      Prog.write fun s => s.giveByte d (addr i)
      giveBytes d addr n (i + 1)

/-- How a read ends: nothing came, the peer has closed, or some bytes came. -/
inductive Received where
  | blocked
  | ended
  | got (n : Nat)

def recv (d : Dir) (addr : Nat → Nat) (run : Nat) : Prog Wire Received := do
  let n ← Prog.pick
  if n = 0 then pure .blocked
  else do
    let left ← Prog.read fun s => ((s.pipe d).sent.length - (s.pipe d).taken, (s.pipe d).ended)
    if left.1 = 0 then pure (if left.2 then .ended else .blocked)
    else do
      takeBytes d addr (min n (min run left.1)) 0
      pure (.got (min n (min run left.1)))

inductive Sent where
  | blocked
  | broken
  | put (n : Nat)

/-- `write` and `send` of at most `run` bytes. After the peer has closed they may fail. -/
def send (d : Dir) (addr : Nat → Nat) (run : Nat) : Prog Wire Sent := do
  let n ← Prog.pick
  let fails ← Prog.pick
  if n = 0 then pure .blocked
  else do
    let gone ← Prog.act (fun s => some (decide (fails ≠ 0) && s.sinkEnded d,
      if decide (fails ≠ 0) && s.sinkEnded d then
        { s with broken := update s.broken d (s.broken d + 1) } else s)) Prog.ret
    if gone then pure .broken
    else do
      giveBytes d addr (min n run) 0
      pure (.put (min n run))

/-! ## Passes -/

section

variable {σ : Type}

/-- What `pump_tx` and `fill_rx` do once they know where there is space: nothing on an error or at the end, or the
number of bytes. -/
def fill (recv : Prog σ Received) (publish : Nat → σ → σ) : Prog σ (Option Nat) := do
  match ← recv with
  | .blocked => pure (some 0)
  | .ended => pure none
  | .got n => do
      Prog.write (publish n)
      pure (some n)

def space (head tail : Nat) : Nat := u32Sub ringBytes (u32 (ullongSub head tail))

/-- What the passes of `xwire.c` work with: the pages, the counters in the header, and the socket. -/
structure Host (σ : Type) where
  chan : Chan
  head : Dir → σ → Nat
  tail : Dir → σ → Nat
  send : (p run : Nat) → Prog σ Sent
  recv : (p run : Nat) → Prog σ Received
  /-- A counter is set after so many bytes. -/
  release : (tail n : Nat) → σ → σ
  publish : (head n : Nat) → σ → σ

namespace Host

/-- The loop of `drain_tx`. Each turn sends a byte at least, so that there are no more turns than bytes. -/
def drainLoop (h : Host σ) : Nat → Nat → Nat → Nat → Prog σ (Option Nat)
  | 0, _, _, moved => pure (some moved)
  | turns + 1, tail, avail, moved =>
    if avail = 0 then pure (some moved)
    else
      let idx := tail % ringBytes
      match h.chan.hostAt (Dir.tx.off + idx) with
      | none => pure none
      | some (p, run) => do
          match ← h.send p (min (min run (ringBytes - idx)) avail) with
          | .blocked => pure (some moved)
          | .broken => pure none
          | .put n => do
              Prog.write (h.release (ullong (tail + n)) n)
              if 2 ^ 20 < moved + n then pure (some (moved + n))
              else drainLoop h turns (ullong (tail + n)) (u32Sub avail n) (moved + n)

def drainTx (h : Host σ) : Prog σ (Option Nat) := do
  let head ← Prog.read (h.head .tx)
  let tail ← Prog.read (h.tail .tx)
  let avail := u32 (ullongSub head tail)
  h.drainLoop avail tail avail 0

def fillRx (h : Host σ) : Prog σ (Option Nat) := do
  let head ← Prog.read (h.head .rx)
  let tail ← Prog.read (h.tail .rx)
  if space head tail = 0 then pure (some 0)
  else
    let idx := head % ringBytes
    match h.chan.hostAt (Dir.rx.off + idx) with
    | none => pure none
    | some (p, run) =>
      fill (h.recv p (min (min run (ringBytes - idx)) (space head tail))) fun n => h.publish (ullong (head + n)) n

end Host

/-- The end of a turn of `chan_thread`, with what its two passes returned. -/
def endTurn (closed : Prog σ Bool) (free : Prog σ Unit) (a b : Option Nat) : Prog σ Unit :=
  if a = none ∨ b = none then free
  else do
    let closed ← closed
    if closed then free else pure ()

end

def pumpTx (r : Region) : Prog Wire (Option Nat) := do
  let head ← Prog.read fun s => (s.pipe .tx).head
  let tail ← Prog.read fun s => (s.pipe .tx).tail
  if space head tail = 0 then pure (some 0)
  else do
    let start := head % ringBytes
    let recv := recv .tx (fun i => r.addr (Dir.tx.off + start + i)) (min (ringBytes - start) (space head tail))
    let moved ← fill recv fun n s => s.publish .tx (ullong (head + n)) n
    pure (moved.map fun n => min n 1)

def pumpRx (r : Region) : Prog Wire (Option Nat) := do
  let head ← Prog.read fun s => (s.pipe .rx).head
  let tail ← Prog.read fun s => (s.pipe .rx).tail
  let avail := u32 (ullongSub head tail)
  if avail = 0 then pure (some 0)
  else do
    let start := tail % ringBytes
    match ← send .rx (fun i => r.addr (Dir.rx.off + start + i)) (min (ringBytes - start) avail) with
    | .blocked => pure (some 0)
    | .broken => pure none
    | .put n => do
        Prog.write fun s => s.release .rx (ullong (tail + n)) n
        pure (some 1)

def Region.host (r : Region) : Host Wire where
  chan := r.chan
  head d s := (s.pipe d).head
  tail d s := (s.pipe d).tail
  send p := send .tx fun i => p + i
  recv p := recv .rx fun i => p + i
  release tail n s := s.release .tx tail n
  publish head n s := s.publish .rx head n

def drainTx (r : Region) : Prog Wire (Option Nat) := r.host.drainTx

def fillRx (r : Region) : Prog Wire (Option Nat) := r.host.fillRx

/-! ## The threads -/

def leaveLoop (side : Side) : Prog Wire Unit :=
  Prog.write fun s => { s with closed := true, left := update s.left side true }

/-- The side closes its sockets; the guest unmaps the region before. -/
def finish (s : Wire) (side : Side) : Wire := { s with done := update s.done side true }

/-- `chan_free`. The guest waits until the host has closed the control connection, but only for a time. -/
def chanFree : Side → Prog Wire Unit
  | .guest => do
      leaveLoop .guest
      let expired ← Prog.pick
      if expired = 0 then Prog.await (fun s => s.done .host) fun s => finish s .guest
      else Prog.write fun s => finish s .guest
  | .host => do
      leaveLoop .host
      Prog.write fun s => finish s .host

def notice (side : Side) : Prog Wire Bool :=
  Prog.act (fun s => some (s.closed,
    if s.closed then { s with noticed := update s.noticed side (s.noticed side + 1) } else s)) Prog.ret

def turn (r : Region) : Side → Prog Wire Unit
  | .guest => do
      let a ← pumpTx r
      let b ← pumpRx r
      endTurn (notice .guest) (chanFree .guest) a b
  | .host => do
      let a ← drainTx r
      let b ← fillRx r
      endTurn (notice .host) (chanFree .host) a b

def passes (r : Region) : Side → List (Prog Wire (Option Nat))
  | .guest => [pumpTx r, pumpRx r]
  | .host => [drainTx r, fillRx r]

/-! ## The rest of the world -/

def sendByte (d : Dir) (b : UInt8) : Prog Wire Unit :=
  Prog.write fun s => if (s.pipe d).ended then s else s.setPipe d { s.pipe d with sent := (s.pipe d).sent ++ [b] }

def shut (d : Dir) : Prog Wire Unit := Prog.write fun s => s.setPipe d { s.pipe d with ended := true }

def scribble (mem : Nat → UInt8) (head tail : Dir → Nat) (closed : Bool) : Prog Wire Unit :=
  Prog.write fun s =>
    { s with mem := mem, pipe := fun d => { s.pipe d with head := head d, tail := tail d }, closed := closed }

inductive Party where
  | side (side : Side)
  | peer (d : Dir)
  | others
  deriving DecidableEq

/-- Either only passes are run, in any order, or the threads of a channel one of whose peers closes at some time, the
one at the source of a direction. -/
def Calls (r : Region) (closing : Option Dir) : Party → Wire → Prog Wire Unit → Prop
  | .side side, s, p =>
    (closing = none ∧ ∃ pass ∈ passes r side, p = do let _ ← pass; pure ()) ∨
    (closing ≠ none ∧ s.left side = false ∧ p = turn r side)
  | .peer d, _, p => (∃ b, p = sendByte d b) ∨ ((closing = none ∨ closing = some d) ∧ p = shut d)
  | .others, s, p => s.done .guest = true ∧ ∃ mem head tail closed, p = scribble mem head tail closed

structure Start (s : Wire) : Prop where
  pipe : ∀ d, s.pipe d = ⟨0, 0, [], false, 0, [], 0, 0⟩
  closed : s.closed = false
  done : ∀ side, s.done side = false
  left : ∀ side, s.left side = false

def Reachable (r : Region) (closing : Option Dir) (allowed : Party → Wire → Wire → Prop) :
    Threads.Config Wire Party → Prop :=
  Threads.Reachable Start (Calls r closing) allowed

/-! ## What is promised -/

/-- What was delivered is the beginning of what was read, and every byte that was read and not delivered yet is in its
place. -/
structure Carries (r : Region) (s : Wire) (d : Dir) : Prop where
  delivered : (s.pipe d).given <+: (s.pipe d).sent.take (s.pipe d).taken
  kept : ∀ q, (s.pipe d).given.length ≤ q → q < (s.pipe d).taken → s.mem (r.cell d.off q) = (s.pipe d).sent.getD q 0

def Dir.emptier : Dir → Side
  | .tx => .host
  | .rx => .guest

def Delivered (p : Pipe) : Prop := p.ended = true ∧ p.given = p.sent

/-- `closed` is found set only when the ring is empty, a write to the peer that sends fails only when all of its bytes
were read, and the guest gives its pages back only after the host has left its loop. -/
structure Orderly (d : Dir) (s s' : Wire) : Prop where
  notice : s'.noticed d.emptier ≠ s.noticed d.emptier → (s.pipe d).head = (s.pipe d).tail
  broken : s'.broken d.other ≠ s.broken d.other → (s.pipe d).taken = (s.pipe d).sent.length
  unmap : d = .tx → s'.done .guest ≠ s.done .guest → s.left .host = true

end MoCoLinux.Xwire
