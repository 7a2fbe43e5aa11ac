import MoCoLinux.Lib.Ring
import MoCoLinux.Lib.Threads
import MoCoLinux.Net.Batch

/-!
# The transmit ring (`co_net_xmit` of the guest, `ring_loop` in `user/slirp/co_main.c`)

The guest places frames in the ring. In each turn of its loop the bridge copies the ring (`co_net_fetch`), hands
the frames in the copy to slirp (`co_net_walk` with `ring_frame`) and moves the tail (`co_net_take`). What slirp puts
out while it is handed a frame, and what the driver answers, is a script of the turn. The index words are read
and written in one access, and so is a length word of the guest; other bytes are moved one by one.
-/

namespace MoCoLinux.Net

open Threads (Prog)

/-- A call of `slirp_output_to_ring`, with what the driver answers should it flush. -/
structure SlirpOutput where
  answer : Answer
  pkt : Nat → UInt8
  pktLen : Int32

/-- What slirp and the driver do in one turn: for each frame that is handed over, in the poll of slirp's sockets,
and at the flush. -/
structure Script where
  frames : Nat → List SlirpOutput
  poll : List SlirpOutput
  flush : Answer

def runSlirp (outputs : List SlirpOutput) (b : Batch) : Batch :=
  outputs.foldl (fun b o => b.output o.answer o.pkt o.pktLen) b

def Script.batchAfter (script : Script) (b : Batch) : Nat → Batch
  | 0 => b
  | n + 1 => runSlirp (script.frames n) (script.batchAfter b n)

/-- What the two sides share, the batch of the bridge, and whether `ring_loop` has returned. Then the history: where
the indices started, the bytes published since, the frames placed and those handed to slirp, the position of the tail,
the head of the last fetch, and whether a walk found the ring corrupt. -/
structure Tx where
  tx : Nat → UInt8
  txHead : Nat
  txTail : Nat
  batch : Batch
  stopped : Bool
  start : Nat
  stream : List UInt8
  placed : List Frame
  handed : List Frame
  tail : Nat
  seen : Nat
  corrupt : Bool

namespace Tx

def head (s : Tx) : Nat := s.start + s.stream.length

/-! ## The guest -/

def storeBytes : Nat → List UInt8 → Prog Tx Unit
  | _, [] => pure ()
  | off, b :: bs => do
      Prog.write fun s => { s with tx := Function.update s.tx off b }
      storeBytes (off + 1) bs

/-- The copies of a frame: up to the end of the ring, and the rest from its beginning. -/
def storeFrame (off : Nat) (frame : Frame) : Prog Tx Unit :=
  let first := min frame.length (ringSize - off)
  do
    storeBytes off (frame.take first)
    if first < frame.length then storeBytes 0 (frame.drop first) else pure ()

def xmit (frame : Frame) : Prog Tx Unit := do
  let head ← Prog.read Tx.txHead
  let tail ← Prog.read Tx.txTail
  if maxFrame < frame.length then pure ()
  else if ringSize < u32 (u32Sub head tail + recordBytes frame.length) then pure ()
  else do
    Prog.write fun s => { s with tx := putBytes s.tx (head &&& (ringSize - 1)) (word32 frame.length) }
    storeFrame (((head &&& (ringSize - 1)) + 4) &&& (ringSize - 1)) frame
    Prog.write fun s =>
      { s with
        txHead := u32 (head + recordBytes frame.length)
        stream := s.stream ++ Ring.slice ringSize s.tx s.head (recordBytes frame.length)
        placed := s.placed ++ [frame] }

/-! ## The fetch -/

/-- What `co_manager_conet_dump` gives: the indices, the size, and the buffer with the bytes in it. -/
structure Dump where
  head : Nat
  tail : Nat
  size : Nat
  ring : Nat → UInt8

/-- `co_kload_read` of `n` bytes at `off` of the ring to `dst` of the buffer. It may fail before any byte. -/
def dumpBytes : Nat → Nat → Nat → (Nat → UInt8) → Prog Tx (Option (Nat → UInt8))
  | _, _, 0, ring => pure (some ring)
  | off, dst, n + 1, ring => do
      let works ← Prog.pick
      if works = 0 then pure none
      else do
        let b ← Prog.read fun s => s.tx off
        dumpBytes (off + 1) (dst + 1) n (Function.update ring dst b)

/-- `co_net_dump` with the request around it, which may fail for reasons of its own. -/
def dump (start want dst : Nat) (ring : Nat → UInt8) : Prog Tx (Option Dump) := do
  let works ← Prog.pick
  if works = 0 then pure none
  else do
    let head ← Prog.read Tx.txHead
    let tail ← Prog.read Tx.txTail
    let want := if ringSize < want then ringSize else want
    let off := start &&& (ringSize - 1)
    let first := if want < ringSize - off then want else ringSize - off
    match ← dumpBytes off dst first ring with
    | none => pure none
    | some ring =>
      if first < want then do
        match ← dumpBytes 0 (dst + first) (want - first) ring with
        | none => pure none
        | some ring => pure (some ⟨head, tail, want, ring⟩)
      else pure (some ⟨head, tail, want, ring⟩)

def fetchWant (left off : Nat) : Nat := min (min left 8192) (ringSize - off)

/-- The loop of `co_net_fetch`, which runs at most once for each byte. -/
def fetchLoop (tail used : Nat) : Nat → Nat → (Nat → UInt8) → Prog Tx (Option (Nat → UInt8))
  | 0, _, ring => pure (some ring)
  | fuel + 1, done, ring =>
    if done < used then do
      let pos := u32 (tail + done)
      let off := pos &&& (ringSize - 1)
      match ← dump pos (fetchWant (used - done) off) off ring with
      | none => pure none
      | some d => if d.size = 0 then pure none else fetchLoop tail used fuel (done + d.size) d.ring
    else pure (some ring)

def fetch : Prog Tx (Option (Nat × Nat × (Nat → UInt8))) := do
  match ← dump 0 0 0 fun _ => 0 with
  | none => pure none
  | some d =>
    let used := u32Sub d.head d.tail
    if used = 0 ∨ ringSize < used then pure (some (d.head, d.tail, d.ring))
    else do
      match ← fetchLoop d.tail used used 0 d.ring with
      | none => pure none
      | some ring => pure (some (d.head, d.tail, ring))

/-! ## The walk -/

def ringFrame (outputs : List SlirpOutput) (frame : Frame) : Prog Tx Bool := do
  let full ← Prog.read fun s => s.batch.rxFull
  if full then pure false
  else do
    Prog.write fun s => { s with handed := s.handed ++ [frame], batch := runSlirp outputs s.batch }
    let full ← Prog.read fun s => s.batch.rxFull
    pure (!full)

def frameIn (ring : Nat → UInt8) (off len : Nat) : Frame :=
  let first := if len < ringSize - off then len else ringSize - off
  bytesAt ring off first ++ bytesAt ring 0 (len - first)

/-- The loop of `co_net_walk`, which runs at most once for each byte. It gives the position it consumed up to,
or nothing when the ring is corrupt. -/
def walkLoop (ring : Nat → UInt8) (script : Script) (head : Nat) : Nat → Nat → Nat → Prog Tx (Option Nat)
  | 0, pos, _ => pure (some pos)
  | fuel + 1, pos, k =>
    if pos = head then pure (some pos)
    else
      let off := pos &&& (ringSize - 1)
      let len := le32 (bytesAt ring off 4)
      if len = 0 ∨ maxFrame < len ∨ u32Sub head pos < recordBytes len then pure none
      else do
        let goes ← ringFrame (script.frames k) (frameIn ring ((off + 4) &&& (ringSize - 1)) len)
        if goes then walkLoop ring script head fuel (u32 (pos + recordBytes len)) (k + 1)
        else pure (some pos)

def walk (ring : Nat → UInt8) (script : Script) (head tail : Nat) : Prog Tx (Option Nat) :=
  if ringSize < u32Sub head tail then pure none else walkLoop ring script head (u32Sub head tail) tail 0

/-! ## The loop -/

/-- `co_net_take` with the request around it: whether it answers OK. -/
def take (newTail : Nat) : Prog Tx Bool := do
  let works ← Prog.pick
  if works = 0 then pure false
  else do
    let head ← Prog.read Tx.txHead
    let tail ← Prog.read Tx.txTail
    if u32Sub head tail < u32Sub newTail tail then pure false
    else if newTail = tail then do
      let works ← Prog.pick
      pure (works != 0)
    else do
      let works ← Prog.pick
      if works = 0 then pure false
      else do
        Prog.write fun s => { s with txTail := newTail, tail := s.tail + u32Sub newTail s.txTail }
        let works ← Prog.pick
        pure (works != 0)

def stop (corrupt : Bool) : Prog Tx Unit :=
  Prog.write fun s => { s with stopped := true, corrupt := s.corrupt || corrupt }

def poll (script : Script) : Prog Tx Unit :=
  Prog.write fun s => { s with batch := (runSlirp script.poll s.batch).flush script.flush }

def turn (script : Script) : Prog Tx Unit := do
  Prog.write fun s => { s with batch := { s.batch with rxFull := false } }
  match ← fetch with
  | none => do
      let gone ← Prog.pick
      if gone = 0 then stop false else pure ()
  | some (head, tail, ring) => do
      Prog.write fun s => { s with seen := s.tail + u32Sub head s.txTail }
      match ← walk ring script head tail with
      | none => stop true
      | some consumed =>
        if consumed = tail then poll script
        else do
          let ok ← take consumed
          if ok then poll script else stop false

/-! ## Both sides together -/

inductive Party where
  | guest
  | bridge
  deriving DecidableEq

/-- The programs of the parties. The frames the guest transmits are those of legal size. -/
def Calls : Party → Tx → Prog Tx Unit → Prop
  | .guest, _, p => ∃ frame, Legal frame ∧ p = xmit frame
  | .bridge, s, p => s.stopped = false ∧ ∃ script, p = turn script

/-- No frame of the turn makes slirp raise `ring_rx_full`. -/
def Undisturbed (script : Script) (b : Batch) : Prop :=
  ∀ n, (script.batchAfter { b with rxFull := false } n).rxFull = false

def QuietCalls : Party → Tx → Prog Tx Unit → Prop
  | .guest, _, p => ∃ frame, Legal frame ∧ p = xmit frame
  | .bridge, s, p => s.stopped = false ∧ ∃ script, Undisturbed script s.batch ∧ p = turn script

structure Start (s : Tx) : Prop where
  word : s.start < 2 ^ 32
  aligned : s.start % 4 = 0
  head : s.txHead = s.start
  tail : s.txTail = s.start
  position : s.tail = s.start
  seen : s.seen = s.start
  stream : s.stream = []
  placed : s.placed = []
  handed : s.handed = []
  corrupt : s.corrupt = false

def Reachable : Threads.Config Tx Party → Prop := Threads.Reachable Start Calls fun _ _ _ => True

/-- The configurations reached in any interleaving in which every turn is undisturbed. -/
def QuietlyReachable : Threads.Config Tx Party → Prop := Threads.Reachable Start QuietCalls fun _ _ _ => True

end Tx

end MoCoLinux.Net
