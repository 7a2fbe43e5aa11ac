import MoCoLinux.Lib.Ring
import MoCoLinux.Lib.Threads
import MoCoLinux.Net.Record

/-!
# The receive ring (`co_net_put` in `kernel/net.c`, `co_net_rx_drain` in `drivers/net/conet_colinux.c`)

Any number of host callers append records to the ring, one at a time under `net_lock`; one thread of the guest
takes them out. The index words are read and written in one access, the bytes of the ring one by one, and any
access of the host to the guest's memory may fail.
-/

namespace MoCoLinux.Net

open Threads (Prog)

structure PutCall where
  data : Nat → UInt8
  size : Nat
  frames : Nat

/-- What a call answered, with `rx_head` when it took the lock and when it returned, and the frames that were
published in between. -/
structure PutResult where
  call : PutCall
  rc : Rc
  taken : Nat
  before : Nat
  after : Nat
  sent : List Frame

/-- What the two sides share, the statics of the driver and the statistics of the guest's device. Then the history:
where the indices started, the bytes and the frames published since, what the guest made of each record, the position
it consumed up to, the head its last pass saw, `rx_head` and the number of records when the lock was taken, and the
results of the calls. -/
structure Rx where
  hasLock : Bool
  ioVa : Nat
  lock : Option Nat
  rx : Nat → UInt8
  rxHead : Nat
  rxTail : Nat
  rxDropped : Nat
  rxErrors : Nat
  start : Nat
  stream : List UInt8
  published : List Frame
  extracted : List (Option Frame)
  tail : Nat
  seen : Nat
  entered : Nat
  enteredFrames : Nat
  results : List PutResult

namespace Rx

def head (s : Rx) : Nat := s.start + s.stream.length

/-- `co_kload_write` to the ring, from its byte `off` on. It may fail before any byte. -/
def copyIn : Nat → List UInt8 → Prog Rx Bool
  | _, [] => pure true
  | off, b :: bs => do
      let works ← Prog.pick
      if works = 0 then pure false
      else do
        Prog.write fun s => { s with rx := Function.update s.rx off b }
        copyIn (off + 1) bs

def readU32 (word : Rx → Nat) : Prog Rx (Option Nat) := do
  let works ← Prog.pick
  if works = 0 then pure none
  else do
    let v ← Prog.read word
    pure (some v)

/-- The two writes of a frame: up to the end of the ring, and the rest from its beginning. -/
def putFrame (data : Nat → UInt8) (off pos len : Nat) : Prog Rx Bool :=
  let first := if len < ringSize - off then len else ringSize - off
  do
    let ok ← copyIn off (bytesAt data (pos + 4) first)
    if ok then
      if first < len then copyIn 0 (bytesAt data (pos + 4 + first) (len - first)) else pure true
    else pure false

def putRecord (data : Nat → UInt8) (head pos len : Nat) : Prog Rx Bool := do
  let ok ← copyIn (head &&& (ringSize - 1)) (word32 len)
  if ok then putFrame data (((head &&& (ringSize - 1)) + 4) &&& (ringSize - 1)) pos len else pure false

/-- The loop of `co_net_put`; the first argument is `frames - n`. It ends with `head` and `n`, or with an error. -/
def putLoop (data : Nat → UInt8) (size tail : Nat) : Nat → Nat → Nat → Nat → Prog Rx (Except Rc (Nat × Nat))
  | 0, head, _, n => pure (.ok (head, n))
  | left + 1, head, pos, n =>
    if size < u32 (pos + 4) then pure (.error .invalidParameter)
    else
      let len := le32 (bytesAt data pos 4)
      if len = 0 ∨ maxFrame < len then pure (.error .invalidParameter)
      else
        let record := recordBytes len
        if size < u32 (pos + record) then pure (.error .invalidParameter)
        else if ringSize < u32 (u32Sub head tail + record) then pure (.ok (head, n))
        else do
          let ok ← putRecord data head pos len
          if ok then putLoop data size tail left (u32 (head + record)) (u32 (pos + record)) (n + 1)
          else pure (.error .error)

/-- The store to `rx_head`: the bytes up to the new head and the `n` records in them are published. -/
def publish (head n : Nat) : Prog Rx Rc := do
  let works ← Prog.pick
  if works = 0 then pure .error
  else do
    Prog.write fun s =>
      let bytes := Ring.slice ringSize s.rx s.head (u32Sub head s.rxHead)
      { s with rxHead := head, stream := s.stream ++ bytes, published := s.published ++ decode n bytes }
    pure .ok

def putLocked (c : PutCall) : Prog Rx (Rc × Nat) := do
  let va ← Prog.read Rx.ioVa
  if va = 0 then pure (.notFound, 0)
  else do
    match ← readU32 Rx.rxHead with
    | none => pure (.error, 0)
    | some head =>
      match ← readU32 Rx.rxTail with
      | none => pure (.error, 0)
      | some tail =>
        if ringSize < u32Sub head tail then pure (.error, 0)
        else do
          match ← putLoop c.data c.size tail c.frames head 0 0 with
          | .error rc => pure (rc, 0)
          | .ok (head, n) =>
            let rc ← if n ≠ 0 then publish head n else pure .ok
            if rc = .ok then if n = 0 then pure (.outOfMemory, 0) else pure (.ok, n)
            else pure (rc, 0)

def put (i : Nat) (c : PutCall) : Prog Rx Unit := do
  let created ← Prog.read Rx.hasLock
  if created then do
    Prog.await (fun s => s.lock.isNone) fun s =>
      { s with lock := some i, entered := s.rxHead, enteredFrames := s.published.length }
    let r ← putLocked c
    Prog.write fun s =>
      { s with
        lock := none
        results := s.results ++ [⟨c, r.1, r.2, s.entered, s.rxHead, s.published.drop s.enteredFrames⟩] }
  else Prog.write fun s => { s with results := s.results ++ [⟨c, .notFound, 0, s.rxHead, s.rxHead, []⟩] }

def copyOut (off : Nat) : Nat → Prog Rx (List UInt8)
  | 0 => pure []
  | n + 1 => do
      let b ← Prog.read fun s => s.rx off
      let bs ← copyOut (off + 1) n
      pure (b :: bs)

/-- The two `skb_put_data` calls for a frame: up to the end of the ring, and the rest from its beginning. -/
def copyFrame (off len : Nat) : Prog Rx Frame :=
  let first := min len (ringSize - off)
  do
    let front ← copyOut off first
    if first < len then do
      let back ← copyOut 0 (len - first)
      pure (front ++ back)
    else pure front

/-- One record of which the length has been read: `off` is where the frame begins. -/
def drainFrame (off len : Nat) : Prog Rx Unit := do
  let skb ← Prog.pick
  if skb = 0 then Prog.write fun s => { s with rxDropped := s.rxDropped + 1, extracted := s.extracted ++ [none] }
  else do
    let frame ← copyFrame off len
    Prog.write fun s => { s with extracted := s.extracted ++ [some frame] }

/-- The loop of `co_net_rx_drain`, which returns the tail. It runs at most once for each byte up to the head. -/
def drainLoop (head : Nat) : Nat → Nat → Prog Rx Nat
  | 0, tail => pure tail
  | fuel + 1, tail =>
    if tail = head then pure tail
    else do
      let off := tail &&& (ringSize - 1)
      let len ← Prog.read fun s => le32 (bytesAt s.rx off 4)
      if len = 0 ∨ maxFrame < len ∨ u32Sub head tail < recordBytes len then do
        Prog.write fun s => { s with rxErrors := s.rxErrors + 1 }
        pure head
      else do
        drainFrame ((off + 4) &&& (ringSize - 1)) len
        drainLoop head fuel (u32 (tail + recordBytes len))

def readHead : Prog Rx Nat := Prog.act (fun s => some (s.rxHead, { s with seen := s.head })) Prog.ret

def drain : Prog Rx Unit := do
  let head ← readHead
  let tail ← Prog.read Rx.rxTail
  let tail ← drainLoop head (u32Sub head tail) tail
  Prog.write fun s => { s with rxTail := tail, tail := s.tail + u32Sub tail s.rxTail }

inductive Party where
  | host (n : Nat)
  | guest
  deriving DecidableEq

def Calls : Party → Rx → Prog Rx Unit → Prop
  | .host n, _, p => ∃ c, p = put n c
  | .guest, _, p => p = drain

structure Start (s : Rx) : Prop where
  free : s.lock = none
  word : s.start < 2 ^ 32
  aligned : s.start % 4 = 0
  head : s.rxHead = s.start
  tail : s.rxTail = s.start
  position : s.tail = s.start
  seen : s.seen = s.start
  stream : s.stream = []
  published : s.published = []
  extracted : s.extracted = []
  results : s.results = []
  rxErrors : s.rxErrors = 0
  rxDropped : s.rxDropped = 0

def Reachable : Threads.Config Rx Party → Prop := Threads.Reachable Start Calls fun _ _ _ => True

end Rx

end MoCoLinux.Net
