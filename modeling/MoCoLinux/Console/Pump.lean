import MoCoLinux.Lib.Ring
import MoCoLinux.Lib.Threads
import MoCoLinux.Net.Record

/-!
# The console rings (`co_console_pump` in `kernel/console.c`, `drivers/tty/hvc/hvc_colinux.c` of the guest)

Host callers pump one at a time under `console_lock`. The guest prints from any number of threads under
`hvc_co_out_lock` and reads from one, which the hvc core sees to.

The guest loads and stores an index word in one access. The host goes through `co_kload_read` and
`co_kload_write`, which end in `memcpy`; as the comment above `co_kload_read_u32` in `kernel/kload.c` has it, that
is free to move four bytes as four byte moves. So it does here. An access fails, if at all, before its first byte:
no word crosses a page.
-/

namespace MoCoLinux

open Function
open Threads (Prog)

open Net (word32 le32)

inductive Index where
  | inHead
  | inTail
  | outHead
  | outTail
  deriving DecidableEq

def Index.ofHost : Index → Bool
  | .inHead => true
  | .inTail => false
  | .outHead => false
  | .outTail => true

def consoleInSize : Nat := 1024

def consoleOutSize : Nat := 4096

structure PumpCall where
  input : List UInt8
  outSize : Nat

/-- What a call answered, with the input bytes that were published while it held the lock. -/
structure PumpResult where
  call : PumpCall
  rc : Rc
  inTaken : Nat
  out : List UInt8
  published : List UInt8

/-- What the two sides share, and the statics of the driver. Then the history: the word the host is moving, the
accesses of the guest to each word; for each ring where its indices started, the bytes ever put in, the position of
the tail; what `get_chars` returned, how much input was published when the lock was taken, the results of the pumps,
and how often one skipped forward. -/
structure Console where
  hasLock : Bool
  ioVa : Nat
  lock : Option Nat
  outLock : Option Nat
  words : Index → Nat → UInt8
  inRing : Nat → UInt8
  outRing : Nat → UInt8
  moving : Option Index
  touched : Index → Nat
  inStart : Nat
  input : List UInt8
  inPos : Nat
  got : List UInt8
  outStart : Nat
  output : List UInt8
  outPos : Nat
  entered : Nat
  results : List PumpResult
  resyncs : Nat

namespace Console

def value (s : Console) (w : Index) : Nat := le32 [s.words w 0, s.words w 1, s.words w 2, s.words w 3]

def inHead (s : Console) : Nat := s.inStart + s.input.length

def outHead (s : Console) : Nat := s.outStart + s.output.length

def taken (s : Console) : List UInt8 := s.results.flatMap fun r => r.call.input.take r.inTaken

def returned (s : Console) : List UInt8 := s.results.flatMap PumpResult.out

/-! ## The host -/

def setByte (s : Console) (w : Index) (k v : Nat) : Console :=
  { s with words := update s.words w (update (s.words w) k ((word32 v).getD k 0)) }

def readFirst (w : Index) : Prog Console UInt8 :=
  Prog.act (fun s => some (s.words w 0, { s with moving := some w })) Prog.ret

def readLast (w : Index) : Prog Console UInt8 :=
  Prog.act (fun s => some (s.words w 3, { s with moving := none })) Prog.ret

def readU32 (w : Index) : Prog Console (Option Nat) := do
  let works ← Prog.pick
  if works = 0 then pure none
  else do
    let b₀ ← readFirst w
    let b₁ ← Prog.read fun s => s.words w 1
    let b₂ ← Prog.read fun s => s.words w 2
    let b₃ ← readLast w
    pure (some (le32 [b₀, b₁, b₂, b₃]))

/-- `co_console_write_u32`; `done` is what its last byte does to the history. -/
def writeU32 (w : Index) (v : Nat) (done : Console → Console) : Prog Console Bool := do
  let works ← Prog.pick
  if works = 0 then pure false
  else do
    Prog.write fun s => { s.setByte w 0 v with moving := some w }
    Prog.write fun s => s.setByte w 1 v
    Prog.write fun s => s.setByte w 2 v
    Prog.write fun s => done { s.setByte w 3 v with moving := none }
    pure true

/-- The input loop of `co_console_pump` on the bytes that are left, which ends with `head` and `n`. -/
def inputLoop (tail : Nat) : List UInt8 → Nat → Nat → Prog Console (Option (Nat × Nat))
  | [], head, n => pure (some (head, n))
  | b :: bs, head, n =>
    if u32Sub head tail < consoleInSize then do
      let works ← Prog.pick
      if works = 0 then pure none
      else do
        Prog.write fun s => { s with inRing := update s.inRing (head &&& (consoleInSize - 1)) b }
        inputLoop tail bs (u32 (head + 1)) (n + 1)
    else pure (some (head, n))

/-- The store to `in_head`, which publishes the first `n` bytes of the input. -/
def publish (input : List UInt8) (head n : Nat) : Prog Console (Option Nat) :=
  if n = 0 then pure (some 0)
  else do
    let ok ← writeU32 .inHead head fun s => { s with input := s.input ++ input.take n }
    pure (if ok then some n else none)

def pumpIn (input : List UInt8) : Prog Console (Option Nat) := do
  match ← readU32 .inHead with
  | none => pure none
  | some head =>
    match ← readU32 .inTail with
    | none => pure none
    | some tail =>
      match ← inputLoop tail input head 0 with
      | none => pure none
      | some (head, n) => publish input head n

/-- A `tail` that is more than the ring behind skips forward. -/
def resync (head tail : Nat) : Prog Console Nat :=
  if consoleOutSize < u32Sub head tail then do
    Prog.write fun s => { s with resyncs := s.resyncs + 1 }
    pure (u32Sub head consoleOutSize)
  else pure tail

/-- The output loop; the first argument is `out_size - n`. It ends with `tail` and the bytes. -/
def outputLoop (head : Nat) : Nat → Nat → List UInt8 → Prog Console (Option (Nat × List UInt8))
  | 0, tail, out => pure (some (tail, out))
  | left + 1, tail, out =>
    if tail = head then pure (some (tail, out))
    else do
      let works ← Prog.pick
      if works = 0 then pure none
      else do
        let b ← Prog.read fun s => s.outRing (tail &&& (consoleOutSize - 1))
        outputLoop head left (u32 (tail + 1)) (out ++ [b])

def consume (tail : Nat) (out : List UInt8) : Prog Console (Option (List UInt8)) :=
  if out.length = 0 then pure (some [])
  else do
    let ok ← writeU32 .outTail tail fun s => { s with outPos := s.outPos + u32Sub tail (u32 s.outPos) }
    pure (if ok then some out else none)

/-- Output out: the first `*out_len` bytes of the buffer, or nothing on an error. -/
def pumpOut (outSize : Nat) : Prog Console (Option (List UInt8)) := do
  match ← readU32 .outHead with
  | none => pure none
  | some head =>
    match ← readU32 .outTail with
    | none => pure none
    | some tail => do
        let tail ← resync head tail
        match ← outputLoop head outSize tail [] with
        | none => pure none
        | some (tail, out) => consume tail out

def inHalf (c : PumpCall) : Prog Console (Option Nat) :=
  if c.input.length = 0 then pure (some 0) else pumpIn c.input

def outHalf (c : PumpCall) : Prog Console (Option (List UInt8)) :=
  if c.outSize = 0 then pure (some []) else pumpOut c.outSize

/-- The part of `co_console_pump` under the lock: the return code, `*in_taken` and the bytes of `out`. -/
def pumpLocked (c : PumpCall) : Prog Console (Rc × Nat × List UInt8) := do
  let va ← Prog.read Console.ioVa
  if va = 0 then pure (.notFound, 0, [])
  else do
    match ← inHalf c with
    | none => pure (.error, 0, [])
    | some n =>
      match ← outHalf c with
      | none => pure (.error, n, [])
      | some out => pure (.ok, n, out)

def pump (i : Nat) (c : PumpCall) : Prog Console Unit := do
  let created ← Prog.read Console.hasLock
  if created then do
    Prog.await (fun s => s.lock.isNone) fun s => { s with lock := some i, entered := s.input.length }
    let r ← pumpLocked c
    Prog.write fun s =>
      { s with
        lock := none
        results := s.results ++ [⟨c, r.1, r.2.1, r.2.2, s.input.drop s.entered⟩] }
  else Prog.write fun s => { s with results := s.results ++ [⟨c, .notFound, 0, [], []⟩] }

/-! ## The guest -/

def touch (s : Console) (w : Index) : Console :=
  { s with touched := update s.touched w (s.touched w + 1) }

def load (w : Index) : Prog Console Nat := Prog.act (fun s => some (s.value w, s.touch w)) Prog.ret

/-- A store to an index word; `done` is what it does to the history. -/
def store (w : Index) (v : Nat) (done : Console → Console) : Prog Console Unit :=
  Prog.write fun s =>
    done { s.touch w with words := update s.words w fun k => (word32 v).getD k 0 }

/-- The loop of `hvc_co_put_chars` on the bytes that are left, which ends with `head` and `i`. -/
def putLoop (tail : Nat) : List UInt8 → Nat → Nat → Prog Console (Nat × Nat)
  | [], head, i => pure (head, i)
  | b :: bs, head, i =>
    if consoleOutSize ≤ u32Sub head tail then pure (head, i)
    else do
      Prog.write fun s => { s with outRing := update s.outRing (head &&& (consoleOutSize - 1)) b }
      putLoop tail bs (u32 (head + 1)) (i + 1)

/-- `hvc_co_put_chars`, called by guest thread `j`. The count it returns plays no part in the rings. -/
def putChars (j : Nat) (buf : List UInt8) : Prog Console Unit := do
  Prog.await (fun s => s.outLock.isNone) fun s => { s with outLock := some j }
  let head ← load .outHead
  let tail ← load .outTail
  let r ← putLoop tail buf head 0
  store .outHead r.1 fun s => { s with output := s.output ++ buf.take r.2 }
  Prog.write fun s => { s with outLock := none }

/-- The loop of `hvc_co_get_chars`; the first argument is `count - i`. It ends with `tail` and the bytes. -/
def getLoop : Nat → Nat → List UInt8 → Prog Console (Nat × List UInt8)
  | 0, tail, buf => pure (tail, buf)
  | left + 1, tail, buf => do
      let head ← load .inHead
      if tail = head then pure (tail, buf)
      else do
        let b ← Prog.read fun s => s.inRing (tail &&& (consoleInSize - 1))
        getLoop left (u32 (tail + 1)) (buf ++ [b])

def getChars (count : Nat) : Prog Console Unit := do
  let tail ← load .inTail
  let r ← getLoop count tail []
  store .inTail r.1 fun s => { s with inPos := s.inPos + u32Sub r.1 (u32 s.inPos), got := s.got ++ r.2 }

/-! ## Both sides together -/

inductive Party where
  | host (n : Nat)
  | writer (n : Nat)
  | reader
  deriving DecidableEq

def Calls : Party → Console → Prog Console Unit → Prop
  | .host n, _, p => ∃ c, p = pump n c
  | .writer n, _, p => ∃ buf, p = putChars n buf
  | .reader, _, p => ∃ count, p = getChars count

/-- No access of the guest to an index word falls between the byte moves of the host to or from it. -/
def Apart : Party → Console → Console → Prop
  | .host _, _, _ => True
  | _, s, s' => ∀ w, s'.touched w ≠ s.touched w → s.moving ≠ some w

structure Start (s : Console) : Prop where
  free : s.lock = none
  outFree : s.outLock = none
  inWord : s.inStart < 2 ^ 32
  outWord : s.outStart < 2 ^ 32
  inHead : s.value .inHead = s.inStart
  inTail : s.value .inTail = s.inStart
  outHead : s.value .outHead = s.outStart
  outTail : s.value .outTail = s.outStart
  inPos : s.inPos = s.inStart
  outPos : s.outPos = s.outStart
  input : s.input = []
  output : s.output = []
  got : s.got = []
  results : s.results = []
  resyncs : s.resyncs = 0
  moving : s.moving = none

def Reachable : Threads.Config Console Party → Prop := Threads.Reachable Start Calls fun _ _ _ => True

/-- The configurations reached in the interleavings in which the guest stays off the words being moved. -/
def ReachableApart : Threads.Config Console Party → Prop := Threads.Reachable Start Calls Apart

end Console

end MoCoLinux
