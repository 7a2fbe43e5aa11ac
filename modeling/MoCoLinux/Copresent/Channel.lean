import MoCoLinux.Copresent.Record
import MoCoLinux.Lib.Ring
import MoCoLinux.Lib.Threads

/-!
# The two rings of a presentation channel (`copresent-broker.c` and the daemon's `copresent.c`)

Client threads of the broker put requests into one ring under `tx_lock`. The host takes them and puts its answers into
the other ring, from which `response_thread` takes them. Records are copied word by word. The rings are in two pages of
guest memory, of which the host has a pointer each.

What the broker does with an answer is in `Copresent.Broker`; heartbeats and sleeping are left out.
-/

namespace MoCoLinux.Copresent

open Threads (Prog)

/-! ## The region -/

def pageBytes : Nat := 4096

def regionPages : Nat := 2

def ringSlots : Nat := 32

/-- `sizeof(struct copresent_record)`. -/
def recordBytes : Nat := 64

inductive Dir where
  | tx
  | rx
  deriving DecidableEq, Repr

def Dir.offset : Dir → Nat
  | .tx => 64
  | .rx => 2112

def slotOffset (d : Dir) (counter : Nat) : Nat := d.offset + counter % ringSlots * recordBytes

/-- `c->page`: where the host sees the two pages. They do not overlap there. -/
structure Pages where
  page : Nat → Nat
  apart : page 0 + pageBytes ≤ page 1 ∨ page 1 + pageBytes ≤ page 0

namespace Pages

def addr (g : Pages) (offset : Nat) : Nat := g.page (offset / pageBytes) + offset % pageBytes

def regionAt (g : Pages) (offset bytes : Nat) : Option Nat :=
  if regionPages ≤ offset / pageBytes ∨ pageBytes - offset % pageBytes < bytes then none
  else some (g.page (offset / pageBytes) + offset % pageBytes)

def cell (g : Pages) (d : Dir) (position word : Nat) : Nat := g.addr (slotOffset d position + 4 * word)

def Inside (g : Pages) (a : Nat) : Prop := ∃ i < regionPages, g.page i ≤ a ∧ a + 4 ≤ g.page i + pageBytes

end Pages

/-! ## State -/

inductive HostThread where
  | main
  | listener
  deriving DecidableEq, Repr

structure Channel where
  mem : Nat → Nat
  txHead : Nat
  txTail : Nat
  rxHead : Nat
  rxTail : Nat
  closed : Bool
  txLock : Option Nat
  /-- `channel_lock` of the daemon, and whether its `channel` is this one. -/
  channelLock : Option HostThread
  current : Bool
  exited : Bool
  /-- History: the requests `ring_write` has published, those the host has taken, its answers, and those that
  `response_thread` has taken. -/
  written : List Record
  handled : List Record
  answers : List Record
  consumed : List Record
  touched : List Nat
  /-- History: how many requests the last poll was to take, and how many answers the last pass of `response_thread`
  found. -/
  due : Nat
  seen : Nat

namespace Channel

def storeWord (s : Channel) (a v : Nat) : Channel := { s with mem := Function.update s.mem a v }

def touch (s : Channel) (a : Nat) : Channel := { s with touched := a :: s.touched }

def publish (s : Channel) (head : Nat) (r : Record) : Channel := { s with txHead := head, written := s.written ++ [r] }

def take (s : Channel) (tail : Nat) (r : Record) : Channel := { s with txTail := tail, handled := s.handled ++ [r] }

def respond (s : Channel) (head : Nat) (r : Record) : Channel := { s with rxHead := head, answers := s.answers ++ [r] }

def consume (s : Channel) (tail : Nat) (r : Record) : Channel :=
  { s with rxTail := tail, consumed := s.consumed ++ [r] }

end Channel

/-! ## Copies -/

def storeWords (f : Channel → Nat → Nat → Channel) (a : Nat) : List Nat → Nat → Prog Channel Unit
  | [], _ => pure ()
  | v :: rest, k => do
      Prog.write fun s => f s (a + 4 * k) v
      storeWords f a rest (k + 1)

def loadWords (f : Channel → Nat → Channel) (a : Nat) : Nat → Nat → Prog Channel (List Nat)
  | 0, _ => pure []
  | n + 1, k => do
      let v ← Prog.act (fun s => some (s.mem (a + 4 * k), f s (a + 4 * k))) Prog.ret
      let rest ← loadWords f a n (k + 1)
      pure (v :: rest)

def guestStore (a : Nat) (r : Record) : Prog Channel Unit := storeWords Channel.storeWord a r.words 0

def guestLoad (a : Nat) : Prog Channel Record := do
  let w ← loadWords (fun s _ => s) a 16 0
  pure (Record.ofWords w)

def hostStore (a : Nat) (r : Record) : Prog Channel Unit :=
  storeWords (fun s a v => (s.storeWord a v).touch a) a r.words 0

def hostLoad (a : Nat) : Prog Channel Record := do
  let w ← loadWords Channel.touch a 16 0
  pure (Record.ofWords w)

/-- The loops that wait for a free slot: the head, or nothing after so many turns or when `quit` says so. -/
def waitSpace (head tail : Channel → Nat) (quit : Channel → Bool) : Nat → Prog Channel (Option Nat)
  | 0 => pure none
  | n + 1 => do
      let h ← Prog.read head
      let t ← Prog.read tail
      if u32Sub h t < ringSlots then pure (some h)
      else do
        let q ← Prog.read quit
        if q then pure none else waitSpace head tail quit n

/-! ## The broker -/

def writeTurns : Nat := 100001

def ringWriteLocked (g : Pages) (r : Record) : Prog Channel Bool := do
  match ← waitSpace Channel.txHead Channel.txTail Channel.closed writeTurns with
  | none => pure false
  | some head => do
      guestStore (g.addr (slotOffset .tx head)) r
      Prog.write fun s => s.publish (u32 (head + 1)) r
      pure true

def ringWrite (g : Pages) (i : Nat) (r : Record) : Prog Channel Bool := do
  Prog.await (fun s => s.txLock = none) fun s => { s with txLock := some i }
  let ok ← ringWriteLocked g r
  Prog.write fun s => { s with txLock := none }
  pure ok

def exitResponses : Prog Channel Unit := Prog.write fun s => { s with closed := true, exited := true }

def drain (g : Pages) : Nat → Nat → Prog Channel Unit
  | 0, _ => pure ()
  | n + 1, tail => do
      let r ← guestLoad (g.addr (slotOffset .rx tail))
      Prog.write fun s => s.consume (u32 (tail + 1)) r
      drain g n (u32 (tail + 1))

/-- One turn of the outer loop of `response_thread`. With nothing to do it may find that the host has hung up. -/
def responseTurn (g : Pages) : Prog Channel Unit := do
  let closed ← Prog.read Channel.closed
  if closed then exitResponses
  else do
    let head ← Prog.act (fun s => some (s.rxHead, { s with seen := s.answers.length })) Prog.ret
    let tail ← Prog.read Channel.rxTail
    if head = tail then do
      let hungUp ← Prog.pick
      if hungUp = 0 then pure () else exitResponses
    else if ringSlots < u32Sub head tail then exitResponses
    else drain g (u32Sub head tail) tail

/-! ## The host -/

def responseTurns : Nat := 100000

def writeResponse (g : Pages) (r : Record) : Prog Channel Bool := do
  match ← waitSpace Channel.rxHead Channel.rxTail (fun _ => false) responseTurns with
  | none => pure false
  | some head =>
    match g.regionAt (slotOffset .rx head) recordBytes with
    | none => pure false
    | some a => do
        hostStore a r
        Prog.write fun s => s.respond (u32 (head + 1)) r
        pure true

/-- `handle_record`. The environment says what the renderer and the presenter answer. -/
def handleRecord (g : Pages) (generation : Nat) (request : Record) : Prog Channel Bool := do
  let status ← Prog.pick
  writeResponse g (request.answer generation status)

def pollLoop (g : Pages) (generation : Nat) : Nat → Prog Channel Bool
  | 0 => pure true
  | n + 1 => do
      let head ← Prog.read Channel.txHead
      let tail ← Prog.read Channel.txTail
      if head = tail then pure true
      else if ringSlots < u32Sub head tail then pure false
      else
        match g.regionAt (slotOffset .tx tail) recordBytes with
        | none => pure false
        | some a => do
            let r ← hostLoad a
            Prog.write fun s => s.take (u32 (tail + 1)) r
            let ok ← handleRecord g generation r
            if ok then pollLoop g generation n else pure false

def lockChannel (t : HostThread) : Prog Channel Unit :=
  Prog.await (fun s => s.channelLock = none) fun s => { s with channelLock := some t }

def unlockChannel : Prog Channel Unit := Prog.write fun s => { s with channelLock := none }

/-- The channel is taken away under the lock, and then `channel_free` sets `closed`. -/
def dropChannel : Prog Channel Unit := do
  Prog.write fun s => { s with current := false }
  unlockChannel
  Prog.write fun s => { s with closed := true }

/-- `cogpu_copresent_fini`, for this channel if it is still the current one. -/
def fini (t : HostThread) : Prog Channel Unit := do
  lockChannel t
  let current ← Prog.read Channel.current
  if current then dropChannel else unlockChannel

/-- `cogpu_copresent_poll`, and what the main loop does when it fails. The control connection may be closed. -/
def mainTurn (g : Pages) (generation : Nat) : Prog Channel Unit := do
  lockChannel .main
  let current ← Prog.read Channel.current
  if current then do
    let closed ← Prog.read Channel.closed
    let hungUp ← Prog.pick
    if closed ∨ hungUp ≠ 0 then dropChannel
    else do
      Prog.write fun s => { s with due := min (s.handled.length + 64) s.written.length }
      let ok ← pollLoop g generation 64
      unlockChannel
      if ok then pure () else fini .main
  else unlockChannel

/-- `listen_thread` publishes another channel in place of this one. -/
def replace : Prog Channel Unit := fini .listener

/-! ## Runs -/

inductive Party where
  | writer (i : Nat)
  | response
  | main
  | listener
  | broker
  deriving DecidableEq

def Calls (g : Pages) (generation : Nat) : Party → Channel → Prog Channel Unit → Prop
  | .writer i, _, p => ∃ r, p = do let _ ← ringWrite g i r; pure ()
  | .response, s, p => s.exited = false ∧ p = responseTurn g
  | .main, _, p => p = mainTurn g generation
  | .listener, _, p => p = replace
  | .broker, _, p => p = Prog.write fun s => { s with closed := true }

structure Start (s : Channel) : Prop where
  words : s.txHead = 0 ∧ s.txTail = 0 ∧ s.rxHead = 0 ∧ s.rxTail = 0
  locks : s.txLock = none ∧ s.channelLock = none
  exited : s.exited = false
  history : s.written = [] ∧ s.handled = [] ∧ s.answers = [] ∧ s.consumed = [] ∧ s.touched = []
  counts : s.due = 0 ∧ s.seen = 0

def Reachable (g : Pages) (generation : Nat) : Threads.Config Channel Party → Prop :=
  Threads.Reachable Start (Calls g generation) fun _ _ _ => True

/-! ## What is promised -/

def Answered (generation : Nat) (requests answers : List Record) : Prop :=
  List.Forall₂ (fun request r => ∃ status, r = request.answer generation status) requests answers

end MoCoLinux.Copresent
