import MoCoLinux.Copresent.Channel

/-!
# The presentation broker (`copresent-broker.c`)

Each client has a thread that turns its records into requests to the host, and a table of bound buffers under a lock of
its own. `response_thread` finds the buffer of an answer by the number the client gave it.

The rings are queues here; `Copresent.Channel` has them as they are in memory, and `Copresent.Theorems.Rings` joins the
two. What is sent back to a client is left out. Each request is marked with the import its buffer is from; the code has
no such mark.
-/

namespace MoCoLinux

open Function
open Copresent
open Threads (Prog)

/-! ## State -/

def brokerMaxBuffers : Nat := 16

structure BrokerBuffer where
  active : Bool
  unbindPending : Bool
  id : Nat
  gemHandle : Nat
  resourceId : Nat
  xid : Nat
  width : Nat
  height : Nat
  mark : Nat
  deriving DecidableEq, Repr

def BrokerBuffer.empty : BrokerBuffer := ⟨false, false, 0, 0, 0, 0, 0, 0, 0⟩

/-- Who holds a `state_lock`: the thread of the client, or `response_thread`. -/
inductive BrokerHolder where
  | client
  | response
  deriving DecidableEq, Repr

structure BrokerClient where
  connection : Nat
  buffers : Nat → BrokerBuffer
  stateLock : Option BrokerHolder
  gone : Bool

structure Entry where
  record : Record
  mark : Nat
  deriving DecidableEq, Repr

structure Import where
  client : Nat
  id : Nat
  dmaBuf : Nat
  handle : Nat
  deriving DecidableEq, Repr

structure Broker where
  generation : Nat
  nextConnection : Nat
  /-- The clients, in the order in which they connected. -/
  count : Nat
  clients : Nat → BrokerClient
  txLock : Option Nat
  clientsLocked : Bool
  /-- The open handles of the DRM descriptor, each with its dma-buf. -/
  handles : List (Nat × Nat)
  /-- The rings, and the records the host and `response_thread` have taken and are not done with. -/
  tx : List Entry
  serving : Option Entry
  rx : List Entry
  hand : Option Entry
  /-- History: all imports, and of each whether a buffer was made of it, its BIND was published, how often its handle
  was closed, and whether the answer that ends it has arrived. -/
  imports : List Import
  bound : Nat → Bool
  published : Nat → Bool
  closes : Nat → Nat
  settled : Nat → Bool
  /-- History: the clients whose threads are in `ring_write`, where they wait for `tx_lock` and for space, and those
  whose threads clean up with the lock held. -/
  writing : Nat → Bool
  cleaning : Nat → Bool

namespace Broker

/-! ## Tables -/

/-- `find_client`: the newest client with the connection. -/
def findClient (s : Broker) (connection : Nat) : Option Nat :=
  (List.range s.count).reverse.find? fun i => (s.clients i).connection = connection

end Broker

def BrokerClient.findBuffer (c : BrokerClient) (id : Nat) : Option Nat :=
  (List.range brokerMaxBuffers).find? fun k => (c.buffers k).active && (c.buffers k).id == id

def BrokerClient.allocBuffer (c : BrokerClient) : Option Nat :=
  (List.range brokerMaxBuffers).find? fun k => !(c.buffers k).active

namespace Broker

def setClient (s : Broker) (i : Nat) (c : BrokerClient) : Broker :=
  { s with clients := update s.clients i c }

def setBuffer (s : Broker) (i k : Nat) (b : BrokerBuffer) : Broker :=
  s.setClient i { s.clients i with buffers := update (s.clients i).buffers k b }

def setLock (s : Broker) (i : Nat) (h : Option BrokerHolder) : Broker :=
  s.setClient i { s.clients i with stateLock := h }

def gemClose (s : Broker) (handle mark : Nat) : Broker :=
  { s with
    handles := s.handles.filter fun p => p.1 ≠ handle
    closes := update s.closes mark (s.closes mark + 1) }

/-- `close_gem`. The buffer is seen under the lock only, so that it is cleared in the same step. -/
def closeGem (s : Broker) (i k : Nat) : Broker :=
  let b := (s.clients i).buffers k
  if b.gemHandle = 0 then s
  else (s.gemClose b.gemHandle b.mark).setBuffer i k .empty

/-- `DRM_IOCTL_PRIME_FD_TO_HANDLE`: the open handle of the dma-buf, or a new one that the environment proposes. -/
def primeHandle (s : Broker) (dmaBuf proposed : Nat) : Option Nat :=
  match s.handles.find? fun p => p.2 = dmaBuf with
  | some p => some p.1
  | none => if proposed ≠ 0 ∧ ∀ p ∈ s.handles, p.1 ≠ proposed then some proposed else none

def addImport (s : Broker) (m : Import) : Broker :=
  { s with
    handles := if m.handle ∈ s.handles.map Prod.fst then s.handles else (m.handle, m.dmaBuf) :: s.handles
    imports := s.imports ++ [m] }

end Broker

/-! ## Requests -/

/-- The request binds, or the answer is to one that does, or the same for unbinding. -/
def Entry.aboutBinding (e : Entry) : Bool :=
  e.record.opcode = opBind || e.record.opcode = opUnbind || e.record.opcode = opBound || e.record.opcode = opUnbound

/-- An answer upon which `response_thread` closes the handle. -/
def Entry.closing (e : Entry) : Bool :=
  e.record.opcode = opUnbound || (e.record.opcode = opBound && e.record.status != statusOk)

namespace Broker

def lockState (i : Nat) (h : BrokerHolder) : Prog Broker Unit :=
  Prog.await (fun s => (s.clients i).stateLock = none) fun s => s.setLock i (some h)

def unlockState (i : Nat) : Prog Broker Unit := Prog.write fun s => s.setLock i none

def publish (s : Broker) (i : Nat) (e : Entry) : Broker :=
  { s with
    tx := s.tx ++ [e]
    writing := update s.writing i false
    published := if e.record.opcode = opBind then update s.published e.mark true else s.published }

/-- `ring_write`: whether the record was written. On a full ring it waits, or it gives up. -/
def ringWrite (i : Nat) (e : Entry) : Prog Broker Bool := do
  Prog.write fun s => { s with writing := update s.writing i true }
  Prog.await (fun s => s.txLock = none) fun s => { s with txLock := some i }
  let givesUp ← Prog.pick
  let ok ← Prog.act (fun s =>
    if s.tx.length < ringSlots then some (true, s.publish i e)
    else if givesUp = 0 then none
    else some (false, { s with writing := update s.writing i false })) Prog.ret
  Prog.write fun s => { s with txLock := none }
  pure ok

/-- The checks of `bind_buffer`: the slot for the buffer, and the dma-buf. -/
def bindSlot (c : BrokerClient) (record : Record) (fd : Option Nat) : Option (Nat × Nat) :=
  if record.xid = 0 ∨ record.width = 0 ∨ record.height = 0 ∨ c.findBuffer record.buffer ≠ none then none
  else c.allocBuffer.bind fun k => fd.map fun dmaBuf => (k, dmaBuf)

def fillBuffer (s : Broker) (i k : Nat) (record : Record) (handle resource mark : Nat) : Broker :=
  { s.setBuffer i k ⟨true, false, record.buffer, handle, resource, record.xid, record.width, record.height, mark⟩ with
    bound := update s.bound mark true }

/-- `bind_buffer`. The environment says whether the import works and which resource the buffer has. -/
def bindBuffer (i : Nat) (record : Record) (fd : Option Nat) : Prog Broker (Option Entry) := do
  match ← Prog.read fun s => bindSlot (s.clients i) record fd with
  | none => pure none
  | some (k, dmaBuf) => do
      let refused ← Prog.pick
      let proposed ← Prog.pick
      if refused ≠ 0 then pure none
      else do
        let imported ← Prog.act (fun s => (s.primeHandle dmaBuf proposed).map fun h =>
          ((h, s.imports.length), s.addImport ⟨i, record.buffer, dmaBuf, h⟩)) Prog.ret
        let resource ← Prog.pick
        if resource = 0 then do
          Prog.write fun s => s.gemClose imported.1 imported.2
          pure none
        else do
          Prog.write fun s => s.fillBuffer i k record imported.1 resource imported.2
          pure (some ⟨{ record with resourceId := resource }, imported.2⟩)

def prepareRecord (c : BrokerClient) (record : Record) : Option (Nat × Entry) :=
  match c.findBuffer record.buffer with
  | none => none
  | some k =>
    let b := c.buffers k
    if b.unbindPending then none
    else some (k, ⟨{ record with resourceId := b.resourceId, xid := b.xid, width := b.width, height := b.height },
      b.mark⟩)

def bindRequest (i : Nat) (record : Record) (fd : Option Nat) : Prog Broker (Option Entry) := do
  lockState i .client
  let e ← bindBuffer i record fd
  unlockState i
  pure e

/-- The case PRESENT. The environment says whether the fence is signalled in time. -/
def presentRequest (i : Nat) (record : Record) : Option Nat → Prog Broker (Option Entry)
  | none => pure none
  | some _ => do
      let late ← Prog.pick
      if late ≠ 0 then pure none
      else do
        lockState i .client
        let found ← Prog.read fun s => prepareRecord (s.clients i) record
        unlockState i
        pure (found.map fun p => { p.2 with record := { p.2.record with flags := p.2.record.flags ||| 1 } })

def setPending (s : Broker) (i k : Nat) : Broker :=
  s.setBuffer i k { (s.clients i).buffers k with unbindPending := true }

def unbindRequest (i : Nat) (record : Record) : Prog Broker (Option Entry) := do
  lockState i .client
  let found ← Prog.act (fun s => match prepareRecord (s.clients i) record with
    | none => some (none, s)
    | some p => some (some p.2, s.setPending i p.1)) Prog.ret
  unlockState i
  pure found

def request (i : Nat) (record : Record) (fd : Option Nat) : Prog Broker (Option Entry) :=
  if record.opcode = opBind then bindRequest i record fd
  else if record.opcode = opPresent then presentRequest i record fd
  else if record.opcode = opUnbind then unbindRequest i record
  else pure none

def clientTurn (i : Nat) (record : Record) (fd : Option Nat) : Prog Broker Unit := do
  if record.version ≠ version then pure ()
  else do
    let stamped ← Prog.read fun s =>
      { record with generation := s.generation, connection := (s.clients i).connection, status := 0 }
    match ← request i stamped fd with
    | none => pure ()
    | some e => do
        let _ ← ringWrite i e
        pure ()

def cleanupRecord (s : Broker) (i : Nat) (b : BrokerBuffer) : Record :=
  ⟨opUnbind, version, s.generation, (s.clients i).connection, b.id, 0, b.xid, b.resourceId, b.width, b.height,
    0, 0, 0, 0, 0, 0⟩

def cleanupEntry (s : Broker) (i k : Nat) : Option Entry :=
  let b := (s.clients i).buffers k
  if b.active && !b.unbindPending then some ⟨s.cleanupRecord i b, b.mark⟩ else none

def cleanupLoop (i : Nat) : List Nat → Prog Broker Unit
  | [] => pure ()
  | k :: rest => do
      match ← Prog.read fun s => s.cleanupEntry i k with
      | none => cleanupLoop i rest
      | some e => do
          let ok ← ringWrite i e
          if ok then do
            Prog.write fun s => s.setPending i k
            cleanupLoop i rest
          else cleanupLoop i rest

def cleanup (i : Nat) : Prog Broker Unit := do
  Prog.await (fun s => (s.clients i).stateLock = none) fun s =>
    { s.setLock i (some .client) with cleaning := update s.cleaning i true }
  cleanupLoop i (List.range brokerMaxBuffers)
  Prog.write fun s => { s.setLock i none with cleaning := update s.cleaning i false }
  Prog.write fun s => s.setClient i { s.clients i with gone := true }

/-! ## Answers -/

def arrive (s : Broker) (e : Entry) : Broker :=
  if e.closing then { s with settled := update s.settled e.mark true } else s

def process (s : Broker) (j : Nat) (e : Entry) : Broker :=
  if e.closing then
    match (s.clients j).findBuffer e.record.buffer with
    | none => s.arrive e
    | some k => (s.closeGem j k).arrive e
  else s

def responseTurn : Prog Broker Unit := do
  let taken ← Prog.act (fun s => match s.rx with
    | [] => some (none, s)
    | e :: rest => some (some e, { s with rx := rest, hand := some e })) Prog.ret
  match taken with
  | none => pure ()
  | some e => do
      Prog.await (fun s => s.clientsLocked = false) fun s => { s with clientsLocked := true }
      match ← Prog.read fun s => s.findClient e.record.connection with
      | none => Prog.write fun s => s.arrive e
      | some j => do
          lockState j .response
          Prog.write fun s => s.process j e
          unlockState j
      Prog.write fun s => { s with clientsLocked := false, hand := none }

def hostTurn : Prog Broker Unit := do
  let taken ← Prog.act (fun s => match s.tx with
    | [] => some (none, s)
    | e :: rest => some (some e, { s with tx := rest, serving := some e })) Prog.ret
  match taken with
  | none => pure ()
  | some e => do
      let status ← Prog.pick
      Prog.await (fun s => s.rx.length < ringSlots) fun s =>
        { s with rx := s.rx ++ [⟨e.record.answer s.generation status, e.mark⟩], serving := none }

def newConnection (s : Broker) : Nat × Broker :=
  if s.nextConnection = 0 then (1, { s with nextConnection := 2 })
  else (s.nextConnection, { s with nextConnection := u32 (s.nextConnection + 1) })

def acceptTurn : Prog Broker Unit := do
  let connection ← Prog.act (fun s => some s.newConnection) Prog.ret
  Prog.await (fun s => s.clientsLocked = false) fun s => { s with clientsLocked := true }
  Prog.write fun s => { s.setClient s.count ⟨connection, fun _ => .empty, none, false⟩ with count := s.count + 1 }
  Prog.write fun s => { s with clientsLocked := false }

/-! ## Runs -/

inductive Party where
  | client (i : Nat)
  | response
  | host
  | main
  deriving DecidableEq

def Calls : Party → Broker → Prog Broker Unit → Prop
  | .client i, s, p =>
    i < s.count ∧ (s.clients i).gone = false ∧ ((∃ record fd, p = clientTurn i record fd) ∨ p = cleanup i)
  | .response, _, p => p = responseTurn
  | .host, _, p => p = hostTurn
  | .main, _, p => p = acceptTurn

structure Start (s : Broker) : Prop where
  count : s.count = 0
  clients : ∀ i, (s.clients i).stateLock = none ∧ ∀ k, (s.clients i).buffers k = .empty
  locks : s.txLock = none ∧ s.clientsLocked = false
  handles : s.handles = []
  rings : s.tx = [] ∧ s.serving = none ∧ s.rx = [] ∧ s.hand = none
  imports : s.imports = []
  flags : ∀ n, s.bound n = false ∧ s.published n = false ∧ s.closes n = 0 ∧ s.settled n = false
  waits : ∀ i, s.writing i = false ∧ s.cleaning i = false

def Reachable (allowed : Broker → Broker → Prop) : Threads.Config Broker Party → Prop :=
  Threads.Reachable Start Calls fun _ => allowed

/-! ## What is promised -/

def flight (s : Broker) : List Entry := s.hand.toList ++ s.rx ++ s.serving.toList ++ s.tx

def Open (s : Broker) (mark : Nat) : Prop := ∃ m p, s.imports[mark]? = some m ∧ p ∈ s.handles ∧ p.1 = m.handle

/-- The handle of a published BIND is open and was not closed until the answer that ends the binding arrives, and was
then closed once. -/
def Kept (s : Broker) (mark : Nat) : Prop :=
  s.published mark = true →
    (s.settled mark = false → s.closes mark = 0 ∧ s.Open mark) ∧ (s.settled mark = true → s.closes mark = 1)

/-- A client's thread is in `ring_write` with its lock held while the ring is full, so that it waits for space or for
`tx_lock`, whose owner does; `response_thread` waits for that lock, and the host waits for the other ring. -/
def CircularWait (s : Broker) : Prop :=
  ∃ i, (s.clients i).stateLock = some .client ∧ s.writing i = true ∧ ringSlots ≤ s.tx.length ∧
    (∃ e, s.hand = some e ∧ s.findClient e.record.connection = some i) ∧
    s.serving ≠ none ∧ ringSlots ≤ s.rx.length

/-! ## Conditions on a step -/

/-- A dma-buf is imported only while it has no open handle; a number is given to a buffer only when nothing about
binding it is on its way; and a new connection has a number of its own. -/
structure Careful (s s' : Broker) : Prop where
  imported : ∀ m, s'.imports = s.imports ++ [m] → ∀ p ∈ s.handles, p.2 ≠ m.dmaBuf
  named : ∀ i k, ((s.clients i).buffers k).active = false → ((s'.clients i).buffers k).active = true →
    ∀ e ∈ s.flight, e.aboutBinding = true → e.record.connection = (s'.clients i).connection →
      e.record.buffer ≠ ((s'.clients i).buffers k).id
  connected : s'.count ≠ s.count → ∀ i < s.count, (s.clients i).connection ≠ (s'.clients s.count).connection

/-- A client begins to clean up only when at most 65 records are on their way, and while one does, a record is published
only when at most 64 are. -/
structure Roomy (s s' : Broker) : Prop where
  begins : ∀ i, s.cleaning i = false → s'.cleaning i = true → s.flight.length ≤ 65
  publishes : ∀ i, s.cleaning i = true → s.flight.length < s'.flight.length → s.flight.length ≤ 64

end Broker

end MoCoLinux
