import MoCoLinux.Common
import MoCoLinux.Lib.Runs
import MoCoLinux.Lib.SlotTable

/-!
# Mapped slices of guest memory, and what holds them (`cogpu-daemon.c`)

The daemon reaches guest memory through slices the driver maps for it, or through one view of all of it. A slice that
somebody keeps a pointer into is pinned, and the main loop evicts slices that are not. The renderer keeps the iovecs
of a resource from a successful attach or creation until detach or unref, and an attach or creation it refuses changes
nothing. A request is one step, and so are the calls of the channels, which all go through the slice lock.
-/

namespace MoCoLinux.Cogpu

open Function

/-- `struct mapped_slice`. The number is its address, which is not used twice. -/
structure Slice where
  id : Nat
  pa : Nat
  bytes : Nat
  deriving DecidableEq, Repr

def Slice.Spans (sl : Slice) (gpa fin : Nat) : Prop := sl.pa ≤ gpa ∧ fin ≤ sl.pa + sl.bytes

instance (sl : Slice) (gpa fin : Nat) : Decidable (sl.Spans gpa fin) := inferInstanceAs (Decidable (_ ∧ _))

structure ResPin where
  resId : Nat
  slices : List Nat
  deriving DecidableEq, Repr

def ResPin.isFree (r : ResPin) : Bool := r.resId == 0

inductive Target where
  | view
  | slice (id : Nat)
  deriving DecidableEq, Repr

structure Backing where
  slices : List Slice
  lastHit : Option Slice
  pins : Nat → Nat
  lastUse : Nat → Nat
  clock : Nat
  sliceBytes : Nat
  capBytes : Nat
  hardBytes : Nat
  ramView : Option Nat
  windowBase : Nat
  resPins : List ResPin
  mapped : Nat
  /-- The slices the iovecs point into that the renderer holds for each resource. -/
  held : Nat → List Nat
  tokens : List Nat

/-- What driver and allocator answer to a request for a slice at an address: where it is, if there is one. -/
abbrev Kmap := Nat → Option (Nat × Nat)

namespace Backing

/-! ## Looking up addresses -/

def ramViewPtr (s : Backing) (gpa len : Nat) : Bool :=
  match s.ramView with
  | none => false
  | some bytes => decide (len ≠ 0 ∧ gpa + len < 2 ^ 64 ∧ gpa + len ≤ s.windowBase ∧ gpa + len ≤ bytes)

def hit (s : Backing) (sl : Slice) : Backing :=
  { s with lastHit := some sl, lastUse := update s.lastUse sl.id s.clock }

def lookup (s : Backing) (gpa fin : Nat) : Option Slice :=
  match s.lastHit.filter fun sl => decide (sl.Spans gpa fin) with
  | some sl => some sl
  | none => s.slices.find? fun sl => decide (sl.Spans gpa fin)

def findSlice (s : Backing) (gpa len : Nat) : Option Slice × Backing :=
  if ullong (gpa + len) < gpa then (none, s)
  else
    match s.lookup gpa (ullong (gpa + len)) with
    | some sl => (some sl, s.hit sl)
    | none => (none, s)

/-- `CO_KMAP_SLICE_BYTES`. -/
def sliceLimit : Nat := 12 * 2 ^ 20

def addSlice (s : Backing) (pa bytes : Nat) : Backing :=
  { s with
    slices := ⟨s.mapped, pa, bytes⟩ :: s.slices
    lastHit := some ⟨s.mapped, pa, bytes⟩
    pins := update s.pins s.mapped 0
    lastUse := update s.lastUse s.mapped s.clock
    sliceBytes := s.sliceBytes + bytes
    mapped := s.mapped + 1 }

def sliceMapLocked (s : Backing) (kmap : Kmap) (gpa : Nat) : Option Slice × Backing :=
  match s.findSlice gpa 1 with
  | (some sl, s) => (some sl, s)
  | (none, s) =>
    if s.hardBytes < s.sliceBytes + sliceLimit then (none, s)
    else
      match kmap gpa with
      | none => (none, s)
      | some (pa, bytes) =>
        if bytes = 0 ∨ 2 ^ 64 ≤ pa + bytes ∨ gpa < pa ∨ pa + bytes ≤ gpa then (none, s)
        else (some ⟨s.mapped, pa, bytes⟩, s.addSlice pa bytes)

def mapSlice (s : Backing) (kmap : Kmap) (gpa : Nat) : Option Slice × Backing :=
  match s.findSlice gpa 1 with
  | (some sl, s) => (some sl, s)
  | (none, s) => s.sliceMapLocked kmap gpa

def resolveRun (s : Backing) (kmap : Kmap) (gpa len : Nat) : Nat × Backing :=
  if s.ramViewPtr gpa 1 then (min (s.windowBase - gpa) len, s)
  else
    match s.mapSlice kmap gpa with
    | (none, s) => (0, s)
    | (some sl, s) => (min (sl.pa + sl.bytes - gpa) len, s)

def resolveGpa (s : Backing) (kmap : Kmap) (gpa len : Nat) : Option Target × Backing :=
  if s.ramViewPtr gpa len then (some .view, s)
  else
    match s.findSlice gpa len with
    | (some sl, s) => (some (.slice sl.id), s)
    | (none, s) =>
      match s.mapSlice kmap gpa with
      | (none, s) => (none, s)
      | (some sl, s) =>
        if ullong (gpa + len) < gpa ∨ sl.pa + sl.bytes < gpa + len then (none, s)
        else (some (.slice sl.id), s)

/-! ## Tokens -/

/-- `cogpu_resolve_gpa_pinned`; a pointer into the view has no token. -/
def resolveGpaPinned (s : Backing) (kmap : Kmap) (gpa len : Nat) : Backing :=
  if len = 0 ∨ ullong (gpa + len) < gpa ∨ s.ramViewPtr gpa len then s
  else
    match s.sliceMapLocked kmap gpa with
    | (none, s) => s
    | (some sl, s) =>
      if gpa + len ≤ sl.pa + sl.bytes then
        { s with
          pins := update s.pins sl.id (s.pins sl.id + 1)
          lastUse := update s.lastUse sl.id s.clock
          tokens := sl.id :: s.tokens }
      else s

def unpin (s : Backing) (token : Nat) : Backing :=
  { s with pins := update s.pins token (s.pins token - 1), tokens := s.tokens.erase token }

/-! ## Eviction -/

/-- `KMAP_EVICT_HEADROOM_BYTES`. -/
def evictHeadroom : Nat := 96 * 2 ^ 20

/-- The inner loop of `slices_evict`: the better of two candidates. -/
def colder (s : Backing) (pick : Option Slice) (sl : Slice) : Option Slice :=
  if s.pins sl.id ≠ 0 then pick
  else
    match pick with
    | none => some sl
    | some best => if s.lastUse sl.id < s.lastUse best.id then some sl else some best

/-- The slice that goes: the least recently used one that is not pinned. -/
def victim (s : Backing) : Option Slice := s.slices.foldl s.colder none

def evict (s : Backing) (v : Slice) : Backing :=
  { s with
    slices := s.slices.filter fun sl => sl.id ≠ v.id
    lastHit := s.lastHit.filter fun sl => sl.id ≠ v.id
    sliceBytes := s.sliceBytes - v.bytes }

/-- The loop of `slices_evict`; the first argument bounds its turns by the number of slices. -/
def evictLoop (target : Nat) : Nat → Backing → Backing
  | 0, s => s
  | turns + 1, s =>
    if s.sliceBytes ≤ target then s
    else
      match s.victim with
      | none => s
      | some v => evictLoop target turns (s.evict v)

def ratchet (s : Backing) (raised : Option Nat) : Backing :=
  match raised with
  | none => s
  | some next => { s with capBytes := next, hardBytes := next + 64 * 2 ^ 20 }

def slicesEvict (s : Backing) (raised : Option Nat) : Backing :=
  let s := s.ratchet raised
  if s.sliceBytes < s.capBytes then s
  else evictLoop (ullong (s.capBytes + 2 ^ 64 - evictHeadroom)) s.slices.length s

/-! ## Pins of resources -/

structure PinCollect where
  slices : List Nat
  overflow : Bool
  deriving DecidableEq

def pinCollectAdd (s : Backing) (pc : PinCollect) (gpa : Nat) : PinCollect × Backing :=
  match s.findSlice gpa 1 with
  | (none, s) => (pc, s)
  | (some sl, s) =>
    if sl.id ∈ pc.slices then (pc, s)
    else if 256 ≤ pc.slices.length then ({ pc with overflow := true }, s)
    else ({ pc with slices := pc.slices ++ [sl.id] }, s)

def unpinAll (s : Backing) (ids : List Nat) : Backing :=
  { s with pins := ids.foldl (fun pins id => update pins id (pins id - 1)) s.pins }

def pinAll (s : Backing) (ids : List Nat) : Backing :=
  { s with pins := ids.foldl (fun pins id => update pins id (pins id + 1)) s.pins }

def setResPins (s : Backing) (t : List ResPin) : Backing := { s with resPins := t }

def pinsOf (s : Backing) (resId : Nat) : Option ResPin := s.resPins.find? fun r => r.resId == resId

def resPinsDrop (s : Backing) (resId : Nat) : Backing :=
  if resId = 0 then s
  else
    match s.pinsOf resId with
    | none => s
    | some r =>
      (s.unpinAll r.slices).setResPins
        (SlotTable.modifyFirst (fun r => r.resId == resId) (fun _ => ⟨0, []⟩) s.resPins)

/-- The slot a new pin set goes to; `grows` says whether `realloc` has memory. -/
def placePins (t : List ResPin) (grows : Bool) (r : ResPin) : Option (List ResPin) :=
  match SlotTable.place ResPin.isFree r t with
  | some t' => some t'
  | none =>
    let want := if t.length = 0 then 1024 else t.length * 2
    if grows then some (t ++ r :: List.replicate (want - t.length - 1) ⟨0, []⟩) else none

/-- `res_pins_commit`: whether it succeeds, and the state; `own` says whether `malloc` has memory. -/
def resPinsCommit (s : Backing) (own grows : Bool) (resId : Nat) (pc : PinCollect) : Bool × Backing :=
  if resId = 0 ∨ pc.overflow then (false, s)
  else
    let s := s.resPinsDrop resId
    if pc.slices = [] then (true, s)
    else if !own then (false, s)
    else
      match placePins s.resPins grows ⟨resId, pc.slices⟩ with
      | none => (false, s)
      | some t => (true, (s.pinAll pc.slices).setResPins t)

/-! ## Building iovecs -/

structure Build where
  s : Backing
  pins : PinCollect
  iov : List Target
  bad : Bool

def iovLimit : Nat := 16384

/-- The loop over one entry of a backing; the first argument is the room for iovecs. -/
def buildEntry (kmap : Kmap) : Nat → Nat → Nat → Build → Build
  | room, addr, left, b =>
    if left = 0 then b
    else
      match b.s.resolveRun kmap addr left with
      | (0, s) => { b with s := s, bad := true }
      | (run + 1, s) =>
        match room with
        | 0 => { b with s := s, bad := true }
        | room + 1 =>
          match s.resolveGpa kmap addr (run + 1) with
          | (none, s) => { b with s := s, bad := true }
          | (some target, s) =>
            match s.pinCollectAdd b.pins addr with
            | (pins, s) =>
              buildEntry kmap room (addr + (run + 1)) (left - (run + 1))
                { s := s, pins := pins, iov := b.iov ++ [target], bad := b.bad }

def buildEntries (kmap : Kmap) : List (Nat × Nat) → Build → Build
  | [], b => b
  | (addr, len) :: entries, b =>
    if b.bad then b
    else buildEntries kmap entries (buildEntry kmap (iovLimit - b.iov.length) addr len b)

def build (s : Backing) (kmap : Kmap) (entries : List (Nat × Nat)) : Build :=
  buildEntries kmap entries ⟨s, ⟨[], false⟩, [], false⟩

def sliceIds (iov : List Target) : List Nat :=
  iov.filterMap fun
    | .view => none
    | .slice id => some id

/-! ## Requests -/

/-- What the others answer: whether the chain carries the entries, the slices, the two allocations of
`res_pins_commit`, and whether `cogpu_vrend_attach_iov` or `cogpu_vrend_create_blob` accepts. -/
structure Answers where
  gathered : Bool
  kmap : Kmap
  own : Bool
  grows : Bool
  accepts : Bool

def hold (s : Backing) (resId : Nat) (iov : List Target) : Backing :=
  { s with held := update s.held resId (sliceIds iov) }

def attachBacking (s : Backing) (resId : Nat) (entries : List (Nat × Nat)) (a : Answers) : Backing :=
  if entries.length = 0 ∨ iovLimit < entries.length ∨ a.gathered = false then s
  else
    let b := s.build a.kmap entries
    if b.bad then b.s
    else
      match b.s.resPinsCommit a.own a.grows resId b.pins with
      | (false, s) => s
      | (true, s) => if b.iov = [] ∨ a.accepts = false then s.resPinsDrop resId else s.hold resId b.iov

def createBlob (s : Backing) (resId : Nat) (entries : List (Nat × Nat)) (a : Answers) : Backing :=
  if iovLimit < entries.length ∨ entries.length ≠ 0 ∧ a.gathered = false then s
  else
    let b := s.build a.kmap entries
    if b.bad then b.s
    else if b.iov = [] then (if a.accepts then b.s.hold resId [] else b.s)
    else
      match b.s.resPinsCommit a.own a.grows resId b.pins with
      | (false, s) => s
      | (true, s) => if a.accepts then s.hold resId b.iov else s.resPinsDrop resId

def detachBacking (s : Backing) (resId : Nat) : Backing := (s.hold resId []).resPinsDrop resId

inductive Request where
  | attachBacking (resId : Nat) (entries : List (Nat × Nat)) (a : Answers)
  | createBlob (resId : Nat) (entries : List (Nat × Nat)) (a : Answers)
  | detachBacking (resId : Nat)
  | unref (resId : Nat)
  /-- Any other look-up of the main thread. -/
  | resolve (kmap : Kmap) (gpa len : Nat)
  | resolvePinned (kmap : Kmap) (gpa len : Nat)
  | unpin (token : Nat)
  | evict (raised : Option Nat)

def step (s : Backing) : Request → Backing
  | .attachBacking resId entries a => s.attachBacking resId entries a
  | .createBlob resId entries a => s.createBlob resId entries a
  | .detachBacking resId => s.detachBacking resId
  | .unref resId => s.detachBacking resId
  | .resolve kmap gpa len => (s.resolveGpa kmap gpa len).2
  | .resolvePinned kmap gpa len => s.resolveGpaPinned kmap gpa len
  | .unpin token => s.unpin token
  | .evict raised => { s with clock := s.clock + 1 }.slicesEvict raised

/-- Lengths have 32 bits, and a channel gives back a token it has. -/
def Legal (s : Backing) : Request → Prop
  | .attachBacking _ entries _ => ∀ e ∈ entries, e.2 < 2 ^ 32
  | .createBlob _ entries _ => ∀ e ∈ entries, e.2 < 2 ^ 32
  | .resolve _ _ len => len < 2 ^ 32
  | .unpin token => token ∈ s.tokens
  | _ => True

structure Start (s : Backing) : Prop where
  slices : s.slices = []
  lastHit : s.lastHit = none
  resPins : s.resPins = []
  held : ∀ resId, s.held resId = []
  tokens : s.tokens = []

def Reachable (ok : Backing → Request → Prop) : Backing → Prop :=
  Runs.Reach Start fun s request s' => s.Legal request ∧ ok s request ∧ s' = s.step request

/-! ## What pins are for -/

def pinSets (s : Backing) : List ResPin := SlotTable.used ResPin.isFree s.resPins

def Mapped (s : Backing) (id : Nat) : Prop := ∃ sl ∈ s.slices, sl.id = id

instance (s : Backing) (id : Nat) : Decidable (s.Mapped id) :=
  inferInstanceAs (Decidable (∃ sl ∈ s.slices, sl.id = id))

/-- Whatever an iovec of the renderer or a token points into is still mapped, and the pins of a slice are the pin sets
it is in and the tokens on it. -/
structure Kept (s : Backing) : Prop where
  iovecs : ∀ resId, ∀ id ∈ s.held resId, s.Mapped id
  tokens : ∀ id ∈ s.tokens, s.Mapped id
  pins : ∀ sl ∈ s.slices, s.pins sl.id = s.pinSets.countP (fun r => decide (sl.id ∈ r.slices)) + s.tokens.count sl.id

end Backing

end MoCoLinux.Cogpu
