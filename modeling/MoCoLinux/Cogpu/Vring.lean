import MoCoLinux.Common

/-!
# The virtqueues, from the host (`vring.c`, and their adoption in `cogpu-daemon.c`)

The rings are guest memory, which the guest may change between any two reads, so that what a call reads is an argument
of it. Each call returns the accesses it made through the pointers `desc`, `avail` and `used`, as offsets from them.
-/

namespace MoCoLinux.Cogpu

def u16 (n : Nat) : Nat := n % 2 ^ 16

def u16Sub (a b : Nat) : Nat := (a + 2 ^ 16 - b) % 2 ^ 16

structure Desc where
  addr : Nat
  len : Nat
  flags : Nat
  next : Nat
  deriving DecidableEq, Repr

/-- `VRING_DESC_F_NEXT`. -/
def Desc.hasNext (d : Desc) : Bool := d.flags.testBit 0

/-- `VRING_DESC_F_WRITE`. -/
def Desc.isWrite (d : Desc) : Bool := d.flags.testBit 1

structure Buf where
  addr : Nat
  len : Nat
  deriving DecidableEq, Repr

structure Chain where
  head : Nat
  ins : List Buf
  outs : List Buf
  inBytes : Nat
  outBytes : Nat
  deriving DecidableEq, Repr

def maxChain : Nat := 256

def addBuf (bufs : List Buf) (addr len : Nat) : Option (List Buf) :=
  match bufs.getLast? with
  | none => some [⟨addr, len⟩]
  | some last =>
    if last.addr + last.len = addr ∧ len ≤ 2 ^ 32 - 1 - last.len then
      some (bufs.dropLast ++ [⟨last.addr, last.len + len⟩])
    else if maxChain ≤ bufs.length then none
    else some (bufs ++ [⟨addr, len⟩])

def chainAdd (chain : Chain) (write : Bool) (addr len : Nat) : Option Chain :=
  if write then (addBuf chain.outs addr len).map fun bufs => { chain with outs := bufs }
  else (addBuf chain.ins addr len).map fun bufs => { chain with ins := bufs }

/-- The loop over the pages of a descriptor that has no single host pointer; it takes fewer turns than bytes. -/
def addPages (resolve : Nat → Nat → Option Nat) (write : Bool) : Nat → Nat → Nat → Chain → Option Chain
  | 0, _, _, chain => some chain
  | turns + 1, addr, left, chain =>
    if left = 0 then some chain
    else
      let part := min (4096 - addr % 4096) left
      match resolve addr part with
      | none => none
      | some p =>
        match chainAdd chain write p part with
        | none => none
        | some chain => addPages resolve write turns (ullong (addr + part)) (left - part) chain

def addDesc (resolve : Nat → Nat → Option Nat) (d : Desc) (chain : Chain) : Option Chain :=
  if d.len = 0 then some chain
  else
    let added :=
      match resolve d.addr d.len with
      | some p => chainAdd chain d.isWrite p d.len
      | none => addPages resolve d.isWrite d.len d.addr d.len chain
    added.map fun chain =>
      if d.isWrite then { chain with outBytes := u32 (chain.outBytes + d.len) }
      else { chain with inBytes := u32 (chain.inBytes + d.len) }

inductive Area where
  | desc
  | avail
  | used
  deriving DecidableEq, Repr

/-- A read or write of some bytes behind one of the three pointers. -/
structure Access where
  area : Area
  offset : Nat
  bytes : Nat
  deriving DecidableEq, Repr

/-- `struct cogpu_vring`, whose pointers are not null. -/
structure Vring where
  num : Nat
  lastAvail : Nat
  usedIdx : Nat
  deriving DecidableEq, Repr

/-- What a call of `cogpu_vring_pop` finds: `avail->idx`, a slot of `avail->ring`, the descriptor at an index, which may
be another one at each hop, and the answers of `resolve`. -/
structure View where
  availIdx : Nat
  ring : Nat → Nat
  desc : Nat → Nat → Desc
  resolve : Nat → Nat → Option Nat

namespace Vring

def descReads (i : Nat) (d : Desc) : List Access :=
  ⟨.desc, 16 * i + 8, 4⟩ :: (if d.len = 0 then [] else [⟨.desc, 16 * i, 8⟩, ⟨.desc, 16 * i + 12, 2⟩]) ++
    ⟨.desc, 16 * i + 12, 2⟩ :: if d.hasNext then [⟨.desc, 16 * i + 14, 2⟩] else []

/-- The loop of `cogpu_vring_pop` from a descriptor on, with the hops that are left. -/
def walk (num : Nat) (view : View) : Nat → Nat → Chain → Option Chain × List Access
  | hops, i, chain =>
    -- desc_at
    if num ≤ i then (none, [])
    else
      match hops with
      | 0 => (none, [])
      | hops + 1 =>
        let d := view.desc hops i
        match addDesc view.resolve d chain with
        | none => (none, descReads i d)
        | some chain =>
          if d.hasNext then
            let rest := walk num view hops (u16 d.next) chain
            (rest.1, descReads i d ++ rest.2)
          else (some chain, descReads i d)

/-- `(int)vr->num`, and no hops where it is negative. -/
def hopLimit (num : Nat) : Nat := if num < 2 ^ 31 then num else 0

/-- `cogpu_vring_pop`: the chain, if there is one, and the accesses. -/
def pop (vr : Vring) (view : View) : Option Chain × List Access :=
  let availIdx := u16 view.availIdx
  if availIdx = vr.lastAvail then (none, [⟨.avail, 2, 2⟩])
  else if vr.num < u16Sub availIdx vr.lastAvail then (none, [⟨.avail, 2, 2⟩])
  else
    let slot := vr.lastAvail % vr.num
    let head := u16 (view.ring slot)
    if vr.num ≤ head then (none, [⟨.avail, 2, 2⟩, ⟨.avail, 4 + 2 * slot, 2⟩])
    else
      let walked := walk vr.num view (hopLimit vr.num) head ⟨head, [], [], 0, 0⟩
      (walked.1, [⟨.avail, 2, 2⟩, ⟨.avail, 4 + 2 * slot, 2⟩] ++ walked.2)

def popped (vr : Vring) : Vring := { vr with lastAvail := u16 (vr.lastAvail + 1) }

def pushSlot (vr : Vring) : Nat := vr.usedIdx % vr.num

def pushed (vr : Vring) : Vring := { vr with usedIdx := u16 (vr.usedIdx + 1) }

def pushWrites (vr : Vring) : List Access :=
  [⟨.used, 4 + 8 * vr.pushSlot, 4⟩, ⟨.used, 8 + 8 * vr.pushSlot, 4⟩, ⟨.used, 2, 2⟩]

/-- The chain of a call of `cogpu_vring_pop`, and the queue after it. -/
def afterPop (vr : Vring) (view : View) : Vring :=
  match (vr.pop view).1 with
  | none => vr
  | some _ => vr.popped

end Vring

structure Queue where
  descGpa : Nat
  availGpa : Nat
  usedGpa : Nat
  num : Nat
  deriving DecidableEq, Repr

/-- What the daemon finds when it adopts a queue: the answers of `resolve_gpa` and of `cogpu_resolve_gpa_pinned`, and
`used->idx`. -/
structure Adoption where
  resolve : Nat → Nat → Bool
  pinned : Nat → Nat → Bool
  usedIdx : Nat

structure Checked where
  area : Area
  bytes : Nat
  deriving DecidableEq, Repr

namespace Queue

def descBytes (q : Queue) : Nat := u32 (16 * q.num)

/-- The lengths of the rings that `cogpu_resolve_gpa_pinned` gets. -/
def availBytes (q : Queue) : Nat := u32 (4 + 2 * q.num)

def usedBytes (q : Queue) : Nat := u32 (4 + 8 * q.num)

def resolved (q : Queue) : List Checked := [⟨.desc, q.descBytes⟩, ⟨.avail, 8⟩, ⟨.used, 8⟩]

/-- What `cogpu_resolve_gpa_pinned` checks then, up to the first call that fails. -/
def pinned (q : Queue) (f : Adoption) : List Checked :=
  if f.pinned q.descGpa q.descBytes then
    ⟨.desc, q.descBytes⟩ ::
      if f.pinned q.availGpa q.availBytes then
        ⟨.avail, q.availBytes⟩ :: if f.pinned q.usedGpa q.usedBytes then [⟨.used, q.usedBytes⟩] else []
      else []
  else []

def checked (q : Queue) (f : Adoption) : List Checked := q.resolved ++ q.pinned f

/-- The adoption of a queue: where the daemon joins it, if it does, and what was checked. A call that fails among the
last three only makes a line in the log. -/
def adopt (q : Queue) (f : Adoption) : Option (Vring × List Checked) :=
  if q.num = 0 then none
  else if f.resolve q.descGpa q.descBytes && f.resolve q.availGpa 8 && f.resolve q.usedGpa 8 then
    some (⟨q.num, u16 f.usedIdx, u16 f.usedIdx⟩, q.checked f)
  else none

end Queue

/-- The runs of a queue: it is popped at any time, and what was popped is pushed at some time. The list holds the chains
popped and not pushed. -/
inductive Vring.Run (start : Vring) : Vring → List Nat → List Access → Prop where
  | start : Run start start [] []
  | pop {vr heads log} (view : View) : Run start vr heads log →
      Run start (vr.afterPop view) ((vr.pop view).1.toList.map Chain.head ++ heads) (log ++ (vr.pop view).2)
  | push {vr head heads log} (i : Nat) : Run start vr heads log → heads[i]? = some head →
      Run start vr.pushed (heads.eraseIdx i) (log ++ vr.pushWrites)

def Access.Inside (a : Access) (checked : List Checked) : Prop :=
  ∃ c ∈ checked, c.area = a.area ∧ a.offset + a.bytes ≤ c.bytes

instance (a : Access) (checked : List Checked) : Decidable (a.Inside checked) :=
  inferInstanceAs (Decidable (∃ c ∈ checked, c.area = a.area ∧ a.offset + a.bytes ≤ c.bytes))

end MoCoLinux.Cogpu
