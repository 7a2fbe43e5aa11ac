import MoCoLinux.Cogpu.Vring
import MoCoLinux.Lib.Threads

/-!
# How long a virtqueue lives (the guest's `co_vgpu_find_vqs` and `co_vgpu_del_vqs`, the main loop of `cogpu-daemon.c`)

The guest allocates the rings and describes them in shared words; the daemon picks a description up once and keeps the
pointers. Every store and every read of a shared word or of a ring is an action of its own. What the daemon finds in a
ring is chosen by the environment, and of the chains it serves only the completions are kept, inline or parked until a
fence retires.
-/

namespace MoCoLinux.Cogpu.Rings

open Function
open Threads (Prog)

inductive Thread where
  | guest
  | daemon
  deriving DecidableEq, Repr

/-- `CO_VGPU_NUM_VQS`. -/
abbrev Index := Fin 2

inductive Word where
  | descGpa
  | availGpa
  | usedGpa
  | num
  deriving DecidableEq, Repr

structure Ring where
  desc : Nat
  avail : Nat
  used : Nat
  num : Nat
  pos : num ≠ 0
  deriving DecidableEq, Repr

namespace Ring

def word (r : Ring) : Word → Nat
  | .descGpa => r.desc
  | .availGpa => r.avail
  | .usedGpa => r.used
  | .num => r.num

def ptr (r : Ring) : Area → Nat
  | .desc => r.desc
  | .avail => r.avail
  | .used => r.used

def queue (r : Ring) : Queue := ⟨r.desc, r.avail, r.used, r.num⟩

end Ring

/-- `vq[i]` of the daemon, with the guest addresses of its pointers. -/
structure Held where
  desc : Nat
  avail : Nat
  used : Nat
  vr : Vring
  deriving DecidableEq, Repr

def Held.ptr (h : Held) : Area → Nat
  | .desc => h.desc
  | .avail => h.avail
  | .used => h.used

def Held.On (h : Held) (r : Ring) : Prop := h.desc = r.desc ∧ h.avail = r.avail ∧ h.used = r.used ∧ h.vr.num = r.num

/-- An access of the daemon, the pointer it went through, and the ring the queue had at that time. -/
structure Touch where
  queue : Index
  access : Access
  ptr : Nat
  live : Option Ring
  deriving DecidableEq, Repr

structure State where
  /-- `io->vq`. -/
  io : Index → Word → Nat
  /-- The ring that is published for a queue and not deleted. -/
  live : Index → Option Ring
  vqs : List (Index × Ring)
  /-- The queues of the daemon whose pointers are not null, and the queue it is about to adopt. -/
  vq : Index → Option Held
  adopting : Option Index
  parked : List Index
  log : List Touch
  /-- History of the last pass: the rings there since its start, and whether addresses can be resolved in it. -/
  atStart : Index → Option Ring
  resolves : Index → Ring → Bool

def setWord (s : State) (i : Index) (w : Word) (v : Nat) : State :=
  { s with io := update s.io i (update (s.io i) w v) }

def setLive (s : State) (i : Index) (r : Option Ring) : State :=
  { s with live := update s.live i r, atStart := update s.atStart i none }

def freeFirst (s : State) : State :=
  match s.vqs with
  | [] => s
  | (i, r) :: rest => { (if s.live i = some r then setLive s i none else s) with vqs := rest }

def deleteRings : Nat → Prog State Unit
  | 0 => pure ()
  | n + 1 => do
      Prog.write freeFirst
      deleteRings n

def clearWords (i : Index) : Prog State Unit := do
  Prog.write fun s => setWord s i .descGpa 0
  Prog.write fun s => setWord s i .availGpa 0
  Prog.write fun s => setWord s i .usedGpa 0
  Prog.write fun s => setWord s i .num 0

def delVqs : Prog State Unit := do
  let n ← Prog.read fun s => s.vqs.length
  deleteRings n
  clearWords 0
  clearWords 1

def create (i : Index) (r : Ring) : Prog State Unit := Prog.write fun s => { s with vqs := s.vqs ++ [(i, r)] }

/-- The description is stored; the size comes last and publishes the ring. -/
def publish (i : Index) (r : Ring) : Prog State Unit := do
  Prog.write fun s => setWord s i .descGpa r.desc
  Prog.write fun s => setWord s i .availGpa r.avail
  Prog.write fun s => setWord s i .usedGpa r.used
  Prog.write fun s => setLive (setWord s i .num r.num) i (some r)

/-- The loop of `co_vgpu_find_vqs` over the queues that have a name. -/
def findLoop (alloc : Index → Option Ring) : List Index → Prog State Unit
  | [] => pure ()
  | i :: rest =>
    match alloc i with
    | none => delVqs
    | some r => do
        create i r
        publish i r
        findLoop alloc rest

def findVqs (nvqs : Nat) (named : Index → Bool) (alloc : Index → Option Ring) : Prog State Unit :=
  if 2 < nvqs then pure () else findLoop alloc (([0, 1] : List Index).take nvqs |>.filter named)

/-- What a pass meets: the answers and the index when a queue is adopted, what each `cogpu_vring_pop` finds and
whether the chain is parked, and which parked completions have retired. -/
structure Pass where
  adoption : Index → Adoption
  pops : Index → List (View × Bool)
  retired : List Nat

/-- Where the daemon joins a queue whose size it has tested, if the three addresses can be resolved. The size is read
again. -/
def join (q : Queue) (f : Adoption) : Option Vring :=
  if f.resolve q.descGpa q.descBytes && f.resolve q.availGpa 8 && f.resolve q.usedGpa 8 then
    some ⟨q.num, u16 f.usedIdx, u16 f.usedIdx⟩
  else none

def Pass.resolves (pass : Pass) (i : Index) (r : Ring) : Bool := (join r.queue (pass.adoption i)).isSome

def touch (i : Index) (a : Access) : Prog State Unit :=
  Prog.write fun s =>
    match s.vq i with
    | none => s
    | some h => { s with log := s.log ++ [⟨i, a, h.ptr a.area, s.live i⟩] }

def touchAll (i : Index) : List Access → Prog State Unit
  | [] => pure ()
  | a :: rest => do
      touch i a
      touchAll i rest

def setVring (s : State) (i : Index) (h : Held) (vr : Vring) : State :=
  { s with vq := update s.vq i (some { h with vr := vr }) }

/-- The body of the first loop: a queue without pointers is adopted when it has a size. -/
def adopt (pass : Pass) (i : Index) : Prog State Unit := do
  let held ← Prog.read fun s => (s.vq i).isSome
  if held then pure ()
  else do
    let found ← Prog.act (fun s => some (s.io i .num,
      if s.io i .num = 0 then s else { s with adopting := some i })) Prog.ret
    if found = 0 then pure ()
    else do
      let num ← Prog.read fun s => s.io i .num
      let desc ← Prog.read fun s => s.io i .descGpa
      let avail ← Prog.read fun s => s.io i .availGpa
      let used ← Prog.read fun s => s.io i .usedGpa
      match join ⟨desc, avail, used, num⟩ (pass.adoption i) with
      | none => Prog.write fun s => { s with adopting := none }
      | some vr => do
          Prog.write fun s =>
            { s with vq := update s.vq i (some ⟨desc, avail, used, vr⟩), adopting := none }
          -- where the daemon joins
          touch i ⟨.used, 2, 2⟩
          touch i ⟨.used, 2, 2⟩

def pop (i : Index) (view : View) : Prog State Bool := do
  let held ← Prog.read fun s => s.vq i
  match held with
  | none => pure false
  | some h => do
      touchAll i (h.vr.pop view).2
      Prog.write fun s => setVring s i h (h.vr.afterPop view)
      pure (h.vr.pop view).1.isSome

def push (i : Index) : Prog State Unit := do
  let held ← Prog.read fun s => s.vq i
  match held with
  | none => pure ()
  | some h => do
      touchAll i h.vr.pushWrites
      Prog.write fun s => setVring s i h h.vr.pushed

/-- The loop that serves a queue; at the end of the list `avail->idx` has not moved. -/
def serve (i : Index) : List (View × Bool) → Prog State Unit
  | [] => touch i ⟨.avail, 2, 2⟩
  | (view, park) :: rest => do
      let some ← pop i view
      if some then do
        if park then Prog.write fun s => { s with parked := s.parked ++ [i] } else push i
        serve i rest
      else pure ()

def retire : List Nat → Prog State Unit
  | [] => pure ()
  | k :: rest => do
      let entry ← Prog.read fun s => s.parked[k]?
      match entry with
      | none => retire rest
      | some i => do
          push i
          Prog.write fun s => { s with parked := s.parked.eraseIdx k }
          retire rest

def sweep (pass : Pass) : Prog State Unit := do
  Prog.write fun s => { s with atStart := s.live, resolves := pass.resolves }
  adopt pass 0
  adopt pass 1
  serve 0 (pass.pops 0)
  serve 1 (pass.pops 1)
  retire pass.retired

def Calls : Thread → State → Prog State Unit → Prop
  | .guest, _, p => (∃ nvqs named alloc, p = findVqs nvqs named alloc) ∨ p = delVqs
  | .daemon, _, p => ∃ pass, p = sweep pass

structure Start (s : State) : Prop where
  io : ∀ i w, s.io i w = 0
  live : ∀ i, s.live i = none
  vq : ∀ i, s.vq i = none
  adopting : s.adopting = none
  log : s.log = []
  atStart : ∀ i, s.atStart i = none

def Reachable (allowed : State → State → Prop) : Threads.Config State Thread → Prop :=
  Threads.Reachable Start Calls fun _ => allowed

def Touch.Ok (t : Touch) : Prop := ∃ r, t.live = some r ∧ t.ptr = r.ptr t.access.area

/-- Every access was to a ring that was published and not deleted; the daemon serves the ring that is published now;
and after a pass it serves every ring there from its start on that could be resolved. -/
structure Kept (c : Threads.Config State Thread) : Prop where
  touches : ∀ t ∈ c.shared.log, t.Ok
  current : ∀ i h, c.shared.vq i = some h → ∃ r, c.shared.live i = some r ∧ h.On r
  served : c.thread .daemon = none → ∀ i r, c.shared.atStart i = some r → c.shared.resolves i r = true →
    ∃ h, c.shared.vq i = some h ∧ h.On r

/-- No ring goes that the daemon has adopted or is adopting, the daemon does not begin to adopt a ring that is gone,
and no ring or description is replaced that was not deleted. -/
structure Orderly (s s' : State) : Prop where
  deletes : ∀ i, s.live i ≠ none → s'.live i = none → s.vq i = none ∧ s.adopting ≠ some i
  adopts : ∀ i, s'.adopting = some i → s.adopting ≠ some i → s.live i ≠ none
  stores : ∀ i, s'.io i ≠ s.io i ∨ (s'.live i ≠ s.live i ∧ s'.live i ≠ none) → s.live i = none

end MoCoLinux.Cogpu.Rings
