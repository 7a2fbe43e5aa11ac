import MoCoLinux.Common
import MoCoLinux.Lib.LinkedList
import MoCoLinux.Lib.Threads

/-!
# The block workers (`kernel/cobd_async.c`)

The vCPUs submit requests, one worker for each unit transfers them, and the monitor thread starts and stops the
workers around the loop of a run, as `kernel/cobd_async.h` lays out. What happens under `sub_lock` is one step:
the lists and the queued nodes are only touched there, and by `co_cobd_async_start` before any worker exists. A wake
event is reset by the sleep it ends, and keeps one signal.
-/

namespace MoCoLinux.Cobd

open Function
open Threads (Prog)

/-- `CO_COBD_MAX_UNITS`, and `CO_COBD_WORKERS`. -/
def maxUnits : Nat := 4

def workNodes : Nat := 128

structure Request where
  unit : Int
  offset : Nat
  sgPa : Nat
  count : Nat
  write : Bool
  tag : Nat
  deriving DecidableEq

inductive Phase where
  | stopped
  | starting
  | running
  | ending
  deriving DecidableEq

/-- The statics of `cobd_async.c`, with the workers and the vCPUs in a call. Then the history: whether the lists are
set up, their nodes and the node of each worker; for each unit what was accepted, popped, transferred with which
result, and passed to `co_cobd_complete`; whether a request came after the worker last looked, whether it found
nothing since it last slept, and the unit a vCPU still has to wake. -/
structure Async where
  next : Nat → Option Nat
  req : Nat → Request
  freeList : Option Nat
  fifoHead : Nat → Option Nat
  fifoTail : Nat → Option Nat
  subWait : Nat → Bool
  ioVa : Nat
  stopping : Bool
  errors : Nat
  workerCount : Nat
  alive : Nat → Bool
  phase : Phase
  inCall : List Nat
  built : Bool
  free : List Nat
  queue : Nat → List Nat
  held : Nat → Option Nat
  accepted : Nat → List Request
  popped : Nat → List Request
  transferred : Nat → List (Request × Nat)
  completed : Nat → List (Int × Nat × Nat)
  late : Nat → Bool
  sleepy : Nat → Bool
  signaller : Nat → Option Nat

namespace Async

/-! ## The workers -/

def popNone (s : Async) (u : Nat) : Async :=
  { s with late := update s.late u false, sleepy := update s.sleepy u true }

def popNode (s : Async) (u node : Nat) : Async :=
  { s with
    fifoHead := update s.fifoHead u (s.next node)
    fifoTail := update s.fifoTail u (if (s.next node).isNone then none else s.fifoTail u)
    queue := update s.queue u (s.queue u).tail
    held := update s.held u (some node)
    popped := update s.popped u (s.popped u ++ [s.req node])
    late := update s.late u false }

def fifoPop (u : Nat) : Prog Async (Option Nat) :=
  Prog.act (fun s =>
    match s.fifoHead u with
    | none => some (none, s.popNone u)
    | some node => some (some node, s.popNode u node)) Prog.ret

def nodeFree (u node : Nat) : Prog Async Unit :=
  Prog.write fun s =>
    { s with
      next := update s.next node s.freeList
      freeList := some node
      free := node :: s.free
      held := update s.held u none }

/-- `co_cobd_request_sg` with what the node says, and with `result`. -/
def transfer (u node result : Nat) : Prog Async Unit :=
  Prog.write fun s =>
    { s with transferred := update s.transferred u (s.transferred u ++ [(s.req node, result)]) }

def countError (result : Nat) : Prog Async Unit :=
  if result = 0 then pure () else Prog.write fun s => { s with errors := ulong (s.errors + 1) }

def complete (u node result : Nat) : Prog Async Unit :=
  Prog.write fun s =>
    { s with
      completed :=
        update s.completed u (s.completed u ++ [((s.req node).unit, (s.req node).tag, result)]) }

def sleep (u : Nat) : Prog Async Unit :=
  Prog.await (fun s => s.subWait u) fun s =>
    { s with subWait := update s.subWait u false, sleepy := update s.sleepy u false }

def leave (u : Nat) : Prog Async Unit :=
  Prog.write fun s =>
    { s with alive := update s.alive u false, sleepy := update s.sleepy u false }

def serve (u node : Nat) : Prog Async Unit := do
  let works ← Prog.pick
  let result := if works = 0 then 1 else 0
  transfer u node result
  countError result
  complete u node result
  nodeFree u node

def rest (u : Nat) : Prog Async Unit := do
  let stopping ← Prog.read Async.stopping
  if stopping then leave u else sleep u

def turn (u : Nat) : Prog Async Unit := do
  match ← fifoPop u with
  | none => rest u
  | some node => serve u node

/-! ## The vCPUs -/

def append (s : Async) (n : Nat) (r : Request) (node : Nat) : Async :=
  let u := r.unit.toNat
  { s with
    freeList := s.next node
    req := update s.req node r
    next := LinkedList.link (update s.next node none) (s.fifoTail u) node
    fifoHead := update s.fifoHead u (LinkedList.front (s.fifoHead u) (s.fifoTail u) node)
    fifoTail := update s.fifoTail u (some node)
    free := s.free.tail
    queue := update s.queue u (s.queue u ++ [node])
    accepted := update s.accepted u (s.accepted u ++ [r])
    late := update s.late u true
    signaller := update s.signaller n (some u) }

/-- The part of `co_cobd_async_submit` under `sub_lock`: whether a node was free. -/
def enqueue (n : Nat) (r : Request) : Prog Async Bool :=
  Prog.act (fun s =>
    match s.freeList with
    | none => some (false, s)
    | some node => some (true, s.append n r node)) Prog.ret

def wakeup (n u : Nat) : Prog Async Unit :=
  Prog.write fun s =>
    { s with subWait := update s.subWait u true, signaller := update s.signaller n none }

def submit (n : Nat) (r : Request) : Prog Async Unit :=
  if r.unit < 0 ∨ maxUnits ≤ r.unit then pure ()
  else do
    let ok ← enqueue n r
    if ok then wakeup n r.unit.toNat else pure ()

def vcpu (n : Nat) (r : Request) : Prog Async Unit := do
  Prog.await (fun s => decide (s.phase = .running)) fun s => { s with inCall := n :: s.inCall }
  submit n r
  Prog.write fun s => { s with inCall := s.inCall.erase n }

/-! ## The monitor thread -/

def reset (va : Nat) (s : Async) : Async :=
  { s with
    ioVa := va
    stopping := false
    errors := 0
    workerCount := 0
    freeList := none
    fifoHead := fun _ => none
    fifoTail := fun _ => none
    free := []
    queue := fun _ => []
    held := fun _ => none
    accepted := fun _ => []
    popped := fun _ => []
    transferred := fun _ => []
    completed := fun _ => []
    late := fun _ => false
    sleepy := fun _ => false }

def pushFree (s : Async) (node : Nat) : Async :=
  { s with next := update s.next node s.freeList, freeList := some node, free := node :: s.free }

def rebuild : Nat → Prog Async Unit
  | 0 => pure ()
  | left + 1 => do
      Prog.write fun s => s.pushFree (workNodes - (left + 1))
      rebuild left

def spawn (s : Async) (i : Nat) : Async :=
  { s with alive := update s.alive i true, workerCount := s.workerCount + 1 }

/-- The loop that creates the workers, of which the system creates at most `created`; the last argument is the
number still to come. -/
def startWorkers (created : Nat) : Nat → Prog Async Unit
  | 0 => pure ()
  | left + 1 =>
    if maxUnits - (left + 1) < created then do
      Prog.write fun s => s.spawn (maxUnits - (left + 1))
      startWorkers created left
    else pure ()

/-- `co_cobd_async_start`, where `enabled` says whether the store to the guest works. -/
def start (va : Nat) (enabled : Bool) (created : Nat) : Prog Async Bool := do
  Prog.write (reset va)
  rebuild workNodes
  if enabled then do
    Prog.write fun s => { s with built := true }
    startWorkers created maxUnits
    if created = 0 then do
      Prog.write fun s => { s with ioVa := 0 }
      pure false
    else pure true
  else do
    Prog.write fun s => { s with ioVa := 0 }
    pure false

def wakeAll : Nat → Prog Async Unit
  | 0 => pure ()
  | n + 1 => do
      wakeAll n
      Prog.write fun s => { s with subWait := update s.subWait n true }

def joinAll : Nat → Prog Async Unit
  | 0 => pure ()
  | n + 1 => do
      joinAll n
      Prog.await (fun s => !s.alive n) id

def clear (s : Async) : Async :=
  { s with
    fifoHead := fun _ => none
    fifoTail := fun _ => none
    freeList := none
    built := false
    free := []
    queue := fun _ => [] }

def stop : Prog Async Unit := do
  let count ← Prog.read Async.workerCount
  if count = 0 then pure ()
  else do
    Prog.write fun s => { s with stopping := true }
    wakeAll count
    joinAll count
    Prog.write fun s => { s with workerCount := 0 }
    Prog.write fun s => { s with ioVa := 0 }
    Prog.write clear

/-- The rest of a run after `co_cobd_async_start` succeeded: the loop, which `co_cobd_async_stop` follows when no
vCPU is in a call any more. -/
def loopAndStop : Prog Async Unit := do
  Prog.write fun s => { s with phase := .running }
  Prog.await (fun s => s.inCall.isEmpty) fun s => { s with phase := .ending }
  stop
  Prog.write fun s => { s with phase := .stopped }

def run (va : Nat) (enabled : Bool) (created : Nat) : Prog Async Unit := do
  Prog.await (fun s => decide (s.phase = .stopped)) fun s => { s with phase := .starting }
  let ok ← start va enabled created
  if ok then loopAndStop else Prog.write fun s => { s with phase := .stopped }

/-! ## All together -/

inductive Party where
  | monitor
  | worker (u : Nat)
  | vcpu (n : Nat)
  deriving DecidableEq

def Calls : Party → Async → Prog Async Unit → Prop
  | .monitor, _, p => ∃ va, p = run va true maxUnits
  | .worker u, s, p => s.alive u = true ∧ p = turn u
  | .vcpu n, _, p => ∃ r, p = vcpu n r

structure Start (s : Async) : Prop where
  phase : s.phase = .stopped
  built : s.built = false
  workerCount : s.workerCount = 0
  alive : ∀ u, s.alive u = false
  inCall : s.inCall = []
  signaller : ∀ n, s.signaller n = none
  accepted : ∀ u, s.accepted u = []
  popped : ∀ u, s.popped u = []
  transferred : ∀ u, s.transferred u = []
  completed : ∀ u, s.completed u = []
  sleepy : ∀ u, s.sleepy u = false

def Reachable : Threads.Config Async Party → Prop := Threads.Reachable Start Calls fun _ _ _ => True

/-! ## What the lists are for -/

def report (t : Request × Nat) : Int × Nat × Nat := (t.1.unit, t.1.tag, t.2)

/-- Every node is in the free list, in the queue of one unit or with one worker, and in one place only. -/
def Partitioned (s : Async) : Prop :=
  ∃ (free : List Nat) (queue : Nat → List Nat), LinkedList.Chain s.next s.freeList free ∧
    (∀ u < maxUnits, LinkedList.Queue s.next (s.fifoHead u) (s.fifoTail u) (queue u)) ∧
    (free ++ (List.range maxUnits).flatMap queue ++
      (List.range maxUnits).flatMap fun u => (s.held u).toList).Perm (List.range workNodes)

/-- All requests of a unit were transferred, in order, and passed to `co_cobd_complete`, once each. -/
def Served (s : Async) (u : Nat) : Prop :=
  (s.transferred u).map Prod.fst = s.accepted u ∧ s.completed u = (s.transferred u).map report

end Async

end MoCoLinux.Cobd
