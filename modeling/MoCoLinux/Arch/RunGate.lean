import Mathlib.Algebra.Ring.Int.Defs
import MoCoLinux.Common
import MoCoLinux.Lib.Threads

/-!
# The lifecycle of a run (`arch/x86_64/switch.c`)

The run gate admits either one boot run or any number of TEST_SMP lanes, and a slot of `co_vcpu` has one owner at a time.
An action is one atomic operation on the gate, on a slot or on the registry lock, or one access to `vcpu_abort_all`; a
slot's other fields are its owner's, who writes them before the next operation on the slot. A compare-and-swap loop
takes as many rounds as the environment says. What the host answers is a choice too, and so is what a lane finds in
`ap_start_pending`.
-/

namespace MoCoLinux.Arch

open Function
open Threads (Prog)

inductive RunState where
  | idle
  | starting
  | running
  | stopping
  | testStarting
  | testing
  | testStopping
  deriving DecidableEq, Repr

def RunState.IsRun (r : RunState) : Prop := r = .starting ∨ r = .running ∨ r = .stopping

def RunState.IsTest (r : RunState) : Prop := r = .testStarting ∨ r = .testing ∨ r = .testStopping

/-- A value of `co_run_gate`: the low three bits, and the signed number in the other 29. -/
@[ext] structure Word where
  state : RunState
  refs : Int
  deriving DecidableEq, Repr

namespace Word

def idle : Word := ⟨.idle, 0⟩

def add (w : Word) (n : Int) : Word := { w with refs := Int.bmod (w.refs + n) (2 ^ 29) }

/-- What `co_arch_boot_abort` makes of the gate. -/
def close (w : Word) : Word :=
  match w.state with
  | .starting | .running => { w with state := .stopping }
  | .testStarting | .testing => { w with state := .testStopping }
  | _ => w

end Word

inductive Slot where
  | free
  | claiming
  | active
  | stopping
  deriving DecidableEq, Repr

/-- Who claims a slot: KBOOT, a KVCPU_RUN lane or a TEST_SMP lane. -/
inductive Role where
  | boot
  | join
  | test
  deriving DecidableEq, Repr

def maxVcpus : Nat := 4

/-- `co_run_gate`, `vcpu_abort_all`, the registry lock with its holder, and `active` and `diagnostic` of the slots.
Then the history: the thread of the boot run, the number of that run and how far it is; the threads whose
`co_run_begin` succeeded; the lanes with a reference; the owners of each slot; for each thread in `co_arch_boot_abort`
the run it found, 0 for none; the stops, and those whose call has ended. -/
structure Lifecycle where
  gate : Word
  abortAll : Bool
  lock : Option Nat
  active : Nat → Slot
  diagnostic : Nat → Bool
  holder : Option Nat
  serial : Nat
  cleared : Bool
  looping : Bool
  freeing : Bool
  booting : List Nat
  testing : List Nat
  owners : Nat → List (Nat × Role)
  found : Nat → Option Nat
  stops : List (Nat × Nat)
  ended : List (Nat × Nat)

namespace Lifecycle

def cas (old new : Word) (record : Lifecycle → Lifecycle) : Prog Lifecycle Bool :=
  Prog.act (fun s => if s.gate = old then some (true, record { s with gate := new }) else some (false, s)) Prog.ret

def runState : Prog Lifecycle RunState := Prog.read fun s => s.gate.state

def setAbort (value : Bool) : Prog Lifecycle Unit := Prog.write fun s => { s with abortAll := value }

def lockRegistry (i : Nat) : Prog Lifecycle Unit :=
  Prog.await (fun s => s.lock.isNone) fun s => { s with lock := some i }

def unlockRegistry : Prog Lifecycle Unit := Prog.write fun s => { s with lock := none }

/-! ## The gate: boot runs -/

def take (i : Nat) (s : Lifecycle) : Lifecycle :=
  { s with holder := some i, serial := s.serial + 1, cleared := false, looping := false, freeing := false, booting := [] }

def giveBack (s : Lifecycle) : Lifecycle :=
  { s with holder := none, cleared := false, looping := false, freeing := false, booting := [] }

def finishRound : Prog Lifecycle (Option Unit) := do
  let old ← Prog.read gate
  if old.state = .idle then pure (some ())
  else if old.state ≠ .stopping then pure (some ())
  else do
    let ok ← cas old .idle giveBack
    pure (if ok then some () else none)

def finish : Prog Lifecycle Unit := Prog.loop finishRound

def clearRun : Prog Lifecycle Unit := Prog.write fun s => { s with abortAll := false, cleared := true }

/-- The second look of `co_run_begin`: whether the run may go on. -/
def recheck (i : Nat) : Prog Lifecycle Bool :=
  Prog.act (fun s =>
    if s.gate.state = .starting then some (true, { s with booting := i :: s.booting }) else some (false, s)) Prog.ret

def begin (i : Nat) : Prog Lifecycle Bool := do
  let ok ← cas .idle ⟨.starting, 0⟩ (take i)
  if ok then do
    clearRun
    let starting ← recheck i
    if starting then pure true
    else do
      setAbort true
      finish
      pure false
  else pure false

def publish : Prog Lifecycle Bool := cas ⟨.starting, 0⟩ ⟨.running, 0⟩ fun s => { s with looping := true }

/-! ## The gate: TEST_SMP lanes -/

def enter (i : Nat) (s : Lifecycle) : Lifecycle := { s with testing := i :: s.testing }

def leave (i : Nat) (s : Lifecycle) : Lifecycle := { s with testing := s.testing.erase i }

def testLeaveRound (i : Nat) : Prog Lifecycle (Option Unit) := do
  let old ← Prog.read gate
  if (old.state ≠ .testing ∧ old.state ≠ .testStopping ∧ old.state ≠ .testStarting) ∨ old.refs ≤ 0 then pure (some ())
  else do
    let ok ← cas old (if old.refs = 1 then .idle else old.add (-1)) (leave i)
    pure (if ok then some () else none)

def testLeave (i : Nat) : Prog Lifecycle Unit := Prog.loop (testLeaveRound i)

def testOpen (old : Word) : Prog Lifecycle Bool :=
  if old = ⟨.testStarting, 1⟩ then cas ⟨.testStarting, 1⟩ ⟨.testing, 1⟩ id else pure false

def testStart (i : Nat) : Prog Lifecycle Bool := do
  setAbort false
  let old ← Prog.read gate
  let ok ← testOpen old
  if ok then pure true
  else do
    setAbort true
    testLeave i
    pure false

def testEnterRound (i : Nat) : Prog Lifecycle (Option Bool) := do
  let old ← Prog.read gate
  if old.state = .idle then do
    let ok ← cas old ⟨.testStarting, 1⟩ (enter i)
    if ok then do
      let started ← testStart i
      pure (some started)
    else pure none
  else if old.state = .testStarting then pure none
  else if old.state ≠ .testing then pure (some false)
  else do
    let ok ← cas old (old.add 1) (enter i)
    pure (if ok then some true else none)

def testEnter (i : Nat) : Prog Lifecycle Bool := Prog.loop (testEnterRound i)

/-! ## The slots -/

def seat (i v : Nat) (role : Role) (s : Lifecycle) : Lifecycle :=
  { s with
    active := update s.active v .claiming
    owners := update s.owners v ((i, role) :: s.owners v) }

def vacate (i v : Nat) (role : Role) (diagnostic : Bool) (s : Lifecycle) : Lifecycle :=
  { s with
    active := update s.active v .free
    diagnostic := update s.diagnostic v diagnostic
    owners := update s.owners v ((s.owners v).erase (i, role)) }

def activate (v : Nat) (role : Role) (s : Lifecycle) : Lifecycle :=
  { s with
    active := update s.active v .active
    diagnostic := update s.diagnostic v (decide (role = .test)) }

def claim (i v : Nat) (role : Role) : Prog Lifecycle Bool :=
  if maxVcpus ≤ v then pure false
  else do
    let ok ← Prog.act (fun s =>
      if s.active v = .free then some (true, s.seat i v role) else some (false, s)) Prog.ret
    if ok then do
      let bound ← Prog.pick
      if bound = 0 then do
        Prog.write (vacate i v role (decide (role = .test)))
        pure false
      else do
        Prog.write (activate v role)
        pure true
    else pure false

def release (i v : Nat) (role : Role) : Prog Lifecycle Unit := do
  let ok ← Prog.act (fun s =>
    if s.active v = .active then some (true, { s with active := update s.active v .stopping })
    else some (false, s)) Prog.ret
  if ok then do
    let diagnostic ← Prog.read fun s => s.diagnostic v
    Prog.write (vacate i v role false)
    if diagnostic then testLeave i else pure ()
  else pure ()

/-! ## `co_arch_boot_abort` -/

def look (i : Nat) : Prog Lifecycle Word :=
  Prog.act (fun s =>
    some (s.gate, if s.gate.close = s.gate then
        { s with found := update s.found i (some (if s.gate.state = .stopping then s.serial else 0)) }
      else s)) Prog.ret

def noteStop (i : Nat) (s : Lifecycle) : Lifecycle :=
  if s.gate.state = .stopping then
    { s with found := update s.found i (some s.serial), stops := (i, s.serial) :: s.stops }
  else { s with found := update s.found i (some 0) }

def abortRound (i : Nat) : Prog Lifecycle (Option Unit) := do
  let old ← look i
  if old.close = old then pure (some ())
  else do
    let ok ← cas old old.close (noteStop i)
    pure (if ok then some () else none)

def storeAbort (i : Nat) (s : Lifecycle) : Lifecycle :=
  { s with
    abortAll := true
    found := update s.found i none
    ended := ((s.found i).toList.map fun n => (i, n)) ++ s.ended }

def abort (i : Nat) : Prog Lifecycle Unit := do
  lockRegistry i
  Prog.loop (abortRound i)
  unlockRegistry
  Prog.write (storeAbort i)

def aborts (i : Nat) : Nat → Prog Lifecycle Unit
  | 0 => pure ()
  | n + 1 => do
      abort i
      aborts i n

/-! ## The requests -/

def kstop (i : Nat) : Prog Lifecycle Unit := do
  let state ← runState
  if state = .idle then pure () else abort i

/-- One scan for lanes at the end of a run, from slot `maxVcpus - n` on: whether every slot was free. -/
def scan : Nat → Prog Lifecycle Bool
  | 0 => pure true
  | n + 1 => do
      let free ← Prog.read fun s => decide (s.active (maxVcpus - (n + 1)) = .free)
      let others ← scan n
      pure (free && others)

def joinRound : Prog Lifecycle (Option Unit) := do
  let none ← scan (maxVcpus - 1)
  pure (if none then some () else Option.none)

/-- The end of `co_arch_boot_loaded`, with slot 0 or without. -/
def cleanup (i : Nat) (seated : Bool) : Prog Lifecycle Unit := do
  abort i
  if seated then release i 0 .boot else pure ()
  Prog.write fun s => { s with freeing := true }
  finish

/-- `co_arch_boot_loaded`: KBOOT. The loop of the vCPU may call `co_arch_boot_abort` itself. -/
def boot (i : Nat) : Prog Lifecycle Unit := do
  let begun ← begin i
  if begun then do
    let prepared ← Prog.pick
    if prepared = 0 then cleanup i false
    else do
      lockRegistry i
      let seated ← claim i 0 .boot
      unlockRegistry
      if seated then do
        let published ← publish
        if published then do
          let n ← Prog.pick
          aborts i n
          Prog.write fun s => { s with looping := false }
          abort i
          Prog.loop joinRound
          release i 0 .boot
          cleanup i false
        else cleanup i true
      else cleanup i false
  else pure ()

/-- A KVCPU_RUN lane once it has slot `v`: it may find that the run is over, or call `co_arch_boot_abort`. -/
def joined (i v : Nat) : Prog Lifecycle Unit := do
  let n ← Prog.pick
  aborts i n
  release i v .join

def joinLane (i v : Nat) : Prog Lifecycle Unit :=
  if maxVcpus ≤ v then pure ()
  else do
    let state ← runState
    let abortAll ← Prog.read abortAll
    let pending ← Prog.pick
    if state ≠ .running ∨ abortAll = true ∨ pending = 0 then pure ()
    else do
      let allowed ← Prog.pick
      if allowed = 0 then abort i
      else do
        lockRegistry i
        let state ← runState
        let abortAll ← Prog.read Lifecycle.abortAll
        let pending ← Prog.pick
        let coreFree ← Prog.pick
        if state ≠ .running ∨ abortAll = true ∨ pending = 0 ∨ coreFree = 0 then unlockRegistry
        else do
          let ok ← claim i v .join
          unlockRegistry
          if ok then joined i v else pure ()

def testLane (i v : Nat) : Prog Lifecycle Unit :=
  if maxVcpus ≤ v then pure ()
  else do
    let allowed ← Prog.pick
    if allowed = 0 then pure ()
    else do
      let entered ← testEnter i
      if entered then do
        lockRegistry i
        let state ← runState
        if state ≠ .testing then do
          unlockRegistry
          testLeave i
        else do
          let ok ← claim i v .test
          unlockRegistry
          if ok then release i v .test else testLeave i
      else pure ()

/-! ## All together -/

inductive RunCalls (i : Nat) : Prog Lifecycle Unit → Prop where
  | boot : RunCalls i (boot i)
  | join (v : Nat) : RunCalls i (joinLane i v)
  | abort : RunCalls i (abort i)
  | kstop : RunCalls i (kstop i)

inductive Calls (i : Nat) : Prog Lifecycle Unit → Prop where
  | run {p} : RunCalls i p → Calls i p
  | test (v : Nat) : Calls i (testLane i v)

def initial : Lifecycle where
  gate := .idle
  abortAll := false
  lock := none
  active := fun _ => .free
  diagnostic := fun _ => false
  holder := none
  serial := 0
  cleared := false
  looping := false
  freeing := false
  booting := []
  testing := []
  owners := fun _ => []
  found := fun _ => none
  stops := []
  ended := []

def Reachable (allowed : Nat → Lifecycle → Lifecycle → Prop) : Threads.Config Lifecycle Nat → Prop :=
  Threads.Reachable (· = initial) (fun i _ p => Calls i p) allowed

def RunReachable (allowed : Nat → Lifecycle → Lifecycle → Prop) : Threads.Config Lifecycle Nat → Prop :=
  Threads.Reachable (· = initial) (fun i _ p => RunCalls i p) allowed

/-! ## What the gate is for -/

/-- One run at a time, and no lane of TEST_SMP beside it; the references are those of the lanes inside; a slot has one
owner; and a KVCPU_RUN lane owns a slot only in a run that has not begun to free the passage pages. -/
structure Orderly (s : Lifecycle) : Prop where
  oneRun : s.booting.length ≤ 1
  apart : s.booting ≠ [] → s.testing = []
  counted : s.gate.refs = s.testing.length
  oneOwner : ∀ v, (s.owners v).length ≤ 1
  joined : ∀ v i, (i, Role.join) ∈ s.owners v → s.booting ≠ [] ∧ s.freeing = false

/-- A loop that is told to stop is told by a call that found its run in the gate; and from the end of the call that
stopped a run on, the run is told until it has finished. -/
structure Attributed (s : Lifecycle) : Prop where
  told : s.looping = true → s.abortAll = true → ∃ i, (i, s.serial) ∈ s.stops
  kept : s.holder ≠ none → ∀ i, (i, s.serial) ∈ s.stops → (i, s.serial) ∈ s.ended → s.abortAll = true

def Countable (_ : Nat) (_ s' : Lifecycle) : Prop := s'.testing.length < 2 ^ 28

instance (i : Nat) (s s' : Lifecycle) : Decidable (Countable i s s') := Nat.decLt _ _

/-- `co_arch_boot_abort` does not store its flag between a run's clear of it and that run's finish, if it found an
earlier run or none; and a call that stopped a run has not ended when that run clears the flag. -/
structure Timely (i : Nat) (s s' : Lifecycle) : Prop where
  store : ∀ n ∈ s.found i, s'.found i = none → s.cleared = true → n = s.serial
  clear : s.cleared = false → s'.cleared = true → ∀ p ∈ s.stops, p.2 = s.serial → ∀ q ∈ s.ended, q ≠ p

instance (i : Nat) (s s' : Lifecycle) : Decidable (Timely i s s') :=
  decidable_of_iff
    ((∀ n ∈ s.found i, s'.found i = none → s.cleared = true → n = s.serial) ∧
      (s.cleared = false → s'.cleared = true → ∀ p ∈ s.stops, p.2 = s.serial → ∀ q ∈ s.ended, q ≠ p))
    ⟨fun h => ⟨h.1, h.2⟩, fun h => ⟨h.1, h.2⟩⟩

end Lifecycle

end MoCoLinux.Arch
