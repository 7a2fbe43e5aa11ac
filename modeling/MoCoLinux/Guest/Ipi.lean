import Mathlib.Data.List.FinRange
import MoCoLinux.Lib.Threads

/-!
# Posted vectors and the idle wait

The pending sets and `co_cpu_idle` are in `arch/x86/kernel/process.c` of the guest patch, `co_apic_send_IPI_self` in
`arch/x86/kernel/smpboot.c`, the host's side in `arch/x86_64/switch.c` and `os/winnt/kernel/lowlevel/timer.c`. An action
is one atomic bit operation, one store, the scan of one word of a set, or one operation of the host.

A guest processor runs any number of contexts: a handler of a posted vector or the timer vector interrupts what is below
it. The context at level 0 is the task that idles.
-/

namespace MoCoLinux.Ipi

open Function
open Threads (Prog)

/-- A processor of the guest, of which there are `CO_COLINUX_NR_VCPUS`. -/
abbrev Vcpu := Fin 4

abbrev Vec := Fin 256

/-- A context of a guest processor, or a thread of the host that rings a doorbell. -/
inductive Thread where
  | guest (cpu : Vcpu) (level : Nat)
  | host (n : Nat)
  deriving DecidableEq, Repr

inductive Event where
  | post (cpu : Vcpu) (vector : Vec)
  | dispatch (cpu : Vcpu) (vector : Vec)
  deriving DecidableEq, Repr

/-- How far a post is: `co_colinux_ipi_send` has set the bit; it has stored 1 to `co_colinux_ipi_any` too and the
doorbell is left; `co_apic_send_IPI_self` has set the bit. -/
inductive Stage where
  | sending
  | ringing
  | self
  deriving DecidableEq, Repr

/-- Where one context is: in a post, in the re-scan of a drain with the next word to look at, or between the
`clear_bit` of a vector and its dispatch. -/
structure Local where
  posting : Option (Vcpu × Stage) := none
  rescan : Option Nat := none
  taken : Option Vec := none
  deriving DecidableEq, Repr

/-- Where the idle task of a processor is: out in the host, blocked in the wait, and after a wait the next word of the
processor's set that `co_cpu_idle` has to look at. -/
structure Park where
  out : Bool := false
  waiting : Bool := false
  woken : Option Nat := none
  deriving DecidableEq, Repr

/-- `co_colinux_ipi_pending`, `co_colinux_ipi_any`, which passage pages are set, and the host's `co_idle_wake_event`.
Then the history: where each context and each idle task is, the bits set by `co_apic_send_IPI_self` and by no other
post since, and the events. -/
structure State where
  pending : Vcpu → Vec → Bool
  any : Bool
  passage : Vcpu → Bool
  wake : Vcpu → Bool
  own : Thread → Local
  park : Vcpu → Park
  quiet : Vcpu → Vec → Bool
  history : List Event

namespace State

def setOwn (t : Thread) (l : Local) (s : State) : State := { s with own := update s.own t l }

def setPark (v : Vcpu) (p : Park) (s : State) : State := { s with park := update s.park v p }

def setPending (cpu : Vcpu) (vector : Vec) (b : Bool) (s : State) : State :=
  { s with pending := update s.pending cpu (update (s.pending cpu) vector b) }

def setQuiet (cpu : Vcpu) (vector : Vec) (b : Bool) (s : State) : State :=
  { s with quiet := update s.quiet cpu (update (s.quiet cpu) vector b) }

def log (e : Event) (s : State) : State := { s with history := s.history ++ [e] }

/-! ## Posts -/

def setBit (t : Thread) (cpu : Vcpu) (vector : Vec) (s : State) : State :=
  (((s.setPending cpu vector true).setQuiet cpu vector false).setOwn t { posting := some (cpu, .sending) }).log
    (.post cpu vector)

def setBitSelf (t : Thread) (cpu : Vcpu) (vector : Vec) (s : State) : State :=
  (((s.setPending cpu vector true).setQuiet cpu vector (s.quiet cpu vector || !s.pending cpu vector)).setOwn t
    { posting := some (cpu, .self) }).log (.post cpu vector)

/-- `WRITE_ONCE(co_colinux_ipi_any, 1)`. -/
def publish (t : Thread) (l : Local) (s : State) : State := { s with any := true }.setOwn t l

/-- `KeSetEvent`. -/
def signal (cpu : Vcpu) (s : State) : State := { s with wake := update s.wake cpu true }

end State

/-- `co_os_idle_wake` for a kick: the last step of the post. -/
def idleWake (t : Thread) (cpu : Vcpu) : Prog State Unit := Prog.write fun s => (s.signal cpu).setOwn t {}

/-- `co_os_vcpu_kick`. The DPC it queues interrupts a target that runs and leaves all of this as it is. -/
def vcpuKick (t : Thread) (cpu : Vcpu) : Prog State Unit := idleWake t cpu

/-- `CO_OPERATION_KICK_VCPU` in the host; what `co_arch_vcpu_active` says of the target is open. -/
def kickVcpu (t : Thread) (cpu : Vcpu) : Prog State Unit := do
  let active ← Prog.pick
  if active ≠ 0 then vcpuKick t cpu else idleWake t cpu

/-- Whether the processor has a passage page. A post without one ends here. -/
def passagePage (t : Thread) (self : Vcpu) : Prog State Bool :=
  Prog.act (fun s => if s.passage self then some (true, s) else some (false, s.setOwn t {})) Prog.ret

def post (t : Thread) (self cpu : Vcpu) (vector : Vec) : Prog State Unit := do
  Prog.write (State.setBit t cpu vector)
  Prog.write (State.publish t { posting := some (cpu, .ringing) })
  let pp ← passagePage t self
  if pp then kickVcpu t cpu else Prog.ret ()

def ipiSend (t : Thread) (self : Vcpu) (cpu : Nat) (vector : Int) : Prog State Unit :=
  if h : cpu < 4 ∧ 0 ≤ vector ∧ vector ≤ 255 then post t self ⟨cpu, h.1⟩ ⟨vector.toNat, by omega⟩ else Prog.ret ()

def sendIpiSelf (t : Thread) (self : Vcpu) (vector : Vec) : Prog State Unit := do
  Prog.write (State.setBitSelf t self vector)
  Prog.write (State.publish t {})

/-! ## `find_first_bit` -/

/-- The vectors of one `unsigned long` of a set, from the lowest bit on. -/
def wordBits (w : Nat) : List Vec := (List.finRange 256).filter fun x => x.val / 64 = w

def State.firstIn (s : State) (cpu : Vcpu) (w : Nat) : Option Vec := (wordBits w).find? (s.pending cpu)

/-- What the scan of a word finds; `empty` is what the history records of a word without a bit. -/
def scanned (empty : State → State) (s : State) : Option Vec → Option Vec × State
  | none => (none, empty s)
  | some x => (some x, s)

def scanWord (cpu : Vcpu) (w : Nat) (empty : State → State) : Prog State (Option Vec) :=
  Prog.act (fun s => some (scanned empty s (s.firstIn cpu w))) Prog.ret

def scanWords (cpu : Vcpu) (empty : Nat → State → State) : Nat → Nat → Prog State (Option Vec)
  | 0, _ => Prog.ret none
  | n + 1, w => do
      let found ← scanWord cpu w (empty w)
      found.elim (scanWords cpu empty n (w + 1)) fun x => Prog.ret (some x)

/-- `find_first_bit(co_colinux_ipi_pending[cpu], 256)`, with `none` for 256. -/
def findFirstBit (cpu : Vcpu) (empty : Nat → State → State) : Prog State (Option Vec) := scanWords cpu empty 4 0

/-! ## `co_colinux_ipi_drain` -/

namespace State

def clearBit (t : Thread) (cpu : Vcpu) (vector : Vec) (s : State) : State :=
  (s.setPending cpu vector false).setOwn t { taken := some vector }

def dispatch (t : Thread) (cpu : Vcpu) (vector : Vec) (s : State) : State :=
  (s.setOwn t {}).log (.dispatch cpu vector)

def position (n : Nat) : Option Nat := if n < 16 then some n else none

/-- `WRITE_ONCE(co_colinux_ipi_any, 0)`. -/
def retract (t : Thread) (s : State) : State := { s with any := false }.setOwn t { rescan := position 0 }

/-- The re-scan found nothing in a word. After the last one it is over. -/
def rescanned (t : Thread) (cpu : Vcpu) (w : Nat) (s : State) : State :=
  s.setOwn t { rescan := position (4 * cpu.val + w + 1) }

def nextWord (w : Nat) (woken : Option Nat) : Option Nat :=
  if woken = some w then (if w + 1 < 4 then some (w + 1) else none) else woken

def looked (v : Vcpu) (w : Nat) (s : State) : State :=
  s.setPark v { s.park v with woken := nextWord w (s.park v).woken }

def noted (v : Vcpu) (level w : Nat) (s : State) : State := if level = 0 then s.looked v w else s

end State

def rescanFrom (t : Thread) : List Vcpu → Prog State Unit
  | [] => Prog.ret ()
  | v :: rest => do
      let found ← findFirstBit v (State.rescanned t v)
      found.elim (rescanFrom t rest) fun _ => Prog.write (State.publish t {})

def retire (t : Thread) : Prog State (Option Unit) := do
  Prog.write (State.retract t)
  rescanFrom t [0, 1, 2, 3]
  Prog.ret (some ())

def deliver (t : Thread) (cpu : Vcpu) (vector : Vec) : Prog State (Option Unit) := do
  Prog.write (State.clearBit t cpu vector)
  Prog.write (State.dispatch t cpu vector)
  Prog.ret none

def drainRound (cpu : Vcpu) (level : Nat) : Prog State (Option Unit) := do
  let found ← findFirstBit cpu (State.noted cpu level)
  found.elim (retire (.guest cpu level)) (deliver (.guest cpu level) cpu)

/-- `co_colinux_ipi_drain`. A handler that does not come back is a run in which the context makes no further step. -/
def ipiDrain (cpu : Vcpu) (level : Nat) : Prog State Unit := Prog.loop (drainRound cpu level)

/-! ## `co_cpu_idle` -/

namespace State

/-- `co_colinux_switch(CO_OPERATION_IDLE)`: the processor is in the host. -/
def cross (v : Vcpu) (s : State) : State := s.setPark v { out := true }

def block (v : Vcpu) (s : State) : State := s.setPark v { out := true, waiting := true }

/-- The wait ends: with the event, which is reset, or at the timeout. -/
def unblock (v : Vcpu) (s : State) : State :=
  { s with wake := update s.wake v false }.setPark v { out := true, woken := some 0 }

def reenter (v : Vcpu) (s : State) : State := s.setPark v { woken := (s.park v).woken }

end State

def idleWait (v : Vcpu) : Prog State Unit := do
  Prog.write (State.block v)
  Prog.write (State.unblock v)

/-- `CO_OPERATION_IDLE` in the host, which does not wait when the guest's own deadline has passed. -/
def hostIdle (v : Vcpu) : Prog State Unit := do
  let bound ← Prog.pick
  if bound ≠ 0 then idleWait v else Prog.ret ()

/-- `co_cpu_idle`. The ticks of `co_colinux_drain_time` and the softirqs post and drain as contexts of their own. -/
def cpuIdle (v : Vcpu) : Prog State Unit := do
  Prog.write (State.cross v)
  hostIdle v
  Prog.write (State.reenter v)
  let found ← findFirstBit v (State.noted v 0)
  found.elim (Prog.ret ()) fun _ => ipiDrain v 0

/-! ## Runs -/

def doorbell (cpu : Vcpu) : Prog State Unit := Prog.write (State.signal cpu)

inductive Call : Thread → State → Prog State Unit → Prop where
  | send (v level cpu vector s) : Call (.guest v level) s (ipiSend (.guest v level) v cpu vector)
  | sendSelf (v level vector s) : Call (.guest v level) s (sendIpiSelf (.guest v level) v vector)
  | drain (v level s) : Call (.guest v level) s (ipiDrain v level)
  | idle (v s) : Call (.guest v 0) s (cpuIdle v)
  | doorbell (n cpu s) : Call (.host n) s (doorbell cpu)

/-- Before the first call nothing is posted, and the host has primed the passage pages. -/
structure Fresh (s : State) : Prop where
  pending : ∀ v x, s.pending v x = false
  any : s.any = false
  passage : ∀ v, s.passage v = true
  own : ∀ t, s.own t = {}
  park : ∀ v, s.park v = {}
  history : s.history = []

def Reachable (allowed : Thread → State → State → Prop) : Threads.Config State Thread → Prop :=
  Threads.Reachable Fresh Call allowed

/-- A processor that is out in the host runs none of its contexts but the one that crossed. -/
def OnProcessor : Thread → State → State → Prop
  | .guest v level, s, _ => level = 0 ∨ (s.park v).out = false
  | .host _, _, _ => True

instance (t : Thread) (s s' : State) : Decidable (OnProcessor t s s') :=
  match t with
  | .guest _ _ => inferInstanceAs (Decidable (_ ∨ _))
  | .host _ => inferInstanceAs (Decidable True)

/-- A post is between its `set_bit` and its store of 1. -/
def Local.Unpublished (l : Local) : Prop := ∃ v, l.posting = some (v, .sending) ∨ l.posting = some (v, .self)

/-- A post to `v` is between its `set_bit` and its end. -/
def Local.PostsTo (v : Vcpu) (l : Local) : Prop := ∃ stage, l.posting = some (v, stage)

/-- The context has cleared the bit of the vector, and its next change of the state is the dispatch. -/
def Dispatches (allowed : Thread → State → State → Prop) (c : Threads.Config State Thread) (v : Vcpu) (level : Nat)
    (x : Vec) : Prop :=
  (c.shared.own (.guest v level)).taken = some x ∧ ∀ c', Threads.Step Call allowed c (.guest v level) c' →
    c'.shared = c.shared ∨ c'.shared.history = c.shared.history ++ [.dispatch v x]

/-- Every post of a vector to a processor is followed by a dispatch of that vector there, or its bit is still set. -/
def PostsKept (allowed : Thread → State → State → Prop) (c : Threads.Config State Thread) : Prop :=
  ∀ before v x after, c.shared.history = before ++ .post v x :: after →
    c.shared.pending v x = true ∨ .dispatch v x ∈ after ∨ ∃ level, Dispatches allowed c v level x

/-- `co_colinux_ipi_any` is 1 while a bit is set, no post is before its store of 1 and no drain is in its re-scan. -/
def AnyTold (s : State) : Prop :=
  (∃ v x, s.pending v x = true) → (∀ t, ¬(s.own t).Unpublished) → (∀ t, (s.own t).rescan = none) → s.any = true

/-- A processor that is blocked in the idle wait while nobody posts to it has no vector pending or its event is
signalled. -/
def Woken (s : State) : Prop :=
  ∀ v, (s.park v).waiting = true → (∀ t, ¬(s.own t).PostsTo v) → (∀ x, s.pending v x = false) ∨ s.wake v = true

/-- The idle task crosses to the host only while every bit that no doorbell stands for has the event set. -/
def Rung : Thread → State → State → Prop
  | .guest v _, s, s' => (s.park v).out = false → (s'.park v).out = true →
      ∀ x, s.pending v x = true → s.quiet v x = true → s.wake v = true
  | .host _, _, _ => True

instance (t : Thread) (s s' : State) : Decidable (Rung t s s') :=
  match t with
  | .guest v _ => inferInstanceAs (Decidable ((s.park v).out = false → (s'.park v).out = true →
      ∀ x, s.pending v x = true → s.quiet v x = true → s.wake v = true))
  | .host _ => inferInstanceAs (Decidable True)

end MoCoLinux.Ipi
