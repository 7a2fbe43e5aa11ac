import MoCoLinux.Common

/-!
# The idle wait of a vCPU's loop (`arch/x86_64/switch.c`, `os/winnt/kernel/lowlevel/timer.c`)

Times are values of `co_os_monotonic_100ns`, which does not wrap around. A wait that no doorbell cuts short ends when
its timeout is over.
-/

namespace MoCoLinux.Arch.IdleWait

/-- `CO_GUEST_TICK_100NS`. -/
def guestTick : Nat := 10000000 / 1000

/-- The wait the loop chooses: none, `co_os_idle_wait` for so many milliseconds, or `co_os_idle_wait_until`. -/
inductive Wait where
  | skip
  | timed (msecs : Nat)
  | toDeadline (deadline : Nat)
  deriving DecidableEq, Repr

def waitMs (bound now : Nat) : Nat :=
  if u32 ((bound - now + 9999) / 10000) = 0 then 1 else u32 ((bound - now + 9999) / 10000)

def nextDue (tickDue now : Nat) : Nat := if tickDue ≤ now then now + guestTick else tickDue

/-- The wait of one `CO_OPERATION_IDLE`, where `gd` is the deadline the guest published, if the host could read it. -/
def chooseWait (tickDue now : Nat) : Option Nat → Wait
  | none => .timed (waitMs (nextDue tickDue now) now)
  | some gd =>
    if gd = 0 then .timed (waitMs (nextDue tickDue now) now)
    else if gd ≤ now then .skip
    else if 9000 ≤ gd - now then .timed (waitMs gd now)
    else .toDeadline gd

/-- When `co_os_idle_wait` ends, and `co_os_msleep` when there are no events. -/
def timedEnd (start msecs : Nat) : Nat := start + msecs * 10000

/-- When `co_os_idle_wait_until` ends, with a high-resolution timer or without. -/
def untilEnd (hires : Bool) (start deadline : Nat) : Nat :=
  if deadline ≤ start then start
  else if hires then deadline
  else timedEnd start (if (deadline - start) / 10000 = 0 then 1 else (deadline - start) / 10000)

def spin (now gd : Nat) : Nat := if now < gd ∧ gd - now < 2500 then gd else now

def Wait.finish (hires : Bool) (start : Nat) : Wait → Nat
  | .skip => start
  | .timed msecs => timedEnd start msecs
  | .toDeadline gd => spin (untilEnd hires start gd) gd

/-- One iteration of the boot vCPU's loop that ends in `CO_OPERATION_IDLE`: the clock at the deadline test, at the
choice of the wait and at its start, what is read of the guest's deadline, and whether there is a high-resolution
timer. -/
structure Pass where
  stamp : Nat
  now : Nat
  start : Nat
  gd : Option Nat
  hires : Bool
  deriving Repr

def Pass.finish (p : Pass) (tickDue : Nat) : Nat := (chooseWait tickDue p.now p.gd).finish p.hires p.start

/-- What `co_colinux_ce_set_next` and `co_colinux_ce_stop` publish: 0, or up to 10^9 ticks from a clock that the host
stamped before. -/
def Published (now gd : Nat) : Prop := gd = 0 ∨ ∃ stamp delta, stamp ≤ now ∧ delta ≤ 1000000000 ∧ gd = stamp + delta

/-- The passes of a loop with the run deadline `deadline`: each deadline test lets the loop go on, and the clock does
not go back. -/
def Runs (deadline : Nat) : Nat → Nat → List Pass → Prop
  | _, _, [] => True
  | tickDue, clock, p :: rest =>
    clock ≤ p.stamp ∧ p.stamp < deadline ∧ p.stamp ≤ p.now ∧ p.now ≤ p.start ∧
      (∀ gd, p.gd = some gd → Published p.now gd) ∧ Runs deadline (nextDue tickDue p.now) (p.finish tickDue) rest

def waits : Nat → List Pass → List (Nat × Nat)
  | _, [] => []
  | tickDue, p :: rest => (p.start, p.finish tickDue) :: waits (nextDue tickDue p.now) rest

/-- The wait ends within a tick of the later of the run deadline and its start. -/
def Within (deadline : Nat) (w : Nat × Nat) : Prop := w.2 ≤ max deadline w.1 + guestTick

instance (deadline : Nat) (w : Nat × Nat) : Decidable (Within deadline w) := inferInstanceAs (Decidable (_ ≤ _))

/-- A deadline published 900 us or more ahead, in whole milliseconds from the start of the wait, is not more than a
tick beyond the later of the run deadline and the start. -/
def Near (deadline : Nat) (p : Pass) : Prop :=
  ∀ gd, p.gd = some gd → p.now + 9000 ≤ gd →
    p.start + (gd - p.now + 9999) / 10000 * 10000 ≤ max deadline p.start + guestTick

end MoCoLinux.Arch.IdleWait
