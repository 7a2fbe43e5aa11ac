import MoCoLinux.Common

/-!
# The cooperative tick device (`arch/x86/kernel/process.c` of the guest patch)

The host stamps its monotonic clock, in units of 100 ns, into the passage page before every entry.
`co_colinux_take_ticks` turns what has gone by since the last call into ticks.
-/

namespace MoCoLinux.Ticks

/-- `HZ`: the guest is configured with `CONFIG_HZ=1000`. -/
def hz : Nat := 1000

def perTick : Nat := 10000000 / hz

/-- What `co_colinux_take_ticks` reads of one processor: whether it has a passage page and a handler, whether it is in
oneshot mode, `co_colinux_timer_deadline` and `last_mono`. -/
structure Device where
  passage : Bool
  handler : Bool
  oneshot : Bool
  deadline : Nat
  lastMono : Nat
  deriving DecidableEq, Repr

def takeOneshot (d : Device) (now : Nat) : Nat × Device :=
  if d.deadline = 0 ∨ now < d.deadline then (0, { d with lastMono := now }) else (1, { d with lastMono := now })

def elapsed (lm now : Nat) : Nat := u32 (ullongSub now lm / perTick)

def takeSince (d : Device) (lm now : Nat) : Nat × Device :=
  if now ≤ lm ∨ elapsed lm now = 0 then (0, { d with lastMono := lm })
  else if hz < elapsed lm now then
    -- The clamp forgets what is more than a second.
    (hz, { d with lastMono := ullong (ullongSub now (hz * perTick) + hz * perTick) })
  else (elapsed lm now, { d with lastMono := ullong (lm + elapsed lm now * perTick) })

def takeTicks (d : Device) (now : Nat) : Nat × Device :=
  if d.passage = false ∨ d.handler = false then (0, d)
  else if d.oneshot then takeOneshot d now
  else takeSince d (if d.lastMono = 0 then now else d.lastMono) now

/-- Who takes ticks: `co_colinux_drain_time` at the idle boundary and on the way to user mode, and `sysvec_co_timer`.
Each calls the handler as often as `co_colinux_take_ticks` says. -/
inductive Caller where
  | drainTime
  | coTimer
  deriving DecidableEq, Repr

/-- The ticks each call of a sequence takes, where a call is given by who makes it and the clock it reads. -/
def run : List (Caller × Nat) → Device → List Nat
  | [], _ => []
  | (_, now) :: rest, d => (takeTicks d now).1 :: run rest (takeTicks d now).2

end MoCoLinux.Ticks
