import MoCoLinux.Cobd.Async

/-!
# Asynchronous or inline block I/O (`co_arch_boot_loaded`)

The guest goes by the word `enabled` of its ring, the host by the control block of the run. Both are settled before the
guest runs; afterwards the vCPUs cross with requests, and the workers that were started serve them.
-/

namespace MoCoLinux.Cobd

open Threads (Prog Config)

/-- What is asked for, and how the start of the workers goes: whether the store of `enabled` works, and how many threads
the system creates before it refuses one. -/
structure Outcome where
  async : Bool
  ioVa : Nat
  ring : Bool
  created : Nat
  deriving DecidableEq, Repr

/-- The guest's word, and `async_cobd` and `cobd_io_va` of the control block. -/
structure Mode where
  enabled : Nat
  async : Bool
  ioVa : Nat
  deriving DecidableEq, Repr

/-- The branch of `CO_OPERATION_BLOCK_IO`: a request is queued for a worker, rather than transferred. -/
def Mode.queues (m : Mode) : Bool := m.async && m.ioVa != 0

namespace Async

def boot (o : Outcome) : Prog Async Mode := do
  let mode ←
    if o.async && o.ioVa != 0 then do
      let ok ← start o.ioVa o.ring o.created
      pure ⟨if o.ring then 1 else 0, ok, o.ioVa⟩
    else pure ⟨0, o.async, o.ioVa⟩
  Prog.write fun s => { s with phase := .running }
  pure mode

/-- A vCPU crosses with a request. An inline transfer leaves the workers alone. -/
def blockIo (m : Mode) (n : Nat) (r : Request) : Prog Async Unit := if m.queues then vcpu n r else pure ()

def Serving (m : Mode) : Party → Async → Prog Async Unit → Prop
  | .monitor, _, _ => False
  | .worker u, s, p => s.alive u = true ∧ p = turn u
  | .vcpu n, _, p => ∃ r, p = blockIo m n r

def Booted (o : Outcome) (m : Mode) (s : Async) : Prop := ∃ s₀, Start s₀ ∧ (boot o).alone s₀ = some (m, s)

def After (o : Outcome) (m : Mode) : Config Async Party → Prop :=
  Threads.Reachable (Booted o m) (Serving m) fun _ _ _ => True

/-- The guest takes the answer for an acceptance exactly if the host accepts, and every request accepted is for a unit
with a running worker. -/
structure Agrees (m : Mode) (s : Async) : Prop where
  protocol : m.enabled = 1 ↔ m.queues = true
  served : ∀ u, s.accepted u ≠ [] → s.alive u = true

end Async

end MoCoLinux.Cobd
