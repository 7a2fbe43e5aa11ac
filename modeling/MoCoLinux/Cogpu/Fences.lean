import MoCoLinux.Cogpu.Vring
import MoCoLinux.Lib.Ring
import MoCoLinux.Lib.Runs
import MoCoLinux.Lib.SlotTable

/-!
# The main loop and the fences (`cogpu-daemon.c`)

The main thread pops a chain, serves it, and pushes it or parks it until its fence retires. The renderer's threads call
back for the fences, and the main thread drains their signals between two chains. The guest makes a head available only
after the completion of its chain before was published, as the virtqueue protocol has it.
-/

namespace MoCoLinux.Cogpu

open Function

/-- `struct vring_used_elem`. -/
structure UsedElem where
  id : Nat
  len : Nat
  deriving DecidableEq, Repr

structure Vq where
  vr : Vring
  availIdx : Nat
  ring : Nat → Nat
  used : Nat → UsedElem
  usedIdx : Nat
  /-- Where the daemon joined the queue. -/
  base : Nat
  /-- The heads made available since then, how many were popped, and the numbers of those published, in order. -/
  offered : List Nat
  pops : Nat
  published : List Nat

namespace Vq

def offer (v : Vq) (head : Nat) : Vq :=
  { v with
    ring := update v.ring (v.availIdx % v.vr.num) head
    availIdx := u16 (v.availIdx + 1)
    offered := v.offered ++ [head] }

/-- The guest may use a head again when the completion of its last chain was published. -/
def Free (v : Vq) (head : Nat) : Prop := head < v.vr.num ∧ ∀ k, v.offered[k]? = some head → k ∈ v.published

def view (v : Vq) (desc : Nat → Nat → Desc) (resolve : Nat → Nat → Option Nat) : View :=
  ⟨v.availIdx, v.ring, desc, resolve⟩

def popped (v : Vq) : Vq := { v with vr := v.vr.popped, pops := v.pops + 1 }

/-- `cogpu_vring_push`. -/
def push (v : Vq) (number : Nat) (e : UsedElem) : Vq :=
  { v with
    used := update v.used v.vr.pushSlot e
    vr := v.vr.pushed
    usedIdx := v.vr.pushed.usedIdx
    published := v.published ++ [number] }

/-- The index in guest memory counts these completions, and the ring still has each of the last `num`. -/
structure Publishes (v : Vq) (elems : List UsedElem) : Prop where
  idx : v.usedIdx = u16 (v.base + elems.length)
  ring : ∀ i e, elems[i]? = some e → elems.length ≤ i + v.vr.num → v.used ((v.base + i) % v.vr.num) = e

end Vq

structure Fence where
  ctxId : Nat
  ringIdx : Nat
  id : Nat
  deriving DecidableEq, Repr

def Fence.Covers (g f : Fence) : Prop := f.ctxId = g.ctxId ∧ f.ringIdx = g.ringIdx ∧ f.id ≤ g.id

instance (g f : Fence) : Decidable (g.Covers f) := inferInstanceAs (Decidable (_ ∧ _))

def Fence.sameRing (f g : Fence) : Bool := decide (g.ctxId = f.ctxId ∧ g.ringIdx = f.ringIdx)

structure Job where
  vq : Nat
  number : Nat
  head : Nat
  deriving DecidableEq, Repr

/-- A chain that was served, and how many bytes were written into it. -/
structure Served where
  job : Job
  written : Nat
  deriving DecidableEq, Repr

def Served.elem (c : Served) : UsedElem := ⟨c.job.head, c.written⟩

/-- `struct cogpu_parked`, and how many signals had been queued when the fence was created. -/
structure Parked where
  chain : Served
  fence : Fence
  since : Nat
  deriving DecidableEq, Repr

/-- What the main thread is doing. A fence is there as soon as `serve` has created it. -/
inductive Stage where
  | idle
  | serving (job : Job) (fence : Option (Fence × Nat))
  deriving DecidableEq

def Stage.job : Stage → Option Job
  | .idle => none
  | .serving job _ => some job

structure Loop where
  queue : Nat → Vq
  /-- `g_parked`. -/
  table : List (Option Parked)
  /-- `g_fence_sig`, its two indices, and `g_fence_sig_dropped`. -/
  sig : Nat → Fence
  sigHead : Nat
  sigTail : Nat
  dropped : Nat
  stage : Stage
  /-- The chains popped, served and pushed so far, and the parked ones among those pushed. -/
  popped : List Job
  served : List Served
  pushed : List Served
  released : List Parked
  /-- The fences created, those called back, and those of which a signal was queued; how many signals were drained. -/
  created : List Fence
  called : List Fence
  queued : List Fence
  drained : Nat

namespace Loop

def parked (s : Loop) : List Parked := s.table.filterMap id

def pushedOn (s : Loop) (q : Nat) : List Served := s.pushed.filter fun c => decide (c.job.vq = q)

def push (s : Loop) (c : Served) : Loop :=
  { s with
    queue := update s.queue c.job.vq ((s.queue c.job.vq).push c.job.number c.elem)
    pushed := s.pushed ++ [c] }

def pop (s : Loop) (q : Nat) (desc : Nat → Nat → Desc) (resolve : Nat → Nat → Option Nat) : Loop :=
  match ((s.queue q).vr.pop ((s.queue q).view desc resolve)).1 with
  | none => s
  | some chain =>
    { s with
      queue := update s.queue q (s.queue q).popped
      stage := .serving ⟨q, (s.queue q).pops, chain.head⟩ none
      popped := s.popped ++ [⟨q, (s.queue q).pops, chain.head⟩] }

def fence (s : Loop) (f : Fence) : Loop :=
  match s.stage with
  | .serving job none => { s with stage := .serving job (some (f, s.queued.length)), created := s.created ++ [f] }
  | _ => s

def finish (s : Loop) (written : Nat) : Loop :=
  match s.stage with
  | .idle => s
  | .serving job fence =>
    let c : Served := ⟨job, written⟩
    let s := { s with stage := .idle, served := s.served ++ [c] }
    match fence with
    | none => s.push c
    | some (f, since) =>
      -- cogpu_park
      match SlotTable.place Option.isNone (some ⟨c, f, since⟩) s.table with
      | some table => { s with table := table }
      | none => s.push c

/-- `cogpu_ctx_fence_signal`. -/
def callback (s : Loop) (f : Fence) : Loop :=
  let s := { s with called := s.called ++ [f] }
  if u32Sub s.sigHead s.sigTail < 256 then
    { s with
      sig := update s.sig (s.sigHead % 256) f
      sigHead := u32 (s.sigHead + 1)
      queued := s.queued ++ [f] }
  else { s with dropped := s.dropped + 1 }

def takeSignal (s : Loop) : Loop := { s with sigTail := u32 (s.sigTail + 1), drained := s.drained + 1 }

def unpark (s : Loop) (g : Fence) : Loop :=
  { s with
    table := s.table.map fun slot => slot.filter fun p => !decide (g.Covers p.fence)
    released := s.released ++ s.parked.filter fun p => decide (g.Covers p.fence) }

def release (s : Loop) (g : Fence) : Loop :=
  ((s.parked.filter fun p => decide (g.Covers p.fence)).map Parked.chain).foldl push (s.unpark g)

def turn (s : Loop) : Loop := s.takeSignal.release (s.sig (s.sigTail % 256))

def drainLoop : Nat → Loop → Loop
  | 0, s => s
  | turns + 1, s => if s.sigTail = s.sigHead then s else drainLoop turns s.turn

/-- The drain of the main loop, which takes as many turns as there are signals. -/
def drain (s : Loop) : Loop := drainLoop (u32Sub s.sigHead s.sigTail) s

inductive Event where
  | offer (q head : Nat)
  | pop (q : Nat) (desc : Nat → Nat → Desc) (resolve : Nat → Nat → Option Nat)
  | fence (f : Fence)
  | finish (written : Nat)
  | callback (f : Fence)
  | drain

def step (s : Loop) : Event → Loop
  | .offer q head => { s with queue := update s.queue q ((s.queue q).offer head) }
  | .pop q desc resolve => s.pop q desc resolve
  | .fence f => s.fence f
  | .finish written => s.finish written
  | .callback f => s.callback f
  | .drain => s.drain

def Enabled (nums : List Nat) (s : Loop) : Event → Prop
  | .offer q head => q < nums.length ∧ (s.queue q).Free head
  | .pop q _ _ => q < nums.length ∧ s.stage = .idle
  | .fence _ => ∃ job, s.stage = .serving job none
  | .finish _ => s.stage ≠ .idle
  | .callback f => f ∈ s.created
  | .drain => s.stage = .idle

/-- A fence is called back at most once, and those of one context and ring in the order of their creation. -/
def InOrder (s : Loop) : Event → Prop
  | .callback f => ((s.called ++ [f]).filter f.sameRing).Sublist (s.created.filter f.sameRing)
  | _ => True

/-- The ids called back on one context and ring increase. -/
def Rising (s : Loop) : Prop :=
  s.called.Pairwise fun g f => g.ctxId = f.ctxId → g.ringIdx = f.ringIdx → g.id < f.id

/-- The daemon adopts its queues, which have these numbers of descriptors and nothing outstanding. -/
structure Start (nums : List Nat) (s : Loop) : Prop where
  queue : ∀ (q num : Nat), nums[q]? = some num → (s.queue q).vr = ⟨num, u16 (s.queue q).base, u16 (s.queue q).base⟩ ∧
    (s.queue q).availIdx = u16 (s.queue q).base ∧ (s.queue q).usedIdx = u16 (s.queue q).base ∧
    (s.queue q).offered = [] ∧ (s.queue q).pops = 0 ∧ (s.queue q).published = []
  table : s.table = List.replicate 512 none
  signals : s.sigHead = 0 ∧ s.sigTail = 0 ∧ s.dropped = 0
  stage : s.stage = .idle
  history : s.popped = [] ∧ s.served = [] ∧ s.pushed = [] ∧ s.released = []
  fences : s.created = [] ∧ s.called = [] ∧ s.queued = [] ∧ s.drained = 0

def Reachable (nums : List Nat) (ok : Loop → Event → Prop) : Loop → Prop :=
  Runs.Reach (Start nums) fun s event s' => s.Enabled nums event ∧ ok s event ∧ s' = s.step event

/-- Every chain popped is in service, parked, or pushed once; what was pushed is in the used ring with its own head and
length; a parked chain is pushed only after a signal for it; no signal is dropped while the ids rise; and a drain leaves
no chain parked that a queued signal stands for. -/
structure Delivers (nums : List Nat) (s : Loop) : Prop where
  popped : s.popped.Nodup ∧ s.popped = s.served.map Served.job ++ s.stage.job.toList
  once : s.served.Perm (s.pushed ++ s.parked.map Parked.chain)
  head : ∀ job ∈ s.popped, (s.queue job.vq).offered[job.number]? = some job.head
  used : ∀ q < nums.length, (s.queue q).Publishes ((s.pushedOn q).map Served.elem)
  signalled : ∀ p ∈ s.released, ∃ g ∈ s.queued, g.Covers p.fence
  undropped : s.Rising → s.dropped = 0 ∧ s.queued = s.called
  drained : s.stage = .idle → ∀ p ∈ s.drain.parked, ∀ g ∈ s.queued.drop p.since, ¬ g.Covers p.fence

end Loop

namespace Vq

/-- The queue as another daemon adopts it: both counters start at `used->idx`. -/
def rejoin (v : Vq) : Vring := ⟨v.vr.num, u16 v.usedIdx, u16 v.usedIdx⟩

def popAll (view : View) : Nat → Vring → List Nat
  | 0, _ => []
  | turns + 1, vr =>
    match (vr.pop view).1 with
    | none => []
    | some chain => chain.head :: popAll view turns vr.popped

/-- The heads the second daemon serves. It takes fewer turns than an index can count. -/
def servedNext (v : Vq) (desc : Nat → Nat → Desc) (resolve : Nat → Nat → Option Nat) : List Nat :=
  popAll (v.view desc resolve) (2 ^ 16) v.rejoin

def WellFormed (v : Vq) (desc : Nat → Nat → Desc) (resolve : Nat → Nat → Option Nat) : Prop :=
  ∀ head ∈ v.offered, ((Vring.walk v.vr.num (v.view desc resolve) (Vring.hopLimit v.vr.num) head
    ⟨head, [], [], 0, 0⟩).1).isSome = true

/-- These are the chains that were made available and not published, each once. -/
def Resumes (v : Vq) (served : List Nat) : Prop :=
  ∃ numbers : List Nat, numbers.Nodup ∧ (∀ k, k ∈ numbers ↔ k < v.offered.length ∧ k ∉ v.published) ∧
    served.map some = numbers.map fun k => v.offered[k]?

end Vq

end MoCoLinux.Cogpu
