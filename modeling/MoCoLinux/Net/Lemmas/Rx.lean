import MoCoLinux.Net.Lemmas.Record
import MoCoLinux.Net.Rx

/-!
# The receive ring: invariant and contracts

The stream of published bytes is a sequence of records, and the ring is a window onto it. A host caller may rely on
everything but the tail while it holds the lock, the guest on its own fields always.
-/

namespace MoCoLinux.Net

open Threads (Prog Contract)

/-- A call publishes the first `taken` records of its buffer, or it answers an error and publishes nothing. -/
def PutResult.Good (r : PutResult) : Prop :=
  (r.rc = .ok ∧ 1 ≤ r.taken ∧ r.taken ≤ r.call.frames ∧ ∃ frames, frames.length = r.taken ∧
    Records (bytesAt r.call.data 0 (recordsBytes frames)) frames ∧ recordsBytes frames ≤ r.call.size ∧
    r.after = u32 (r.before + recordsBytes frames) ∧ r.sent = frames) ∨
  (r.rc ≠ .ok ∧ r.taken = 0 ∧ r.after = r.before ∧ r.sent = [])

namespace Rx

def Took (frame : Frame) (o : Option Frame) : Prop := o = none ∨ o = some frame

structure Inv (s : Rx) : Prop where
  window : Ring.Window ringSize s.rx s.start s.tail s.stream
  records : Records s.stream s.published
  aligned : s.start % 4 = 0
  rxHead : s.rxHead = u32 s.head
  rxTail : s.rxTail = u32 s.tail
  took : List.Forall₂ Took (s.published.take s.extracted.length) s.extracted
  count : s.extracted.length ≤ s.published.length
  dropped : s.rxDropped = s.extracted.count none
  synced : s.rxErrors = 0
  results : ∀ r ∈ s.results, r.Good

variable {s s' s'' : Rx} {i j : Nat}

/-- What belongs to the holder of the lock. -/
def Same (s s' : Rx) : Prop :=
  s'.rx = s.rx ∧ s'.rxHead = s.rxHead ∧ s'.stream = s.stream ∧ s'.published = s.published ∧ s'.entered = s.entered ∧
    s'.enteredFrames = s.enteredFrames

structure GuestRely (s s' : Rx) : Prop where
  start : s'.start = s.start
  tail : s'.tail = s.tail
  extracted : s'.extracted = s.extracted
  seen : s'.seen = s.seen
  stream : s.stream <+: s'.stream
  published : s.published <+: s'.published

structure HostGuar (i : Nat) (s s' : Rx) : Prop extends GuestRely s s' where
  inv : s'.Inv
  lock : ∀ j, j ≠ i → (s'.lock = some j ↔ s.lock = some j)
  owned : ∀ j, j ≠ i → s.lock = some j → Same s s'

structure HostRely (i : Nat) (s s' : Rx) : Prop where
  start : s'.start = s.start
  lock : s'.lock = some i ↔ s.lock = some i
  tail : s.tail ≤ s'.tail
  owned : s.lock = some i → Same s s'

structure GuestGuar (s s' : Rx) : Prop where
  inv : s'.Inv
  start : s'.start = s.start
  tail : s.tail ≤ s'.tail
  lock : s'.lock = s.lock
  owned : Same s s'

structure GuestIdle (s : Rx) : Prop where
  seen : s.seen = s.tail
  count : s.extracted.length ≤ s.published.length
  tail : s.tail = s.start + recordsBytes (s.published.take s.extracted.length)

def contract : Party → Contract Rx
  | .host i => ⟨HostRely i, HostGuar i, fun s => s.lock ≠ some i⟩
  | .guest => ⟨GuestRely, GuestGuar, GuestIdle⟩

theorem Same.refl (s : Rx) : Same s s := ⟨rfl, rfl, rfl, rfl, rfl, rfl⟩

theorem GuestRely.refl (s : Rx) : GuestRely s s := ⟨rfl, rfl, rfl, rfl, List.prefix_rfl, List.prefix_rfl⟩

theorem HostRely.refl (s : Rx) : HostRely i s s := ⟨rfl, Iff.rfl, Nat.le_refl _, fun _ => .refl s⟩

theorem HostRely.trans (h : HostRely i s s') (h' : HostRely i s' s'') : HostRely i s s'' := by
  refine ⟨h'.start.trans h.start, h'.lock.trans h.lock, Nat.le_trans h.tail h'.tail, fun hl => ?_⟩
  obtain ⟨a₁, a₂, a₃, a₄, a₅, a₆⟩ := h.owned hl
  obtain ⟨b₁, b₂, b₃, b₄, b₅, b₆⟩ := h'.owned (h.lock.mpr hl)
  exact ⟨b₁.trans a₁, b₂.trans a₂, b₃.trans a₃, b₄.trans a₄, b₅.trans a₅, b₆.trans a₆⟩

theorem HostGuar.refl (h : s.Inv) : HostGuar i s s := ⟨.refl s, h, fun _ _ => Iff.rfl, fun _ _ _ => .refl s⟩

theorem HostGuar.host (h : HostGuar i s s') (hij : i ≠ j) : HostRely j s s' :=
  ⟨h.start, h.lock j (Ne.symm hij), h.tail.ge, h.owned j (Ne.symm hij)⟩

theorem GuestGuar.host (h : GuestGuar s s') : HostRely j s s' :=
  ⟨h.start, by rw [h.lock], h.tail, fun _ => h.owned⟩

theorem GuestRely.trans (h : GuestRely s s') (h' : GuestRely s' s'') : GuestRely s s'' :=
  ⟨h'.start.trans h.start, h'.tail.trans h.tail, h'.extracted.trans h.extracted, h'.seen.trans h.seen,
    h.stream.trans h'.stream, h.published.trans h'.published⟩

theorem GuestRely.take_published (h : GuestRely s s') {k : Nat} (hk : k ≤ s.published.length) :
    s'.published.take k = s.published.take k := by
  obtain ⟨rest, hrest⟩ := h.published
  rw [← hrest, List.take_append_of_le_length hk]

theorem lawful (p : Party) : (contract p).Lawful Inv := by
  cases p with
  | host i =>
    refine ⟨HostRely.refl, HostRely.trans, HostGuar.refl, fun _ h => h.inv, fun hidle hr _ => ?_⟩
    exact fun hl => hidle (hr.lock.mp hl)
  | guest =>
    refine ⟨GuestRely.refl, GuestRely.trans, fun h => ?_, fun _ h => h.inv, fun hidle hr _ => ?_⟩
    · exact ⟨h, rfl, Nat.le_refl _, rfl, .refl _⟩
    · refine ⟨by rw [hr.seen, hr.tail, hidle.seen], ?_, ?_⟩
      · rw [hr.extracted]
        exact Nat.le_trans hidle.count hr.published.length_le
      · rw [hr.tail, hr.start, hr.extracted, hr.take_published hidle.count, hidle.tail]

theorem fits {p q : Party} (hpq : p ≠ q) (h : (contract p).guar s s') : (contract q).rely s s' := by
  cases p with
  | host i =>
    cases q with
    | host j => exact HostGuar.host h fun hij => hpq (congrArg Party.host hij)
    | guest => exact HostGuar.toGuestRely h
  | guest =>
    cases q with
    | host j => exact GuestGuar.host h
    | guest => exact absurd rfl hpq

end Rx

end MoCoLinux.Net
