import MoCoLinux.Console.Pump
import MoCoLinux.Net.Lemmas.Record

/-!
# The console rings: invariant and contracts
-/

namespace MoCoLinux

open Threads (Contract)

def PumpResult.Good (r : PumpResult) : Prop :=
  r.inTaken ≤ r.call.input.length ∧ r.published = r.call.input.take r.inTaken

namespace Console

def position (s : Console) : Index → Nat
  | .inHead => s.inHead
  | .inTail => s.inPos
  | .outHead => s.outHead
  | .outTail => s.outPos

structure Inv (s : Console) : Prop where
  inWindow : Ring.Window consoleInSize s.inRing s.inStart s.inPos s.input
  outWindow : Ring.Window consoleOutSize s.outRing s.outStart s.outPos s.output
  words : ∀ w, w.ofHost = false ∨ s.moving ≠ some w → s.value w = u32 (s.position w)
  still : s.lock = none → s.moving = none
  got : s.got = s.input.take (s.inPos - s.inStart)
  taken : s.taken <+: s.input
  takenAll : s.lock = none → s.taken = s.input
  returned : s.returned <+: s.output
  returnedAll : s.lock = none → s.returned = s.output.take (s.outPos - s.outStart)
  results : ∀ r ∈ s.results, r.Good
  synced : s.resyncs = 0

variable {s s' s'' : Console} {i j : Nat}

structure SameHost (s s' : Console) : Prop where
  moving : s'.moving = s.moving
  words : ∀ w, w.ofHost = true ∨ s.moving = some w → s'.words w = s.words w
  inRing : s'.inRing = s.inRing
  input : s'.input = s.input
  outPos : s'.outPos = s.outPos
  entered : s'.entered = s.entered
  taken : s'.taken = s.taken
  returned : s'.returned = s.returned

structure SameWriter (s s' : Console) : Prop where
  outRing : s'.outRing = s.outRing
  output : s'.output = s.output

structure SameReader (s s' : Console) : Prop where
  inPos : s'.inPos = s.inPos

structure Grows (s s' : Console) : Prop where
  inStart : s'.inStart = s.inStart
  outStart : s'.outStart = s.outStart
  input : s.input <+: s'.input
  output : s.output <+: s'.output
  inPos : s.inPos ≤ s'.inPos
  outPos : s.outPos ≤ s'.outPos

structure HostRely (i : Nat) (s s' : Console) : Prop extends Grows s s' where
  lock : s'.lock = some i ↔ s.lock = some i
  owned : s.lock = some i → SameHost s s'

structure HostGuar (i : Nat) (s s' : Console) : Prop extends Grows s s' where
  inv : s'.Inv
  lock : ∀ j, j ≠ i → (s'.lock = some j ↔ s.lock = some j)
  owned : ∀ j, j ≠ i → s.lock = some j → SameHost s s'
  outLock : s'.outLock = s.outLock
  writer : SameWriter s s'
  reader : SameReader s s'

structure WriterRely (j : Nat) (s s' : Console) : Prop extends Grows s s' where
  outLock : s'.outLock = some j ↔ s.outLock = some j
  owned : s.outLock = some j → SameWriter s s'

structure WriterGuar (j : Nat) (s s' : Console) : Prop extends Grows s s' where
  inv : s'.Inv
  outLock : ∀ k, k ≠ j → (s'.outLock = some k ↔ s.outLock = some k)
  owned : ∀ k, k ≠ j → s.outLock = some k → SameWriter s s'
  lock : s'.lock = s.lock
  host : SameHost s s'
  reader : SameReader s s'

structure ReaderRely (s s' : Console) : Prop extends Grows s s' where
  reader : SameReader s s'

structure ReaderGuar (s s' : Console) : Prop extends Grows s s' where
  inv : s'.Inv
  lock : s'.lock = s.lock
  outLock : s'.outLock = s.outLock
  host : SameHost s s'
  writer : SameWriter s s'

def contract : Party → Contract Console
  | .host i => ⟨HostRely i, HostGuar i, fun s => s.lock ≠ some i⟩
  | .writer j => ⟨WriterRely j, WriterGuar j, fun s => s.outLock ≠ some j⟩
  | .reader => ⟨ReaderRely, ReaderGuar, fun _ => True⟩

theorem SameHost.refl (s : Console) : SameHost s s := ⟨rfl, fun _ _ => rfl, rfl, rfl, rfl, rfl, rfl, rfl⟩

theorem SameHost.trans (h : SameHost s s') (h' : SameHost s' s'') : SameHost s s'' where
  moving := h'.moving.trans h.moving
  words w hw := (h'.words w (by rwa [h.moving])).trans (h.words w hw)
  inRing := h'.inRing.trans h.inRing
  input := h'.input.trans h.input
  outPos := h'.outPos.trans h.outPos
  entered := h'.entered.trans h.entered
  taken := h'.taken.trans h.taken
  returned := h'.returned.trans h.returned

theorem Grows.refl (s : Console) : Grows s s :=
  ⟨rfl, rfl, List.prefix_rfl, List.prefix_rfl, Nat.le_refl _, Nat.le_refl _⟩

theorem Grows.trans (h : Grows s s') (h' : Grows s' s'') : Grows s s'' :=
  ⟨h'.inStart.trans h.inStart, h'.outStart.trans h.outStart, h.input.trans h'.input, h.output.trans h'.output,
    Nat.le_trans h.inPos h'.inPos, Nat.le_trans h.outPos h'.outPos⟩

theorem HostGuar.refl (h : s.Inv) : HostGuar i s s :=
  ⟨.refl s, h, fun _ _ => Iff.rfl, fun _ _ _ => .refl s, rfl, ⟨rfl, rfl⟩, ⟨rfl⟩⟩

theorem WriterGuar.refl (h : s.Inv) : WriterGuar j s s :=
  ⟨.refl s, h, fun _ _ => Iff.rfl, fun _ _ _ => ⟨rfl, rfl⟩, rfl, .refl s, ⟨rfl⟩⟩

theorem ReaderGuar.refl (h : s.Inv) : ReaderGuar s s := ⟨.refl s, h, rfl, rfl, .refl s, ⟨rfl, rfl⟩⟩

theorem HostRely.trans (h : HostRely i s s') (h' : HostRely i s' s'') : HostRely i s s'' :=
  ⟨h.toGrows.trans h'.toGrows, h'.lock.trans h.lock, fun hl => (h.owned hl).trans (h'.owned (h.lock.mpr hl))⟩

theorem WriterRely.trans (h : WriterRely j s s') (h' : WriterRely j s' s'') : WriterRely j s s'' := by
  refine ⟨h.toGrows.trans h'.toGrows, h'.outLock.trans h.outLock, fun hl => ?_⟩
  obtain ⟨hring, hout⟩ := h.owned hl
  obtain ⟨hring', hout'⟩ := h'.owned (h.outLock.mpr hl)
  exact ⟨hring'.trans hring, hout'.trans hout⟩

theorem ReaderRely.trans (h : ReaderRely s s') (h' : ReaderRely s' s'') : ReaderRely s s'' :=
  ⟨h.toGrows.trans h'.toGrows, ⟨h'.reader.inPos.trans h.reader.inPos⟩⟩

theorem lawful (p : Party) : (contract p).Lawful Inv := by
  cases p with
  | host i =>
    refine ⟨fun s => ⟨.refl s, Iff.rfl, fun _ => .refl s⟩, HostRely.trans, HostGuar.refl, fun _ h => h.inv,
      fun hidle hr _ hl => hidle (hr.lock.mp hl)⟩
  | writer j =>
    refine ⟨fun s => ⟨.refl s, Iff.rfl, fun _ => ⟨rfl, rfl⟩⟩, WriterRely.trans, WriterGuar.refl,
      fun _ h => h.inv, fun hidle hr _ hl => hidle (hr.outLock.mp hl)⟩
  | reader =>
    exact ⟨fun s => ⟨.refl s, ⟨rfl⟩⟩, ReaderRely.trans, ReaderGuar.refl, fun _ h => h.inv, fun _ _ _ => trivial⟩

theorem HostGuar.fits {q : Party} (h : HostGuar i s s') (hq : Party.host i ≠ q) : (contract q).rely s s' := by
  cases q with
  | host j =>
    have hij : j ≠ i := fun hij => hq (congrArg Party.host hij.symm)
    exact ⟨h.toGrows, h.lock j hij, h.owned j hij⟩
  | writer j => exact ⟨h.toGrows, by rw [h.outLock], fun _ => h.writer⟩
  | reader => exact ⟨h.toGrows, h.reader⟩

theorem WriterGuar.fits {q : Party} (h : WriterGuar j s s') (hq : Party.writer j ≠ q) :
    (contract q).rely s s' := by
  cases q with
  | host i => exact ⟨h.toGrows, by rw [h.lock], fun _ => h.host⟩
  | writer k =>
    have hjk : k ≠ j := fun hjk => hq (congrArg Party.writer hjk.symm)
    exact ⟨h.toGrows, h.outLock k hjk, h.owned k hjk⟩
  | reader => exact ⟨h.toGrows, h.reader⟩

theorem ReaderGuar.fits {q : Party} (h : ReaderGuar s s') (hq : Party.reader ≠ q) : (contract q).rely s s' := by
  cases q with
  | host i => exact ⟨h.toGrows, by rw [h.lock], fun _ => h.host⟩
  | writer j => exact ⟨h.toGrows, by rw [h.outLock], fun _ => h.writer⟩
  | reader => exact absurd rfl hq

theorem fits {p q : Party} (hpq : p ≠ q) (h : (contract p).guar s s') : (contract q).rely s s' := by
  cases p with
  | host i => exact HostGuar.fits h hpq
  | writer j => exact WriterGuar.fits h hpq
  | reader => exact ReaderGuar.fits h hpq

theorem and_inMask (n : Nat) : n &&& (consoleInSize - 1) = n % consoleInSize := Nat.and_two_pow_sub_one_eq_mod n 10

theorem and_outMask (n : Nat) : n &&& (consoleOutSize - 1) = n % consoleOutSize :=
  Nat.and_two_pow_sub_one_eq_mod n 12

theorem inCell (p : Nat) : u32 p &&& (consoleInSize - 1) = p % consoleInSize := by
  rw [and_inMask]
  exact Ring.index_cell (by decide) p

theorem outCell (p : Nat) : u32 p &&& (consoleOutSize - 1) = p % consoleOutSize := by
  rw [and_outMask]
  exact Ring.index_cell (by decide) p

theorem u32_lt (n : Nat) : u32 n < 2 ^ 32 := Nat.mod_lt _ (by decide)

theorem value_of_bytes {w : Index} {v : Nat} (hv : v < 2 ^ 32) (h : ∀ k < 4, s.words w k = (Net.word32 v).getD k 0) :
    s.value w = v := by
  rw [value, h 0 (by decide), h 1 (by decide), h 2 (by decide), h 3 (by decide)]
  exact Net.le32_word32 hv []

theorem value_congr {w : Index} (h : s'.words w = s.words w) : s'.value w = s.value w := by
  rw [value, value, h]

end Console

end MoCoLinux
