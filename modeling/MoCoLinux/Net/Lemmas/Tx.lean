import MoCoLinux.Net.Lemmas.Batch
import MoCoLinux.Net.Tx

/-!
# The transmit ring: invariant, contracts and the guest
-/

namespace MoCoLinux.Net

open Threads (Prog Contract)
open Threads.Prog (Safe)

namespace Tx

structure Inv (s : Tx) : Prop where
  window : Ring.Window ringSize s.tx s.start s.tail s.stream
  records : Records s.stream s.placed
  aligned : s.start % 4 = 0
  txHead : s.txHead = u32 s.head
  txTail : s.txTail = u32 s.tail
  handed : s.handed <+: s.placed
  sane : s.corrupt = false

variable {s s' s'' : Tx}

structure BridgeRely (s s' : Tx) : Prop where
  start : s'.start = s.start
  tail : s'.tail = s.tail
  seen : s'.seen = s.seen
  handed : s'.handed = s.handed
  batch : s'.batch = s.batch
  stopped : s'.stopped = s.stopped
  stream : s.stream <+: s'.stream
  placed : s.placed <+: s'.placed

structure GuestGuar (s s' : Tx) : Prop extends BridgeRely s s' where
  inv : s'.Inv

structure BridgeGuar (s s' : Tx) : Prop where
  inv : s'.Inv
  start : s'.start = s.start
  tx : s'.tx = s.tx
  stream : s'.stream = s.stream
  placed : s'.placed = s.placed
  tail : s.tail ≤ s'.tail

structure GuestRely (s s' : Tx) : Prop where
  start : s'.start = s.start
  tx : s'.tx = s.tx
  stream : s'.stream = s.stream
  placed : s'.placed = s.placed
  tail : s.tail ≤ s'.tail

def BridgeIdle (s : Tx) : Prop :=
  s.stopped = true ∨ s.seen = s.tail ∧ s.tail = s.start + recordsBytes s.handed

def contract : Party → Contract Tx
  | .guest => ⟨GuestRely, GuestGuar, fun _ => True⟩
  | .bridge => ⟨BridgeRely, BridgeGuar, BridgeIdle⟩

theorem GuestRely.trans (h : GuestRely s s') (h' : GuestRely s' s'') : GuestRely s s'' :=
  ⟨h'.start.trans h.start, h'.tx.trans h.tx, h'.stream.trans h.stream, h'.placed.trans h.placed,
    Nat.le_trans h.tail h'.tail⟩

theorem BridgeRely.refl (s : Tx) : BridgeRely s s :=
  ⟨rfl, rfl, rfl, rfl, rfl, rfl, List.prefix_rfl, List.prefix_rfl⟩

theorem BridgeRely.trans (h : BridgeRely s s') (h' : BridgeRely s' s'') : BridgeRely s s'' :=
  ⟨h'.start.trans h.start, h'.tail.trans h.tail, h'.seen.trans h.seen, h'.handed.trans h.handed,
    h'.batch.trans h.batch, h'.stopped.trans h.stopped, h.stream.trans h'.stream, h.placed.trans h'.placed⟩

theorem BridgeIdle.stable (h : BridgeIdle s) (hr : BridgeRely s s') : BridgeIdle s' := by
  rw [BridgeIdle, hr.stopped, hr.seen, hr.tail, hr.start, hr.handed]
  exact h

theorem lawful (p : Party) : (contract p).Lawful Inv := by
  cases p with
  | guest =>
    refine ⟨fun _ => ⟨rfl, rfl, rfl, rfl, Nat.le_refl _⟩, GuestRely.trans, fun h => ?_, fun _ h => h.inv,
      fun _ _ _ => trivial⟩
    exact ⟨.refl _, h⟩
  | bridge =>
    refine ⟨BridgeRely.refl, BridgeRely.trans, fun h => ?_, fun _ h => h.inv, fun hidle hr _ => hidle.stable hr⟩
    exact ⟨h, rfl, rfl, rfl, rfl, Nat.le_refl _⟩

theorem fits {p q : Party} (hpq : p ≠ q) (h : (contract p).guar s s') : (contract q).rely s s' := by
  cases p with
  | guest =>
    cases q with
    | guest => exact absurd rfl hpq
    | bridge => exact GuestGuar.toBridgeRely h
  | bridge =>
    cases q with
    | guest =>
      have h : BridgeGuar s s' := h
      exact { h with }
    | bridge => exact absurd rfl hpq

abbrev GuestSafe {α : Type} (Q : α → Tx → Prop) (p : Prog Tx α) (s : Tx) : Prop :=
  p.Safe Inv (contract .guest) (fun _ _ => True) Q s

/-- The guest has written `bytes` behind the head at `h`; `t` is a position of the tail it has read. -/
structure Placing (h t : Nat) (bytes : List UInt8) (s : Tx) : Prop where
  head : s.head = h
  tail : t ≤ s.tail
  room : h + bytes.length ≤ t + ringSize
  written : Ring.slice ringSize s.tx h bytes.length = bytes

variable {h t : Nat} {bytes : List UInt8} {frame : Frame}

theorem Placing.stable (hp : Placing h t bytes s) (hr : GuestRely s s') : Placing h t bytes s' := by
  refine ⟨?_, Nat.le_trans hp.tail hr.tail, hp.room, by rw [hr.tx]; exact hp.written⟩
  rw [Tx.head, hr.start, hr.stream]
  exact hp.head

theorem Placing.update (hp : Placing h t bytes s) (hinv : s.Inv) (hroom : h + bytes.length < t + ringSize)
    (b : UInt8) :
    GuestGuar s { s with tx := Function.update s.tx ((h + bytes.length) % ringSize) b } ∧
    Placing h t (bytes ++ [b]) { s with tx := Function.update s.tx ((h + bytes.length) % ringSize) b } := by
  have htail := hp.tail
  have hhead : s.start + s.stream.length = h := hp.head
  have hbehind := hinv.window.tail_le
  refine ⟨⟨{ BridgeRely.refl s with }, { hinv with window := ?_ }⟩, hp.head, hp.tail, ?_, ?_⟩
  · exact hinv.window.update (by omega) (by omega)
  · rw [List.length_append, List.length_singleton]
    omega
  · rw [List.length_append, List.length_singleton, Ring.slice_update_succ (by omega), hp.written]

theorem storeBytes_safe (bs : List UInt8) : ∀ {off : Nat} {bytes : List UInt8} {s : Tx},
    Placing h t bytes s → (∀ k < bs.length, off + k = (h + bytes.length + k) % ringSize) →
    h + bytes.length + bs.length ≤ t + ringSize →
    GuestSafe (fun _ s => Placing h t (bytes ++ bs) s) (storeBytes off bs) s := by
  induction bs with
  | nil =>
    intro off bytes s hp _ _
    refine Safe.ret (Safe.stays Placing.stable) (fun s hp _ => ?_) hp
    rwa [List.append_nil]
  | cons b bs ih =>
    intro off bytes s hp hoff hroom
    rw [List.length_cons] at hoff hroom
    refine Safe.write (Safe.stays Placing.stable) (fun s hp hinv _ => ?_) hp
    have hcell : off = (h + bytes.length) % ringSize := by simpa using hoff 0 (by omega)
    obtain ⟨hguar, hnext⟩ := hp.update hinv (by omega) b
    rw [← hcell] at hguar hnext
    refine ⟨hguar, ?_⟩
    have hrest := @ih (off + 1) _ _ hnext (fun k hk => ?_) (by simp; omega)
    · simpa using hrest
    · have := hoff (k + 1) (by omega)
      rw [List.length_append, List.length_singleton,
        show h + (bytes.length + 1) + k = h + bytes.length + (k + 1) by omega, ← this]
      omega

theorem storeFrame_safe (hinv : s.Inv) (hp : Placing h t bytes s) (hlen : frame.length ≤ maxFrame)
    (hroom : h + bytes.length + frame.length ≤ t + ringSize) :
    GuestSafe (fun _ s => Placing h t (bytes ++ frame) s)
      (storeFrame ((h + bytes.length) % ringSize) frame) s := by
  have hmax : frame.length ≤ 1514 := hlen
  have hsize : ringSize = 131072 := rfl
  have hlt : (h + bytes.length) % ringSize < ringSize := Nat.mod_lt _ (by decide)
  unfold storeFrame
  dsimp only
  generalize hfirst : min frame.length (ringSize - (h + bytes.length) % ringSize) = first
  have hsplit : first ≤ frame.length ∧ (h + bytes.length) % ringSize + first ≤ ringSize ∧
      (first < frame.length → (h + bytes.length) % ringSize + first = ringSize) := by omega
  have htake : (frame.take first).length = first := List.length_take_of_le hsplit.1
  refine Safe.bind (lawful .guest) hinv ((storeBytes_safe _ hp (fun k hk => ?_) ?_).mono fun _ s _ hQ => ?_)
  · rw [htake] at hk
    exact (Ring.cell_add (by omega)).symm
  · rw [htake]
    omega
  by_cases hwrap : first < frame.length
  · rw [if_pos hwrap]
    refine (storeBytes_safe _ hQ (fun k hk => ?_) ?_).mono fun _ s _ hQ => ?_
    · rw [List.length_drop] at hk
      rw [List.length_append, htake, show h + (bytes.length + first) + k = h + bytes.length + (first + k) by omega,
        Ring.cell_wrap (by omega) (by omega)]
      omega
    · rw [List.length_append, htake, List.length_drop]
      omega
    · rwa [List.append_assoc, List.take_append_drop] at hQ
  · rw [if_neg hwrap]
    have hall : frame.take first = frame := List.take_of_length_le (by omega)
    rw [hall] at hQ
    exact Safe.done Placing.stable hQ

theorem Placing.put (hp : Placing h t bytes s) (hinv : s.Inv) (word : List UInt8)
    (hin : (h + bytes.length) % ringSize + word.length ≤ ringSize)
    (hroom : h + bytes.length + word.length ≤ t + ringSize) :
    GuestGuar s { s with tx := putBytes s.tx ((h + bytes.length) % ringSize) word } ∧
    Placing h t (bytes ++ word) { s with tx := putBytes s.tx ((h + bytes.length) % ringSize) word } := by
  have htail := hp.tail
  have hhead : s.start + s.stream.length = h := hp.head
  have hbehind := hinv.window.tail_le
  have hpos := hp.room
  refine ⟨⟨{ BridgeRely.refl s with }, { hinv with window := ?_ }⟩, hp.head, hp.tail, ?_, ?_⟩
  · exact hinv.window.congr fun q hq hlt => putBytes_cell hin (by omega) (by omega)
  · rw [List.length_append]
    omega
  · rw [List.length_append, Ring.slice_add, slice_eq_bytesAt hin, bytesAt_putBytes]
    congr 1
    refine Eq.trans (Ring.slice_congr _ _ fun k hk => ?_) hp.written
    exact putBytes_cell hin (by omega) (by omega)

theorem Placing.publish (hp : Placing h t (word32 frame.length ++ frame) s) (hinv : s.Inv) (hl : Legal frame)
    (hroom : h + recordBytes frame.length ≤ t + ringSize) :
    GuestGuar s { s with
      txHead := u32 (u32 h + recordBytes frame.length)
      stream := s.stream ++ Ring.slice ringSize s.tx s.head (recordBytes frame.length)
      placed := s.placed ++ [frame] } := by
  have htail := hp.tail
  have hhead : s.start + s.stream.length = h := hp.head
  have hrec := hl.record_bounds
  have hlen : (word32 frame.length ++ frame).length = 4 + frame.length := by
    rw [List.length_append, length_word32]
  have hwindow := hinv.window.publish (n := recordBytes frame.length) (by omega)
  have hrecord : Records (Ring.slice ringSize s.tx s.head (recordBytes frame.length)) [frame] := by
    have hsplit : recordBytes frame.length = (word32 frame.length ++ frame).length +
        (recordBytes frame.length - (4 + frame.length)) := by omega
    rw [hp.head, hsplit, Ring.slice_add, hp.written]
    refine .singleton hl ?_
    rw [Ring.length_slice]
    omega
  refine ⟨⟨rfl, rfl, rfl, rfl, rfl, rfl, List.prefix_append _ _, List.prefix_append _ _⟩,
    ⟨hwindow, hinv.records.append hrecord, hinv.aligned, ?_, hinv.txTail, ?_, hinv.sane⟩⟩
  · simp only [u32_add, Tx.head, List.length_append, Ring.length_slice]
    rw [← Nat.add_assoc, hhead]
  · exact hinv.handed.trans (List.prefix_append _ _)

theorem xmit_safe (hl : Legal frame) : GuestSafe (fun _ _ => True) (xmit frame) s := by
  have hdone : ∀ s, GuestSafe (fun _ _ => True) (pure ()) s := fun _ _ _ _ => trivial
  refine Safe.read (lawful .guest) Safe.always (fun s _ hinv => ?_) trivial
  rw [hinv.txHead]
  refine Safe.read (lawful .guest) (P := fun s' => s'.head = s.head)
    (fun heq hr _ => by rw [Tx.head, hr.start, hr.stream]; exact heq) (fun s' heq hinv => ?_) rfl
  generalize s.head = h at heq
  have hle : s'.tail ≤ h := heq ▸ hinv.window.tail_le
  have hfit : h ≤ s'.tail + ringSize := heq ▸ hinv.window.fits
  have hmax : frame.length ≤ 1514 := hl.2
  have hrec := hl.record_bounds
  have hsize : ringSize = 131072 := rfl
  have halign : h % 4 = 0 := by
    have hstart := hinv.aligned
    have hstream := hinv.records.aligned
    rw [← heq, Tx.head]
    omega
  have hp : Placing h s'.tail [] s' := ⟨heq, Nat.le_refl _, hfit, rfl⟩
  rw [hinv.txTail, if_neg (Nat.not_lt.mpr hl.2), u32Sub_u32 hle (by omega),
    u32_of_lt (by omega : h - s'.tail + recordBytes frame.length < 2 ^ 32)]
  generalize s'.tail = t at hp hle hfit
  split
  · exact hdone s'
  next hroom =>
  have hoff : u32 h &&& (ringSize - 1) = (h + ([] : List UInt8).length) % ringSize := by
    rw [and_ringMask, u32, Ring.index_cell (by decide)]
    rfl
  have hcell : (h + ([] : List UInt8).length) % ringSize % 4 = 0 := by
    rw [Nat.mod_mod_of_dvd _ (by decide : 4 ∣ ringSize)]
    exact halign
  have hlt : (h + ([] : List UInt8).length) % ringSize < ringSize := Nat.mod_lt _ (by decide)
  have hnext : (u32 h &&& (ringSize - 1)) + 4 &&& (ringSize - 1) =
      (h + (word32 frame.length).length) % ringSize := by
    rw [hoff, and_ringMask, Nat.mod_add_mod, length_word32]
    rfl
  rw [hnext, hoff]
  refine Safe.write (P := Placing h t []) (fun hp hr _ => hp.stable hr) (fun s hp hinv _ => ?_) hp
  obtain ⟨hguar, hp⟩ := hp.put hinv (word32 frame.length) (by rw [length_word32]; omega)
    (by rw [length_word32, List.length_nil]; omega)
  refine ⟨hguar, ?_⟩
  rw [List.nil_append] at hp
  refine Safe.bind (lawful .guest) hguar.inv ((storeFrame_safe hguar.inv hp hl.2
    (by rw [length_word32]; omega)).mono fun _ s _ hp => ?_)
  refine Safe.writeLast (Safe.stays Placing.stable)
    (fun s hp hinv _ => ?_) hp
  exact ⟨hp.publish hinv hl (by omega), fun _ _ _ => trivial⟩

end Tx

end MoCoLinux.Net
