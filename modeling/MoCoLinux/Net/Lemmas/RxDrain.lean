import Mathlib.Data.List.Forall2
import MoCoLinux.Net.Lemmas.Rx

/-!
# The receive ring: the guest
-/

namespace MoCoLinux.Net

open Threads (Prog)
open Threads.Prog (Safe)

namespace Rx

variable {s s' : Rx} {h p : Nat} {frame : Frame}

/-- A pass that saw the head at `h` and has consumed the records up to `p`. -/
structure Draining (h p : Nat) (s : Rx) : Prop where
  seen : s.seen = h
  tail : s.tail ≤ p
  pos : p = s.start + recordsBytes (s.published.take s.extracted.length)
  bound : ∃ k, s.extracted.length ≤ k ∧ k ≤ s.published.length ∧ h = s.start + recordsBytes (s.published.take k)

theorem Draining.stable (hd : Draining h p s) (hr : GuestRely s s') : Draining h p s' := by
  obtain ⟨k, hle, hk, hh⟩ := hd.bound
  refine ⟨hr.seen.trans hd.seen, hr.tail ▸ hd.tail, ?_, k, ?_, ?_, ?_⟩
  · rw [hr.start, hr.extracted, hr.take_published (by omega)]
    exact hd.pos
  · rw [hr.extracted]
    exact hle
  · exact Nat.le_trans hk hr.published.length_le
  · rw [hr.start, hr.take_published hk]
    exact hh

theorem Draining.pos_le (hd : Draining h p s) : p ≤ h := by
  obtain ⟨k, hle, -, hh⟩ := hd.bound
  rw [hh, hd.pos]
  exact Nat.add_le_add_left (recordsBytes_take_le hle _) _

theorem Draining.le_head (hd : Draining h p s) (hinv : s.Inv) : h ≤ s.head := by
  obtain ⟨k, -, hk, hh⟩ := hd.bound
  rw [hh, Rx.head, hinv.records.length]
  have htotal := recordsBytes_take_le hk s.published
  rw [List.take_length] at htotal
  exact Nat.add_le_add_left htotal _

theorem Draining.lap (hd : Draining h p s) (hinv : s.Inv) : h ≤ p + ringSize := by
  have hle := hd.le_head hinv
  have hfit : s.head ≤ s.tail + ringSize := hinv.window.fits
  have htail := hd.tail
  omega

structure Reading (h p : Nat) (frame : Frame) (s : Rx) : Prop extends Draining h p s where
  lt : p < h
  frame : s.published[s.extracted.length]? = some frame

theorem Reading.stable (hd : Reading h p frame s) (hr : GuestRely s s') : Reading h p frame s' := by
  refine ⟨hd.toDraining.stable hr, hd.lt, ?_⟩
  obtain ⟨rest, hrest⟩ := hr.published
  have hlt : s.extracted.length < s.published.length := (List.getElem?_eq_some_iff.mp hd.frame).1
  rw [hr.extracted, ← hrest, List.getElem?_append_left hlt]
  exact hd.frame

theorem Draining.reading (hd : Draining h p s) (hlt : p < h) : ∃ frame, Reading h p frame s := by
  obtain ⟨k, hle, hk, hh⟩ := hd.bound
  have hne : s.extracted.length ≠ k := by
    intro heq
    rw [← heq, ← hd.pos] at hh
    omega
  exact ⟨_, hd, hlt, List.getElem?_eq_getElem (by omega)⟩

structure Found (h p : Nat) (frame : Frame) (s : Rx) : Prop where
  legal : Legal frame
  aligned : p % 4 = 0
  inside : p + recordBytes frame.length ≤ h
  word : le32 (Ring.slice ringSize s.rx p 4) = frame.length
  bytes : Ring.slice ringSize s.rx (p + 4) frame.length = frame

theorem Reading.found (hd : Reading h p frame s) (hinv : s.Inv) : Found h p frame s := by
  obtain ⟨k, hle, hk, hh⟩ := hd.bound
  have hpos := hd.pos
  have htail := hd.tail
  have hlt : s.extracted.length < s.published.length := (List.getElem?_eq_some_iff.mp hd.frame).1
  have hrest := hinv.records.drop s.extracted.length
  rw [List.drop_eq_getElem_cons hlt, (List.getElem?_eq_some_iff.mp hd.frame).2] at hrest
  obtain ⟨hlegal, hword, hbytes, hlen, -⟩ := hrest.first
  have hrec := hlegal.record_bounds
  rw [List.length_drop] at hlen
  have hnext := recordsBytes_take_succ hd.frame
  have hstart := hinv.window.start_le
  have hoffset : p - s.start = recordsBytes (s.published.take s.extracted.length) := by omega
  have hread : ∀ m n, m + n ≤ recordBytes frame.length → Ring.slice ringSize s.rx (p + m) n =
      ((s.stream.drop (recordsBytes (s.published.take s.extracted.length))).drop m).take n := by
    intro m n hmn
    rw [hinv.window.read (by omega) (by omega), List.drop_drop, show p + m - s.start = p - s.start + m by omega,
      hoffset]
  refine ⟨hlegal, ?_, ?_, ?_, ?_⟩
  · have hal := hinv.aligned
    have hfront := recordsBytes_mod (s.published.take s.extracted.length)
      fun f hf => hinv.records.legal f (List.mem_of_mem_take hf)
    omega
  · have hk' : s.extracted.length + 1 ≤ k := by
      rcases Nat.lt_or_eq_of_le hle with hlt | heq
      · exact hlt
      · have := hd.lt
        rw [← heq] at hh
        omega
    have := recordsBytes_take_le hk' s.published
    omega
  · have h0 := hread 0 4 (by omega)
    rw [Nat.add_zero, List.drop_zero] at h0
    rw [h0, le32_take, hword]
  · rw [hread 4 frame.length (by omega)]
    exact hbytes

abbrev GuestSafe {α : Type} (Q : α → Rx → Prop) (p : Prog Rx α) (s : Rx) : Prop :=
  p.Safe Inv (contract .guest) (fun _ _ => True) Q s

theorem copyOut_safe (n : Nat) : ∀ {off m : Nat} {s : Rx}, s.Inv → Reading h p frame s →
    (∀ k < n, off + k = (p + 4 + m + k) % ringSize) → m + n ≤ frame.length →
    GuestSafe (fun bytes s => bytes = (frame.drop m).take n ∧ Reading h p frame s) (copyOut off n) s := by
  induction n with
  | zero =>
    intro off m s _ hd _ _
    exact Safe.ret (Safe.stays Reading.stable) (fun s hd _ => ⟨rfl, hd⟩) hd
  | succ n ih =>
    intro off m s _ hd hoff hle
    refine Safe.read (lawful .guest) (Safe.stays Reading.stable)
      (fun s hd hinv => ?_) hd
    have hcell : off = (p + 4 + m) % ringSize := by simpa using hoff 0 (by omega)
    have hbyte : [s.rx off] = (frame.drop m).take 1 := by
      have hslice : (Ring.slice ringSize s.rx (p + 4 + m) (frame.length - m)).take 1 =
          Ring.slice ringSize s.rx (p + 4 + m) 1 := Ring.take_slice (by omega) _
      rw [← Ring.drop_slice (by omega), (hd.found hinv).bytes] at hslice
      rw [hslice, hcell]
      rfl
    refine Safe.bind (lawful .guest) hinv ((@ih (off + 1) (m + 1) s hinv hd (fun k hk => ?_) (by omega)).mono
      fun bytes s _ hQ => ?_)
    · have := hoff (k + 1) (by omega)
      rw [show p + 4 + (m + 1) + k = p + 4 + m + (k + 1) by omega, ← this]
      omega
    · obtain ⟨rfl, hd⟩ := hQ
      refine Safe.ret (Safe.stays Reading.stable) (fun s hd _ => ⟨?_, hd⟩) hd
      rw [Nat.add_comm n 1, List.take_add, ← hbyte, List.drop_drop]
      rfl

theorem Reading.consume {o : Option Frame} {dropped : Nat} (hd : Reading h p frame s) (hinv : s.Inv)
    (ho : Took frame o) (hdrop : dropped = s.rxDropped + [o].count none) :
    GuestGuar s { s with rxDropped := dropped, extracted := s.extracted ++ [o] } ∧
    Draining h (p + recordBytes frame.length) { s with rxDropped := dropped, extracted := s.extracted ++ [o] } := by
  have hfound := hd.found hinv
  have htail := hd.tail
  obtain ⟨k, hle, hk, hh⟩ := hd.bound
  have hlt : s.extracted.length < s.published.length := (List.getElem?_eq_some_iff.mp hd.frame).1
  have hlen : (s.extracted ++ [o]).length = s.extracted.length + 1 := by simp
  have htake : s.published.take (s.extracted.length + 1) = s.published.take s.extracted.length ++ [frame] := by
    rw [List.take_add_one, hd.frame]
    rfl
  refine ⟨⟨{ hinv with took := ?_, count := ?_, dropped := ?_ }, rfl, Nat.le_refl _, rfl, rfl, rfl, rfl, rfl, rfl,
    rfl⟩, hd.seen, ?_, ?_, k, ?_, hk, hh⟩
  · rw [hlen, htake]
    exact List.rel_append hinv.took (.cons ho .nil)
  · rw [hlen]
    exact hlt
  · rw [List.count_append, ← hinv.dropped, hdrop]
  · exact Nat.le_trans htail (Nat.le_add_right _ _)
  · rw [hlen, recordsBytes_take_succ hd.frame, ← Nat.add_assoc, ← hd.pos]
  · rw [hlen]
    rcases Nat.lt_or_eq_of_le hle with hlt | heq
    · exact hlt
    · have := hd.lt
      have hpos := hd.pos
      rw [← heq] at hh
      omega

theorem copyFrame_safe (hinv : s.Inv) (hd : Reading h p frame s) :
    GuestSafe (fun copy s => copy = frame ∧ Reading h p frame s) (copyFrame ((p + 4) % ringSize) frame.length) s := by
  have hmax : frame.length ≤ 1514 := (hd.found hinv).legal.2
  have hsize : ringSize = 131072 := rfl
  have hlt : (p + 4) % ringSize < ringSize := Nat.mod_lt _ (by decide)
  unfold copyFrame
  dsimp only
  generalize hfirst : min frame.length (ringSize - (p + 4) % ringSize) = first
  have hsplit : first ≤ frame.length ∧ (p + 4) % ringSize + first ≤ ringSize ∧
      (first < frame.length → (p + 4) % ringSize + first = ringSize) := by omega
  refine Safe.bind (lawful .guest) hinv ((copyOut_safe first (m := 0) hinv hd (fun k hk => ?_)
    (by omega)).mono fun front s hinv hQ => ?_)
  · exact (Ring.cell_add (by omega)).symm
  obtain ⟨rfl, hd⟩ := hQ
  rw [List.drop_zero]
  by_cases hwrap : first < frame.length
  · rw [if_pos hwrap]
    refine Safe.bind (lawful .guest) hinv ((copyOut_safe (frame.length - first) (m := first) hinv hd
      (fun k hk => ?_) (by omega)).mono fun back s _ hQ => ?_)
    · rw [Nat.add_assoc (p + 4), Ring.cell_wrap (by omega) (by omega)]
      omega
    · obtain ⟨rfl, hd⟩ := hQ
      refine Safe.ret (Safe.stays Reading.stable) (fun s hd _ => ⟨?_, hd⟩) hd
      rw [List.take_of_length_le (List.length_drop.le), List.take_append_drop]
  · rw [if_neg hwrap]
    refine Safe.ret (Safe.stays Reading.stable) (fun s hd _ => ⟨?_, hd⟩) hd
    exact List.take_of_length_le (by omega)

theorem drainFrame_safe (hinv : s.Inv) (hd : Reading h p frame s) :
    GuestSafe (fun _ s => Draining h (p + recordBytes frame.length) s)
      (drainFrame ((p + 4) % ringSize) frame.length) s := by
  refine Safe.pick fun skb => ?_
  by_cases hskb : skb = 0
  · rw [if_pos hskb]
    refine Safe.writeLast (Safe.stays Reading.stable) (fun s hd hinv _ => ?_) hd
    obtain ⟨hguar, hnext⟩ := hd.consume (o := none) hinv (.inl rfl) rfl
    exact ⟨hguar, fun s' hr _ => hnext.stable hr⟩
  · rw [if_neg hskb]
    refine Safe.bind (lawful .guest) hinv ((copyFrame_safe hinv hd).mono fun copy s hinv hQ => ?_)
    obtain ⟨rfl, hd⟩ := hQ
    refine Safe.writeLast (Safe.stays Reading.stable) (fun s hd hinv _ => ?_) hd
    have hcount : s.rxDropped = s.rxDropped + [some copy].count none := by simp
    obtain ⟨hguar, hnext⟩ := hd.consume hinv (.inr rfl) hcount
    exact ⟨hguar, fun s' hr _ => hnext.stable hr⟩

theorem drainLoop_safe (fuel : Nat) : ∀ {p : Nat} {s : Rx}, s.Inv → Draining h p s → h - p ≤ fuel →
    GuestSafe (fun tail s => tail = u32 h ∧ Draining h h s) (drainLoop (u32 h) fuel (u32 p)) s := by
  induction fuel with
  | zero =>
    intro p s _ hd hfuel
    have heq : p = h := Nat.le_antisymm hd.pos_le (by omega)
    subst heq
    exact Safe.ret (Safe.stays Draining.stable) (fun s hd _ => ⟨rfl, hd⟩) hd
  | succ fuel ih =>
    intro p s hinv hd hfuel
    have hle := hd.pos_le
    have hlap := hd.lap hinv
    have hsize : ringSize = 131072 := rfl
    rw [drainLoop]
    by_cases hend : u32 p = u32 h
    · rw [if_pos hend]
      have heq : h = p := Ring.index_inj hle (by omega) hend.symm
      subst heq
      exact Safe.ret (Safe.stays Draining.stable) (fun s hd _ => ⟨rfl, hd⟩) hd
    · rw [if_neg hend]
      have hlt : p < h := Nat.lt_of_le_of_ne hle fun heq => hend (by rw [heq])
      obtain ⟨frame, hd⟩ := hd.reading hlt
      refine Safe.read (lawful .guest) (Safe.stays Reading.stable)
        (fun s hd hinv => ?_) hd
      have hfound := hd.found hinv
      have hrec := hfound.legal.record_bounds
      have hinside := hfound.inside
      have hal := hfound.aligned
      have hoff : u32 p &&& (ringSize - 1) = p % ringSize := by rw [and_ringMask, u32, Ring.index_cell (by decide)]
      have hword : le32 (bytesAt s.rx (u32 p &&& (ringSize - 1)) 4) = frame.length := by
        have hcell : p % ringSize % 4 = 0 := by rwa [Nat.mod_mod_of_dvd _ (by decide : 4 ∣ ringSize)]
        have hin : p % ringSize < ringSize := Nat.mod_lt _ (by decide)
        rw [hoff, ← slice_eq_bytesAt (by omega), hfound.word]
      have hnext : (u32 p &&& (ringSize - 1)) + 4 &&& (ringSize - 1) = (p + 4) % ringSize := by
        rw [hoff, and_ringMask, Nat.mod_add_mod]
      rw [hword, hnext, u32Sub_u32 hle (by omega), if_neg]
      · refine Safe.bind (lawful .guest) hinv ((drainFrame_safe hinv hd).mono fun _ s hinv hd => ?_)
        rw [u32_add]
        exact ih hinv hd (by omega)
      · have hpos := hfound.legal.1
        have hmax := hfound.legal.2
        omega

theorem readHead_safe (hidle : GuestIdle s) :
    GuestSafe (fun head s => ∃ h, head = u32 h ∧ Draining h s.tail s) readHead s := by
  refine Safe.act (P := GuestIdle) (fun hidle hr hinv => (lawful .guest).idle hidle hr hinv)
    (fun s b t hidle hinv hf _ => ?_) hidle
  simp only [Option.some.injEq, Prod.mk.injEq] at hf
  obtain ⟨rfl, rfl⟩ := hf
  have hinv' : Inv { s with seen := s.head } :=
    { hinv with }
  have hd : Draining s.head s.tail { s with seen := s.head } := by
    refine ⟨rfl, Nat.le_refl _, hidle.tail, s.published.length, hidle.count, Nat.le_refl _, ?_⟩
    rw [List.take_length, Rx.head, hinv.records.length]
  refine ⟨⟨hinv', rfl, Nat.le_refl _, rfl, rfl, rfl, rfl, rfl, rfl, rfl⟩, fun s' hr _ => ?_⟩
  refine ⟨s.head, hinv.rxHead, ?_⟩
  rw [hr.tail]
  exact hd.stable hr

theorem Draining.finish (hd : Draining h h s) (hinv : s.Inv) :
    GuestGuar s { s with rxTail := u32 h, tail := s.tail + u32Sub (u32 h) s.rxTail } ∧
    GuestIdle { s with rxTail := u32 h, tail := s.tail + u32Sub (u32 h) s.rxTail } := by
  have htail := hd.tail
  have hhead := hd.le_head hinv
  have hfit : s.head ≤ s.tail + ringSize := hinv.window.fits
  have hsize : ringSize = 131072 := rfl
  have hmove : s.tail + u32Sub (u32 h) s.rxTail = h := by
    rw [hinv.rxTail, u32Sub_u32 htail (by omega)]
    omega
  rw [hmove]
  refine ⟨⟨{ hinv with window := hinv.window.release htail hhead, rxTail := rfl }, rfl, htail, rfl, rfl, rfl, rfl,
    rfl, rfl, rfl⟩, hd.seen, hinv.count,
    hd.pos⟩

theorem drain_safe (hinv : s.Inv) (hidle : GuestIdle s) : GuestSafe (fun _ s => GuestIdle s) drain s := by
  unfold drain
  refine Safe.bind (lawful .guest) hinv ((readHead_safe hidle).mono fun head s hinv hQ => ?_)
  obtain ⟨h, rfl, hd⟩ := hQ
  refine Safe.read (lawful .guest) (P := fun s => Draining h s.tail s)
    (fun hd hr _ => by rw [hr.tail]; exact hd.stable hr) (fun s hd hinv => ?_) hd
  have hlap := hd.lap hinv
  have hsize : ringSize = 131072 := rfl
  rw [hinv.rxTail, u32Sub_u32 hd.pos_le (by omega)]
  refine Safe.bind (lawful .guest) hinv ((drainLoop_safe _ hinv hd (Nat.le_refl _)).mono fun tail s hinv hQ => ?_)
  obtain ⟨rfl, hd⟩ := hQ
  refine Safe.writeLast (Safe.stays Draining.stable) (fun s hd hinv _ => ?_) hd
  obtain ⟨hguar, hidle⟩ := hd.finish hinv
  exact ⟨hguar, fun s' hr hinv => (lawful .guest).idle hidle hr hinv⟩

end Rx

end MoCoLinux.Net
