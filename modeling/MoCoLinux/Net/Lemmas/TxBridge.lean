import MoCoLinux.Net.Lemmas.Tx

/-!
# The transmit ring: the bridge

A turn fixes the bytes `Y` between tail and head and the frames `F` in them. The fetch copies `Y`, the walk hands
over `F`, and the take moves the tail behind them, whatever the guest adds meanwhile.
-/

namespace MoCoLinux.Net

open Threads (Prog)
open Threads.Prog (Safe)

namespace Tx

variable {s s' : Tx} {t : Nat} {Y : List UInt8} {H F : List Frame} {j u : Nat} {b : Batch}

/-- A turn that began at tail `t` with `H` handed over, found `Y` and `F`, and has handed over `j` frames of `F`. -/
structure Turn (t : Nat) (Y : List UInt8) (H F : List Frame) (j u : Nat) (b : Batch) (s : Tx) : Prop where
  running : s.stopped = false
  tail : s.tail = t
  pos : t = s.start + recordsBytes H
  stream : Y <+: s.stream.drop (t - s.start)
  placed : H ++ F <+: s.placed
  handed : s.handed = H ++ F.take j
  seen : s.seen = u
  batch : s.batch = b

theorem Turn.stable (ht : Turn t Y H F j u b s) (hr : BridgeRely s s') : Turn t Y H F j u b s' := by
  refine ⟨hr.stopped.trans ht.running, hr.tail.trans ht.tail, ?_, ?_, ht.placed.trans hr.placed,
    hr.handed.trans ht.handed, hr.seen.trans ht.seen, hr.batch.trans ht.batch⟩
  · rw [hr.start]
    exact ht.pos
  · rw [hr.start]
    obtain ⟨rest, hrest⟩ := hr.stream
    rw [← hrest, List.drop_append]
    exact ht.stream.trans (List.prefix_append _ _)

theorem Turn.read (ht : Turn t Y H F j u b s) (hinv : s.Inv) {m n : Nat} (hmn : m + n ≤ Y.length) :
    Ring.slice ringSize s.tx (t + m) n = (Y.drop m).take n := by
  obtain ⟨rest, hrest⟩ := ht.stream
  have hlen := congrArg List.length hrest
  rw [List.length_append, List.length_drop] at hlen
  have hpos := ht.pos
  have htail := ht.tail
  have hbound := hinv.window.tail_le
  rw [hinv.window.read (by omega) (by omega), show t + m - s.start = t - s.start + m by omega, ← List.drop_drop,
    ← hrest, List.drop_append_of_le_length (by omega), List.take_append_of_le_length (by simp; omega)]

theorem Turn.le_head (ht : Turn t Y H F j u b s) (hinv : s.Inv) : t + Y.length ≤ s.head := by
  have hlen := ht.stream.length_le
  have hpos := ht.pos
  have htail := ht.tail
  have hbound := hinv.window.tail_le
  rw [List.length_drop] at hlen
  rw [Tx.head]
  omega

abbrev BridgeSafe {α : Type} (Q : α → Tx → Prop) (p : Prog Tx α) (s : Tx) : Prop :=
  p.Safe Inv (contract .bridge) (fun _ _ => True) Q s

theorem BridgeSafe.pure {α : Type} {a : α} {Q : α → Tx → Prop} (ht : Turn t Y H F j u b s)
    (hQ : ∀ s, Turn t Y H F j u b s → Q a s) : BridgeSafe Q (pure a) s :=
  Safe.ret (Safe.stays Turn.stable) (fun s ht _ => hQ s ht) ht

/-! ## The fetch -/

def Copied (t : Nat) (Y : List UInt8) (m : Nat) (ring : Nat → UInt8) : Prop :=
  Ring.slice ringSize ring t m = Y.take m

theorem dumpBytes_safe (hY : Y.length ≤ ringSize) (n : Nat) : ∀ {off m : Nat} {ring : Nat → UInt8} {s : Tx},
    Turn t Y H F j u b s → (∀ k < n, off + k = (t + m + k) % ringSize) → m + n ≤ Y.length → Copied t Y m ring →
    BridgeSafe (fun r s => Turn t Y H F j u b s ∧ ∀ ring, r = some ring → Copied t Y (m + n) ring)
      (dumpBytes off off n ring) s := by
  induction n with
  | zero =>
    intro off m ring s ht _ _ hc
    refine BridgeSafe.pure ht fun s ht => ⟨ht, ?_⟩
    rintro _ ⟨⟩
    exact hc
  | succ n ih =>
    intro off m ring s ht hoff hle hc
    refine Safe.pick fun works => ?_
    by_cases hw : works = 0
    · rw [if_pos hw]
      exact BridgeSafe.pure ht fun s ht => ⟨ht, by simp⟩
    · rw [if_neg hw]
      refine Safe.read (lawful .bridge) (Safe.stays Turn.stable)
        (fun s ht hinv => ?_) ht
      have hcell : off = (t + m) % ringSize := by simpa using hoff 0 (by omega)
      have hbyte : [s.tx off] = (Y.drop m).take 1 := by
        rw [← ht.read hinv (by omega), hcell]
        rfl
      have hcopied : Copied t Y (m + 1) (Function.update ring off (s.tx off)) := by
        rw [Copied, hcell, Ring.slice_update_succ (by omega), hc, List.take_add, ← hbyte, hcell]
      have hrest := @ih (off + 1) (m + 1) _ s ht (fun k hk => ?_) (by omega) hcopied
      · rwa [show m + 1 + n = m + (n + 1) by omega] at hrest
      · have := hoff (k + 1) (by omega)
        rw [show t + (m + 1) + k = t + m + (k + 1) by omega, ← this]
        omega

variable {ring : Nat → UInt8}

theorem dump_safe (hY : Y.length ≤ ringSize) {m n : Nat}
    (ht : Turn t Y H F j u b s) (hmn : m + n ≤ Y.length) (hin : (t + m) % ringSize + n ≤ ringSize)
    (hc : Copied t Y m ring) :
    BridgeSafe (fun r s => Turn t Y H F j u b s ∧ ∀ d, r = some d → d.size = n ∧ Copied t Y (m + n) d.ring)
      (dump (u32 (t + m)) n ((t + m) % ringSize) ring) s := by
  refine Safe.pick fun works => ?_
  by_cases hw : works = 0
  · rw [if_pos hw]
    exact BridgeSafe.pure ht fun s ht => ⟨ht, by simp⟩
  rw [if_neg hw]
  refine Safe.read (lawful .bridge) (Safe.stays Turn.stable)
    (fun s ht hinv => ?_) ht
  refine Safe.read (lawful .bridge) (Safe.stays Turn.stable)
    (fun s ht hinv => ?_) ht
  have hwant : (if ringSize < n then ringSize else n) = n := if_neg (by omega)
  have hoff : u32 (t + m) &&& (ringSize - 1) = (t + m) % ringSize := by
    rw [and_ringMask, u32, Ring.index_cell (by decide)]
  have hfirst : (if n < ringSize - (t + m) % ringSize then n else ringSize - (t + m) % ringSize) = n := by
    split <;> omega
  simp only [hwant, hoff, hfirst, Nat.lt_irrefl, if_false]
  refine Safe.bind (lawful .bridge) hinv ((dumpBytes_safe hY n ht (fun k hk => ?_) hmn hc).mono fun r s hinv hQ => ?_)
  · exact (Ring.cell_add (by omega)).symm
  obtain ⟨ht, hring⟩ := hQ
  cases r with
  | none => exact BridgeSafe.pure ht fun s ht => ⟨ht, by simp⟩
  | some ring =>
    refine BridgeSafe.pure ht fun s ht => ⟨ht, ?_⟩
    rintro d ⟨⟩
    exact ⟨rfl, hring ring rfl⟩

theorem fetchLoop_safe (hY : Y.length ≤ ringSize) (fuel : Nat) : ∀ {m : Nat} {ring : Nat → UInt8} {s : Tx}, s.Inv →
    Turn t Y H F j u b s → m ≤ Y.length → Y.length ≤ m + fuel → Copied t Y m ring →
    BridgeSafe (fun r s => Turn t Y H F j u b s ∧ ∀ ring, r = some ring → Copied t Y Y.length ring)
      (fetchLoop (u32 t) Y.length fuel m ring) s := by
  induction fuel with
  | zero =>
    intro m ring s _ ht hle hfuel hc
    have heq : m = Y.length := by omega
    subst heq
    refine BridgeSafe.pure ht fun s ht => ⟨ht, ?_⟩
    rintro _ ⟨⟩
    exact hc
  | succ fuel ih =>
    intro m ring s hinv ht hle hfuel hc
    rw [fetchLoop]
    by_cases hlt : m < Y.length
    · rw [if_pos hlt, u32_add]
      have hoff : u32 (t + m) &&& (ringSize - 1) = (t + m) % ringSize := by
        rw [and_ringMask, u32, Ring.index_cell (by decide)]
      have hcell : (t + m) % ringSize < ringSize := Nat.mod_lt _ (by decide)
      dsimp only
      rw [hoff]
      have hwant : fetchWant (Y.length - m) ((t + m) % ringSize) ≤ Y.length - m ∧
          (t + m) % ringSize + fetchWant (Y.length - m) ((t + m) % ringSize) ≤ ringSize ∧
          0 < fetchWant (Y.length - m) ((t + m) % ringSize) := by
        unfold fetchWant
        omega
      generalize fetchWant (Y.length - m) ((t + m) % ringSize) = n at hwant
      refine Safe.bind (lawful .bridge) hinv ((dump_safe hY ht (by omega) hwant.2.1 hc).mono
        fun r s hinv hQ => ?_)
      obtain ⟨ht, hd⟩ := hQ
      cases r with
      | none => exact BridgeSafe.pure ht fun s ht => ⟨ht, by simp⟩
      | some d =>
        obtain ⟨hsize, hring⟩ := hd d rfl
        dsimp only
        rw [hsize, if_neg (by omega)]
        exact ih hinv ht (by omega) (by omega) hring
    · rw [if_neg hlt]
      have heq : m = Y.length := by omega
      subst heq
      refine BridgeSafe.pure ht fun s ht => ⟨ht, ?_⟩
      rintro _ ⟨⟩
      exact hc

structure Begun (H : List Frame) (b : Batch) (s : Tx) : Prop where
  running : s.stopped = false
  pos : s.tail = s.start + recordsBytes H
  handed : s.handed = H
  seen : s.seen = s.tail
  batch : s.batch = b

theorem Begun.stable (hb : Begun H b s) (hr : BridgeRely s s') : Begun H b s' := by
  refine ⟨hr.stopped.trans hb.running, ?_, hr.handed.trans hb.handed, ?_, hr.batch.trans hb.batch⟩
  · rw [hr.tail, hr.start]
    exact hb.pos
  · rw [hr.seen, hr.tail]
    exact hb.seen

theorem Begun.idle (hb : Begun H b s) : BridgeIdle s := by
  refine .inr ⟨hb.seen, ?_⟩
  rw [hb.handed]
  exact hb.pos

theorem Turn.idle (ht : Turn t Y H F 0 t b s) : BridgeIdle s := by
  refine .inr ⟨ht.seen.trans ht.tail.symm, ?_⟩
  rw [ht.tail, ht.handed, List.take_zero, List.append_nil]
  exact ht.pos

structure Batched (t : Nat) (Y : List UInt8) (F : List Frame) : Prop where
  records : Records Y F
  aligned : t % 4 = 0
  size : Y.length ≤ ringSize

theorem Begun.turn (hb : Begun H b s) (hinv : s.Inv) :
    ∃ Y F, s.tail + Y.length = s.head ∧ Batched s.tail Y F ∧ Turn s.tail Y H F 0 s.tail b s := by
  have hpos := hb.pos
  have hfits := hinv.window.fits
  have hbound := hinv.window.tail_le
  obtain ⟨F, hF⟩ := hinv.handed
  rw [hb.handed] at hF
  have hlegal : ∀ f ∈ H, Legal f := fun f hf => hinv.records.legal f (hF ▸ List.mem_append_left F hf)
  have hrecords := hinv.records.drop H.length
  rw [← hF, List.take_left, List.drop_left] at hrecords
  have hoffset : s.tail - s.start = recordsBytes H := by omega
  refine ⟨s.stream.drop (recordsBytes H), F, ?_, ⟨hrecords, ?_, ?_⟩, hb.running, rfl, hb.pos, ?_, ?_, ?_, hb.seen,
    hb.batch⟩
  · rw [List.length_drop, Tx.head]
    omega
  · have hal := hinv.aligned
    have hmod := recordsBytes_mod H hlegal
    omega
  · rw [List.length_drop]
    omega
  · exact ⟨[], by rw [List.append_nil, hoffset]⟩
  · exact ⟨[], by rw [List.append_nil, hF]⟩
  · rw [List.take_zero, List.append_nil]
    exact hb.handed

def Fetched (H : List Frame) (b : Batch) (r : Option (Nat × Nat × (Nat → UInt8))) (s : Tx) : Prop :=
  match r with
  | none => BridgeIdle s
  | some (head, tail, ring) => ∃ t Y F, head = u32 (t + Y.length) ∧ tail = u32 t ∧ Batched t Y F ∧
      Copied t Y Y.length ring ∧ Turn t Y H F 0 t b s

theorem firstDump_safe (hb : Begun H b s) :
    BridgeSafe (fun r s => match r with
      | none => BridgeIdle s
      | some d => ∃ t Y F, d.head = u32 (t + Y.length) ∧ d.tail = u32 t ∧ Batched t Y F ∧ Turn t Y H F 0 t b s)
      (dump 0 0 0 fun _ => 0) s := by
  refine Safe.pick fun works => ?_
  by_cases hw : works = 0
  · rw [if_pos hw]
    exact Safe.ret (Safe.stays Begun.stable) (fun s hb _ => hb.idle) hb
  rw [if_neg hw]
  refine Safe.read (lawful .bridge) (Safe.stays Begun.stable) (fun s hb hinv => ?_) hb
  obtain ⟨Y, F, hhead, hbatched, ht⟩ := hb.turn hinv
  rw [hinv.txHead, ← hhead]
  generalize s.tail = t at hbatched ht
  refine Safe.read (lawful .bridge) (Safe.stays Turn.stable)
    (fun s ht hinv => ?_) ht
  rw [hinv.txTail, ht.tail]
  exact BridgeSafe.pure ht fun s ht => ⟨t, Y, F, rfl, rfl, hbatched, ht⟩

theorem fetch_safe (hinv : s.Inv) (hb : Begun H b s) : BridgeSafe (Fetched H b) fetch s := by
  unfold fetch
  refine Safe.bind (lawful .bridge) hinv ((firstDump_safe hb).mono fun r s hinv hQ => ?_)
  cases r with
  | none => exact Safe.done BridgeIdle.stable hQ
  | some d =>
    obtain ⟨head, tail, size, ring⟩ := d
    obtain ⟨t, Y, F, rfl, rfl, hbatched, ht⟩ := hQ
    have hY := hbatched.size
    have hsize : ringSize = 131072 := rfl
    dsimp only
    rw [u32Sub_u32 (by omega) (by omega), Nat.add_sub_cancel_left]
    by_cases h0 : Y.length = 0
    · rw [if_pos (.inl h0)]
      refine BridgeSafe.pure ht fun s ht => ⟨t, Y, F, rfl, rfl, hbatched, ?_, ht⟩
      rw [Copied, h0]
      rfl
    · rw [if_neg (by omega)]
      have hcopy : Copied t Y 0 ring := rfl
      refine Safe.bind (lawful .bridge) hinv ((fetchLoop_safe hY Y.length hinv ht (Nat.zero_le _)
        (by omega) hcopy).mono fun r s hinv hQ => ?_)
      obtain ⟨ht, hring⟩ := hQ
      cases r with
      | none => exact BridgeSafe.pure ht fun s ht => ht.idle
      | some ring => exact BridgeSafe.pure ht fun s ht => ⟨t, Y, F, rfl, rfl, hbatched, hring ring rfl, ht⟩

/-! ## The walk -/

theorem ringFrame_safe {frame : Frame} {outputs : List SlirpOutput} (ht : Turn t Y H F j u b s)
    (hframe : F[j]? = some frame) (hbefore : b.rxFull = false) (hafter : (runSlirp outputs b).rxFull = false) :
    BridgeSafe (fun goes s => goes = true ∧ Turn t Y H F (j + 1) u (runSlirp outputs b) s)
      (ringFrame outputs frame) s := by
  refine Safe.read (lawful .bridge) (Safe.stays Turn.stable)
    (fun s ht hinv => ?_) ht
  rw [ht.batch, hbefore, if_neg Bool.false_ne_true]
  refine Safe.write (Safe.stays Turn.stable) (fun s ht hinv _ => ?_) ht
  have htake : H ++ F.take (j + 1) = s.handed ++ [frame] := by
    rw [List.take_add_one, hframe, ht.handed, List.append_assoc]
    rfl
  have hprefix : s.handed ++ [frame] <+: s.placed := by
    rw [← htake]
    exact List.IsPrefix.trans (List.prefix_append_right_inj H |>.mpr (List.take_prefix _ _)) ht.placed
  have hnext : Turn t Y H F (j + 1) u (runSlirp outputs b)
      { s with handed := s.handed ++ [frame], batch := runSlirp outputs s.batch } :=
    { ht with handed := htake.symm, batch := by rw [ht.batch] }
  refine ⟨⟨{ hinv with handed := hprefix }, rfl, rfl, rfl,
    rfl, Nat.le_refl _⟩, ?_⟩
  refine Safe.read (lawful .bridge) (Safe.stays Turn.stable) (fun s ht hinv => ?_) hnext
  rw [ht.batch, hafter]
  exact BridgeSafe.pure ht fun s ht => ⟨rfl, ht⟩

theorem Batched.next (hB : Batched t Y F) (hc : Copied t Y Y.length ring) {frame : Frame}
    (hframe : F[j]? = some frame) {p : Nat} (hp : p = t + recordsBytes (F.take j)) :
    Legal frame ∧ p % 4 = 0 ∧ p + recordBytes frame.length ≤ t + Y.length ∧
    le32 (Ring.slice ringSize ring p 4) = frame.length ∧ Ring.slice ringSize ring (p + 4) frame.length = frame := by
  have hlt : j < F.length := (List.getElem?_eq_some_iff.mp hframe).1
  have hrest := hB.records.drop j
  rw [List.drop_eq_getElem_cons hlt, (List.getElem?_eq_some_iff.mp hframe).2] at hrest
  obtain ⟨hlegal, hword, hbytes, hlen, -⟩ := hrest.first
  have hrec := hlegal.record_bounds
  rw [List.length_drop] at hlen
  rw [Copied, List.take_length] at hc
  have hread : ∀ m n, m + n ≤ recordBytes frame.length →
      Ring.slice ringSize ring (p + m) n = ((Y.drop (recordsBytes (F.take j))).drop m).take n := by
    intro m n hmn
    rw [List.drop_drop, ← hc, Ring.drop_slice (by omega), Ring.take_slice (by omega), hp, Nat.add_assoc]
  refine ⟨hlegal, ?_, by omega, ?_, ?_⟩
  · have hal := hB.aligned
    have hmod := recordsBytes_mod (F.take j) fun f hf => hB.records.legal f (List.mem_of_mem_take hf)
    omega
  · have h0 := hread 0 4 (by omega)
    rw [Nat.add_zero, List.drop_zero] at h0
    rw [h0, le32_take, hword]
  · rw [hread 4 frame.length (by omega)]
    exact hbytes

theorem frameIn_eq {p len : Nat} (hlen : len ≤ maxFrame) :
    frameIn ring (p % ringSize) len = Ring.slice ringSize ring p len := by
  have hmax : len ≤ 1514 := hlen
  have hsize : ringSize = 131072 := rfl
  have hlt : p % ringSize < ringSize := Nat.mod_lt _ (by decide)
  unfold frameIn
  dsimp only
  generalize hfirst : (if len < ringSize - p % ringSize then len else ringSize - p % ringSize) = first
  have hsplit : first ≤ len ∧ p % ringSize + first ≤ ringSize ∧ (first < len → p % ringSize + first = ringSize) := by
    split at hfirst <;> omega
  exact (slice_eq_wrap (by omega) hlt hsplit.1 hsplit.2.1 hsplit.2.2).symm

theorem walkLoop_safe {script : Script} (hB : Batched t Y F) (hc : Copied t Y Y.length ring)
    (hquiet : ∀ n, (script.batchAfter b n).rxFull = false) (fuel : Nat) : ∀ {j p : Nat} {s : Tx}, s.Inv →
    Turn t Y H F j u (script.batchAfter b j) s → j ≤ F.length → p = t + recordsBytes (F.take j) →
    t + Y.length ≤ p + fuel →
    BridgeSafe (fun r s => r = some (u32 (t + Y.length)) ∧ ∃ b', Turn t Y H F F.length u b' s)
      (walkLoop ring script (u32 (t + Y.length)) fuel (u32 p) j) s := by
  have hsize : ringSize = 131072 := rfl
  have hY := hB.size
  have hlen := hB.records.length
  -- At the end of the bytes there is no frame left.
  have hend : ∀ {j p : Nat}, j ≤ F.length → p = t + recordsBytes (F.take j) → t + Y.length ≤ p → j = F.length := by
    intro j p hj hp hle
    rcases Nat.lt_or_eq_of_le hj with hlt | heq
    · have hframe : F[j]? = some F[j] := List.getElem?_eq_getElem hlt
      obtain ⟨hlegal, -, hin, -⟩ := hB.next hc hframe hp
      have := hlegal.record_bounds
      omega
    · exact heq
  have hstop : ∀ {j p : Nat} {s : Tx}, Turn t Y H F j u (script.batchAfter b j) s → j = F.length →
      p = t + recordsBytes (F.take j) →
      BridgeSafe (fun r s => r = some (u32 (t + Y.length)) ∧ ∃ b', Turn t Y H F F.length u b' s)
        (pure (some (u32 p))) s := by
    intro j p s ht hj hp
    subst hj
    rw [List.take_length, ← hlen] at hp
    exact BridgeSafe.pure ht fun s ht => ⟨by rw [hp], _, ht⟩
  induction fuel with
  | zero =>
    intro j p s _ ht hj hp hfuel
    exact hstop ht (hend hj hp (by omega)) hp
  | succ fuel ih =>
    intro j p s hinv ht hj hp hfuel
    have hle : p ≤ t + Y.length := by
      have := recordsBytes_take_le hj F
      rw [List.take_length] at this
      omega
    rw [walkLoop]
    by_cases heq : u32 p = u32 (t + Y.length)
    · rw [if_pos heq]
      have hpos : t + Y.length = p := Ring.index_inj hle (by omega) heq.symm
      exact hstop ht (hend hj hp (by omega)) hp
    · rw [if_neg heq]
      have hlt : j < F.length := by
        refine Nat.lt_of_le_of_ne hj fun hje => heq ?_
        rw [hp, hje, List.take_length, ← hlen]
      have hframe : F[j]? = some F[j] := List.getElem?_eq_getElem hlt
      obtain ⟨hlegal, hal, hin, hword, hbytes⟩ := hB.next hc hframe hp
      have hrec := hlegal.record_bounds
      generalize F[j] = frame at hframe hlegal hin hword hbytes hrec
      have hoff : u32 p &&& (ringSize - 1) = p % ringSize := by
        rw [and_ringMask, u32, Ring.index_cell (by decide)]
      have hcell : p % ringSize % 4 = 0 := by rwa [Nat.mod_mod_of_dvd _ (by decide : 4 ∣ ringSize)]
      have hin' : p % ringSize < ringSize := Nat.mod_lt _ (by decide)
      have hle32 : le32 (bytesAt ring (p % ringSize) 4) = frame.length := by
        rw [← slice_eq_bytesAt (by omega), hword]
      have hnext : (p % ringSize) + 4 &&& (ringSize - 1) = (p + 4) % ringSize := by
        rw [and_ringMask, Nat.mod_add_mod]
      dsimp only
      rw [hoff, hle32, hnext, frameIn_eq hlegal.2, hbytes, u32Sub_u32 hle (by omega), if_neg]
      · refine Safe.bind (lawful .bridge) hinv ((ringFrame_safe ht hframe (hquiet j) (hquiet (j + 1))).mono
          fun goes s hinv hQ => ?_)
        obtain ⟨rfl, ht⟩ := hQ
        rw [if_pos rfl, u32_add]
        refine ih hinv ht hlt ?_ (by omega)
        rw [recordsBytes_take_succ hframe, ← Nat.add_assoc, ← hp]
      · have hpos := hlegal.1
        have hmax := hlegal.2
        omega

/-! ## The turn -/

theorem stop_safe (s : Tx) : BridgeSafe (fun _ s => BridgeIdle s) (stop false) s := by
  refine Safe.writeLast Safe.always (fun s _ hinv _ => ?_) trivial
  refine ⟨⟨{ hinv with sane := ?_ }, rfl, rfl, rfl, rfl,
    Nat.le_refl _⟩, fun s' hr _ => .inl hr.stopped⟩
  rw [hinv.sane]
  rfl

theorem poll_safe (script : Script) (hidle : BridgeIdle s) :
    BridgeSafe (fun _ s => BridgeIdle s) (poll script) s := by
  refine Safe.writeLast (Safe.stays BridgeIdle.stable) (fun s hidle hinv _ => ?_) hidle
  refine ⟨⟨{ hinv with }, rfl, rfl,
    rfl, rfl, Nat.le_refl _⟩, fun s' hr _ => ?_⟩
  have hsame : BridgeIdle { s with batch := (runSlirp script.poll s.batch).flush script.flush } := hidle
  exact hsame.stable hr

theorem Turn.move (ht : Turn t Y H F F.length (t + Y.length) b s) (hinv : s.Inv) (hB : Batched t Y F) :
    BridgeGuar s { s with
      txTail := u32 (t + Y.length), tail := s.tail + u32Sub (u32 (t + Y.length)) s.txTail } ∧
    BridgeIdle { s with
      txTail := u32 (t + Y.length), tail := s.tail + u32Sub (u32 (t + Y.length)) s.txTail } := by
  have hY := hB.size
  have hsize : ringSize = 131072 := rfl
  have hmove : s.tail + u32Sub (u32 (t + Y.length)) s.txTail = t + Y.length := by
    rw [hinv.txTail, ht.tail, u32Sub_u32 (by omega) (by omega), Nat.add_sub_cancel_left]
  rw [hmove]
  have hforward : s.tail ≤ t + Y.length := ht.tail.le.trans (Nat.le_add_right _ _)
  refine ⟨⟨{ hinv with window := hinv.window.release hforward (ht.le_head hinv), txTail := rfl }, rfl, rfl, rfl, rfl,
    hforward⟩, .inr ⟨ht.seen, ?_⟩⟩
  rw [ht.handed, List.take_length, recordsBytes_append, ← hB.records.length, ← Nat.add_assoc, ← ht.pos]

theorem take_safe (ht : Turn t Y H F F.length (t + Y.length) b s) (hB : Batched t Y F) (h0 : Y.length ≠ 0) :
    BridgeSafe (fun ok s => ok = true → BridgeIdle s) (take (u32 (t + Y.length))) s := by
  have hY := hB.size
  have hsize : ringSize = 131072 := rfl
  have hfail : ∀ s, BridgeSafe (fun ok s => ok = true → BridgeIdle s) (pure false) s :=
    fun _ _ _ _ hok => absurd hok Bool.false_ne_true
  refine Safe.pick fun works => ?_
  by_cases hw : works = 0
  · rw [if_pos hw]
    exact hfail s
  rw [if_neg hw]
  refine Safe.read (lawful .bridge) (Safe.stays Turn.stable) (fun s ht hinv => ?_) ht
  have hle := ht.le_head hinv
  have hfit : s.head ≤ s.tail + ringSize := hinv.window.fits
  rw [ht.tail] at hfit
  rw [hinv.txHead]
  generalize s.head = h at hle hfit
  refine Safe.read (lawful .bridge) (Safe.stays Turn.stable) (fun s ht hinv => ?_) ht
  have hne : u32 (t + Y.length) ≠ u32 t := by
    intro heq
    have := Ring.index_inj (W := 2 ^ 32) (Nat.le_add_right t Y.length) (by omega) heq
    omega
  rw [hinv.txTail, ht.tail, u32Sub_u32 (by omega) (by omega), u32Sub_u32 (by omega) (by omega), if_neg (by omega),
    if_neg hne]
  refine Safe.pick fun works => ?_
  by_cases hw : works = 0
  · rw [if_pos hw]
    exact hfail s
  rw [if_neg hw]
  refine Safe.write (Safe.stays Turn.stable)
    (fun s ht hinv _ => ?_) ht
  obtain ⟨hguar, hidle⟩ := ht.move hinv hB
  refine ⟨hguar, Safe.pick fun works => ?_⟩
  exact Safe.ret (Safe.stays BridgeIdle.stable) (fun _ h _ _ => h) hidle

theorem turn_safe {script : Script} (hidle : BridgeIdle s) (hrun : s.stopped = false)
    (hquiet : Undisturbed script s.batch) : BridgeSafe (fun _ s => BridgeIdle s) (turn script) s := by
  have hbegun : Begun s.handed s.batch s := by
    rcases hidle with hstop | ⟨hseen, hpos⟩
    · rw [hrun] at hstop
      exact absurd hstop Bool.false_ne_true
    · exact ⟨hrun, hpos, rfl, hseen, rfl⟩
  generalize s.handed = H at hbegun
  generalize s.batch = b at hbegun hquiet
  refine Safe.write (Safe.stays Begun.stable) (fun s hb hinv _ => ?_) hbegun
  have hinv' : Inv { s with batch := { s.batch with rxFull := false } } :=
    { hinv with }
  refine ⟨⟨hinv', rfl, rfl, rfl, rfl, Nat.le_refl _⟩, ?_⟩
  have hbegun : Begun H { b with rxFull := false } { s with batch := { s.batch with rxFull := false } } :=
    { hb with batch := by rw [hb.batch] }
  refine Safe.bind (lawful .bridge) hinv' ((fetch_safe hinv' hbegun).mono fun r s hinv hQ => ?_)
  match r with
  | none =>
    refine Safe.pick fun gone => ?_
    split
    · exact stop_safe s
    · exact Safe.done BridgeIdle.stable hQ
  | some (head, tail, ring) =>
    obtain ⟨t, Y, F, rfl, rfl, hB, hc, ht⟩ := hQ
    have hY := hB.size
    have hsize : ringSize = 131072 := rfl
    refine Safe.write (P := Turn t Y H F 0 t { b with rxFull := false }) (fun ht hr _ => ht.stable hr)
      (fun s ht hinv _ => ?_) ht
    have hseen : s.tail + u32Sub (u32 (t + Y.length)) s.txTail = t + Y.length := by
      rw [hinv.txTail, ht.tail, u32Sub_u32 (by omega) (by omega), Nat.add_sub_cancel_left]
    rw [hseen]
    have hinv' : Inv { s with seen := t + Y.length } :=
      { hinv with }
    have ht' : Turn t Y H F 0 (t + Y.length) (script.batchAfter { b with rxFull := false } 0)
        { s with seen := t + Y.length } :=
      { ht with seen := rfl }
    refine ⟨⟨hinv', rfl, rfl, rfl, rfl, Nat.le_refl _⟩, ?_⟩
    have hwalk := walkLoop_safe hB hc hquiet Y.length hinv' ht' (Nat.zero_le _) rfl (Nat.le_refl _)
    have hwalk' : walk ring script (u32 (t + Y.length)) (u32 t) =
        walkLoop ring script (u32 (t + Y.length)) Y.length (u32 t) 0 := by
      rw [walk, u32Sub_u32 (by omega) (by omega), Nat.add_sub_cancel_left, if_neg (by omega)]
    rw [hwalk']
    refine Safe.bind (lawful .bridge) hinv' (hwalk.mono fun r s hinv hQ => ?_)
    obtain ⟨rfl, b', ht⟩ := hQ
    dsimp only
    split
    next heq =>
      have hpos : t + Y.length = t := Ring.index_inj (W := 2 ^ 32) (Nat.le_add_right t Y.length) (by omega) heq
      refine poll_safe script (.inr ⟨by rw [ht.seen, ht.tail, hpos], ?_⟩)
      rw [ht.handed, List.take_length, recordsBytes_append, ← hB.records.length, ← Nat.add_assoc, ← ht.pos, hpos,
        ht.tail]
    next hne =>
      have h0 : Y.length ≠ 0 := fun h0 => hne (by rw [h0, Nat.add_zero])
      refine Safe.bind (lawful .bridge) hinv ((take_safe ht hB h0).mono fun ok s hinv hok => ?_)
      cases ok with
      | true => exact poll_safe script (hok rfl)
      | false => exact stop_safe s

end Tx

end MoCoLinux.Net
