import MoCoLinux.Console.Lemmas.Host

/-!
# The console rings: the pump
-/

namespace MoCoLinux.Console

open Threads (Prog)
open Threads.Prog (Safe)

variable {s s' : Console} {i : Nat} {c : PumpCall}

/-- Caller `i` holds the lock, has published the first `n` bytes of its input, and has taken `out` out of the
ring. -/
structure Holding (i : Nat) (c : PumpCall) (n : Nat) (out : List UInt8) (s : Console) : Prop where
  lock : s.lock = some i
  count : n ≤ c.input.length
  entered : s.entered ≤ s.input.length
  sent : s.input.drop s.entered = c.input.take n
  taken : s.taken = s.input.take s.entered
  behind : s.outPos ≤ s.outHead
  returned : s.returned ++ out = s.output.take (s.outPos - s.outStart)

variable {n : Nat} {out : List UInt8}

theorem Holding.stable (h : Holding i c n out s) (hr : HostRely i s s') :
    Holding i c n out s' := by
  have hsame := hr.owned h.lock
  obtain ⟨rest, hrest⟩ := hr.output
  have hbehind := h.behind
  rw [outHead] at hbehind
  refine ⟨hr.lock.mpr h.lock, h.count, ?_, ?_, ?_, ?_, ?_⟩
  · rw [hsame.entered, hsame.input]
    exact h.entered
  · rw [hsame.entered, hsame.input]
    exact h.sent
  · rw [hsame.entered, hsame.input, hsame.taken]
    exact h.taken
  · rw [hsame.outPos, outHead, hr.outStart]
    exact Nat.le_trans hbehind (Nat.add_le_add_left hr.output.length_le _)
  · rw [hsame.outPos, hsame.returned, hr.outStart, ← hrest, List.take_append_of_le_length (by omega)]
    exact h.returned

theorem Holding.local (i : Nat) (c : PumpCall) (n : Nat) (out : List UInt8) : Local i (Holding i c n out) where
  lock h := h.lock
  stable h hr _ := h.stable hr
  moving _ h := { h with }
  words _ h := { h with }

/-! ## Keystrokes in -/

/-- Caller `i` has put `bytes` behind the head; `h` is the position of `in_head`, and `t` is a position of
`in_tail` it has read. -/
structure Filling (i : Nat) (c : PumpCall) (h t : Nat) (bytes : List UInt8) (s : Console) : Prop
    extends Holding i c 0 [] s where
  head : s.inHead = h
  tail : t ≤ s.inPos
  room : h + bytes.length ≤ t + consoleInSize
  written : Ring.slice consoleInSize s.inRing h bytes.length = bytes

theorem Filling.local (i : Nat) (c : PumpCall) (h t : Nat) (bytes : List UInt8) :
    Local i (Filling i c h t bytes) where
  lock h := h.lock
  stable {s s'} hf hr _ := by
    have hsame := hr.owned hf.lock
    refine ⟨hf.toHolding.stable hr, ?_, Nat.le_trans hf.tail hr.inPos, hf.room, by rw [hsame.inRing]; exact hf.written⟩
    rw [inHead, hr.inStart, hsame.input]
    exact hf.head
  moving m hf := { hf with toHolding := (Holding.local ..).moving m hf.toHolding }
  words w hf := { hf with toHolding := (Holding.local ..).words w hf.toHolding }

variable {h t : Nat}

theorem Filling.update {bytes : List UInt8} (hf : Filling i c h t bytes s) (hinv : s.Inv)
    (hroom : h + bytes.length < t + consoleInSize) (b : UInt8) :
    HostGuar i s { s with inRing := Function.update s.inRing ((h + bytes.length) % consoleInSize) b } ∧
    Filling i c h t (bytes ++ [b])
      { s with inRing := Function.update s.inRing ((h + bytes.length) % consoleInSize) b } := by
  have htail := hf.tail
  have hhead : s.inStart + s.input.length = h := hf.head
  have hbehind := hinv.inWindow.tail_le
  constructor
  · refine .holder hf.lock rfl ⟨rfl, rfl, List.prefix_rfl, List.prefix_rfl, Nat.le_refl _, Nat.le_refl _⟩ ?_ rfl
      ⟨rfl, rfl⟩ ⟨rfl⟩
    exact { hinv with inWindow := hinv.inWindow.update (by omega) (by omega) }
  · refine ⟨⟨hf.lock, hf.count, hf.entered, hf.sent, hf.taken, hf.behind, hf.returned⟩, hf.head, hf.tail, ?_, ?_⟩
    · rw [List.length_append, List.length_singleton]
      omega
    · rw [List.length_append, List.length_singleton, Ring.slice_update_succ (by omega), hf.written]

def Filled (i : Nat) (c : PumpCall) (h t : Nat) : Option (Nat × Nat) → Console → Prop
  | none => Calm (Holding i c 0 [])
  | some (head, n) => fun s => head = u32 (h + n) ∧ n ≤ c.input.length ∧ Calm (Filling i c h t (c.input.take n)) s

theorem inputLoop_safe (bs : List UInt8) : ∀ {bytes : List UInt8} {s : Console}, s.Inv →
    Calm (Filling i c h t bytes) s → c.input = bytes ++ bs → t ≤ h →
    HostSafe i (Filled i c h t) (inputLoop (u32 t) bs (u32 (h + bytes.length)) bytes.length) s := by
  induction bs with
  | nil =>
    intro bytes s _ hf hin _
    refine (Filling.local ..).ret hf fun s hf _ => ⟨rfl, by rw [hin]; simp, ?_⟩
    rw [hin, List.take_left]
    exact hf
  | cons b bs ih =>
    intro bytes s hinv hf hin hle
    have hsize : consoleInSize = 1024 := rfl
    have hroom := hf.1.room
    rw [inputLoop, Net.u32Sub_u32 (by omega) (by omega)]
    by_cases hfree : h + bytes.length - t < consoleInSize
    · rw [if_pos hfree]
      refine Safe.pick fun works => ?_
      by_cases hw : works = 0
      · rw [if_pos hw]
        exact (Holding.local ..).ret ⟨hf.1.toHolding, hf.2⟩ fun s hf _ => hf
      · rw [if_neg hw, inCell]
        refine Safe.write (P := Calm (Filling i c h t bytes)) (Filling.local ..).calm
          (fun s hf hinv _ => ?_) hf
        obtain ⟨hguar, hnext⟩ := hf.1.update hinv (by omega) b
        have hrest := ih hguar.inv ⟨hnext, hf.2⟩ (by simpa using hin) hle
        rw [List.length_append, List.length_singleton, ← Nat.add_assoc, ← Net.u32_add] at hrest
        exact ⟨hguar, hrest⟩
    · rw [if_neg hfree]
      refine (Filling.local ..).ret hf fun s hf _ => ⟨rfl, by rw [hin]; simp, ?_⟩
      rw [hin, List.take_left]
      exact hf

theorem Filling.publish (hf : Filling i c h t (c.input.take n) s) (hn : n ≤ c.input.length)
    (hinv : s.Inv) (hmoving : s.moving = some .inHead)
    (hbytes : ∀ k < 4, (s.setByte .inHead 3 (u32 (h + n))).words .inHead k = (Net.word32 (u32 (h + n))).getD k 0)
    (hs' : s' = { s.setByte .inHead 3 (u32 (h + n)) with moving := none, input := s.input ++ c.input.take n }) :
    HostGuar i s s' ∧ Calm (Holding i c n []) s' := by
  subst hs'
  have hlen : (c.input.take n).length = n := List.length_take_of_le hn
  have hhead : s.inStart + s.input.length = h := hf.head
  have hroom := hf.room
  have htail := hf.tail
  have hwritten := hf.written
  rw [hlen] at hroom hwritten
  have hwindow := hinv.inWindow.publish (n := n) (by omega)
  rw [hhead, hwritten] at hwindow
  have hall : s.entered = s.input.length := by
    have hnone : s.input.drop s.entered = [] := hf.sent
    have := List.drop_eq_nil_iff.mp hnone
    have := hf.entered
    omega
  constructor
  · refine .holder hf.lock rfl ⟨rfl, rfl, List.prefix_append _ _, List.prefix_rfl, Nat.le_refl _, Nat.le_refl _⟩ ?_
      rfl ⟨rfl, rfl⟩ ⟨rfl⟩
    refine ⟨hwindow, hinv.outWindow, fun w _ => ?_, fun _ => rfl, ?_, hinv.taken.trans (List.prefix_append _ _),
      fun hl => ?_, hinv.returned, hinv.returnedAll, hinv.results, hinv.synced⟩
    · refine words_moved (p := h + n) hinv hmoving hbytes ?_ ?_ (fun w hw => ?_) w
      · rfl
      · change s.inStart + (s.input ++ c.input.take n).length = h + n
        rw [List.length_append, hlen]
        omega
      · cases w with
        | inHead => exact absurd rfl hw
        | inTail => rfl
        | outHead => rfl
        | outTail => rfl
    · have hbehind := hinv.inWindow.tail_le
      have hstart := hinv.inWindow.start_le
      change s.got = (s.input ++ c.input.take n).take (s.inPos - s.inStart)
      rw [List.take_append_of_le_length (by omega)]
      exact hinv.got
    · have hl : s.lock = none := hl
      rw [hf.lock] at hl
      cases hl
  · refine ⟨⟨hf.lock, hn, ?_, ?_, ?_, hf.behind, hf.returned⟩, rfl⟩
    · change s.entered ≤ (s.input ++ c.input.take n).length
      rw [List.length_append]
      omega
    · change (s.input ++ c.input.take n).drop s.entered = c.input.take n
      rw [hall, List.drop_left]
    · change s.taken = (s.input ++ c.input.take n).take s.entered
      rw [hall, List.take_left, hf.taken, hall, List.take_length]

theorem publish_safe (hn : n ≤ c.input.length) (hinv : s.Inv)
    (hf : Calm (Filling i c h t (c.input.take n)) s) :
    HostSafe i (fun r => Calm (Holding i c (r.getD 0) [])) (publish c.input (u32 (h + n)) n) s := by
  unfold publish
  by_cases hzero : n = 0
  · rw [if_pos hzero]
    exact (Holding.local ..).ret ⟨hf.1.toHolding, hf.2⟩ fun s h _ => h
  · rw [if_neg hzero]
    refine Safe.bind (lawful (.host i)) hinv ((writeU32_safe (Filling.local ..) (Holding.local i c n []) rfl
      (fun s hf hinv hm hb => hf.publish hn hinv hm hb rfl) hf).mono fun ok s _ hok => ?_)
    cases ok with
    | false => exact (Holding.local ..).ret ⟨hok.1.toHolding, hok.2⟩ fun s h _ => h
    | true => exact (Holding.local ..).ret hok fun s h _ => h

theorem pumpIn_safe (hinv : s.Inv) (hh : Calm (Holding i c 0 []) s) :
    HostSafe i (fun r => Calm (Holding i c (r.getD 0) [])) (pumpIn c.input) s := by
  unfold pumpIn
  refine Safe.bind (lawful (.host i)) hinv ((readU32_safe (Holding.local i c 0 []) .inHead hh).mono
    fun r s hinv hr => ?_)
  rcases hr with ⟨rfl, hh⟩ | ⟨s₀, rfl, -, hh₀, hrely, hh⟩
  · exact (Holding.local ..).ret hh fun s h _ => h
  -- the head is the caller's own
  have hhead : s.inHead = s₀.position .inHead := by
    rw [inHead, hrely.inStart, (hrely.owned hh₀.1.lock).input]
    rfl
  generalize s₀.position .inHead = h at hhead ⊢
  have L : Local i fun s => Holding i c 0 [] s ∧ s.inHead = h :=
    { lock := fun hP => hP.1.lock
      stable := fun hP hr _ => by
        refine ⟨hP.1.stable hr, ?_⟩
        rw [inHead, hr.inStart, (hr.owned hP.1.lock).input]
        exact hP.2
      moving := fun m hP => ⟨(Holding.local ..).moving m hP.1, hP.2⟩
      words := fun w hP => ⟨(Holding.local ..).words w hP.1, hP.2⟩ }
  refine Safe.bind (lawful (.host i)) hinv ((readU32_safe L .inTail ⟨⟨hh.1, hhead⟩, hh.2⟩).mono fun r s hinv hr => ?_)
  rcases hr with ⟨rfl, hh, hm⟩ | ⟨s₀, rfl, hinv₀, hh₀, hrely, hh⟩
  · exact (Holding.local ..).ret ⟨hh.1, hm⟩ fun s h _ => h
  have hle : s₀.inPos ≤ h := by
    rw [← hh₀.1.2]
    exact hinv₀.inWindow.tail_le
  have hroom : h ≤ s₀.inPos + consoleInSize := by
    rw [← hh₀.1.2]
    exact hinv₀.inWindow.fits
  have hf : Calm (Filling i c h s₀.inPos []) s := ⟨⟨hh.1.1, hh.1.2, hrely.inPos, hroom, rfl⟩, hh.2⟩
  refine Safe.bind (lawful (.host i)) hinv ((inputLoop_safe c.input hinv hf rfl hle).mono fun r s hinv hr => ?_)
  rcases r with - | ⟨head, n⟩
  · exact (Holding.local ..).ret hr fun s h _ => h
  · obtain ⟨rfl, hn, hf⟩ := hr
    exact publish_safe hn hinv hf

/-! ## Output out -/

structure Draining (i : Nat) (c : PumpCall) (n q h : Nat) (out : List UInt8) (s : Console) : Prop
    extends Holding i c n [] s where
  start : s.outStart ≤ q
  tail : s.outPos = q
  head : h ≤ s.outHead
  seen : q + out.length ≤ h
  bytes : (s.output.drop (q - s.outStart)).take out.length = out

theorem Draining.local (i : Nat) (c : PumpCall) (n q h : Nat) (out : List UInt8) :
    Local i (Draining i c n q h out) where
  lock h := h.lock
  stable {s s'} hd hr _ := by
    have hsame := hr.owned hd.lock
    obtain ⟨rest, hrest⟩ := hr.output
    have hstart := hd.start
    have hhead := hd.head
    have hseen := hd.seen
    rw [outHead] at hhead
    refine ⟨hd.toHolding.stable hr, by rw [hr.outStart]; exact hstart, hsame.outPos.trans hd.tail, ?_, hseen, ?_⟩
    · rw [outHead, hr.outStart]
      exact Nat.le_trans hhead (Nat.add_le_add_left hr.output.length_le _)
    · rw [hr.outStart, ← hrest, List.drop_append_of_le_length (by omega),
        List.take_append_of_le_length (by rw [List.length_drop]; omega)]
      exact hd.bytes
  moving m hd := { hd with toHolding := (Holding.local ..).moving m hd.toHolding }
  words w hd := { hd with toHolding := (Holding.local ..).words w hd.toHolding }

variable {q : Nat}

theorem Draining.next (hd : Draining i c n q h out s) (hinv : s.Inv)
    (hlt : q + out.length < h) :
    Draining i c n q h (out ++ [s.outRing ((q + out.length) % consoleOutSize)]) s := by
  have hstart := hd.start
  have hhead : h ≤ s.outStart + s.output.length := hd.head
  have hcell := hinv.outWindow.read (p := q + out.length) (n := 1) (by rw [hd.tail]; omega) (by omega)
  rw [Ring.slice, Ring.slice] at hcell
  refine ⟨hd.toHolding, hd.start, hd.tail, hd.head, ?_, ?_⟩
  · rw [List.length_append, List.length_singleton]
    omega
  · rw [List.length_append, List.length_singleton, List.take_add, hd.bytes, List.drop_drop,
      show q - s.outStart + out.length = q + out.length - s.outStart by omega, ← hcell]

def Drained (i : Nat) (c : PumpCall) (n q h : Nat) : Option (Nat × List UInt8) → Console → Prop
  | none => Calm (Holding i c n [])
  | some (tail, out) => fun s => tail = u32 (q + out.length) ∧ Calm (Draining i c n q h out) s

theorem outputLoop_safe (left : Nat) :
    ∀ {out : List UInt8} {s : Console}, s.Inv → Calm (Draining i c n q h out) s →
    HostSafe i (Drained i c n q h) (outputLoop (u32 h) left (u32 (q + out.length)) out) s := by
  induction left with
  | zero =>
    intro out s _ hd
    exact (Draining.local ..).ret hd fun s hd _ => ⟨rfl, hd⟩
  | succ left ih =>
    intro out s hinv hd
    have hseen := hd.1.seen
    rw [outputLoop]
    by_cases hall : u32 (q + out.length) = u32 h
    · rw [if_pos hall]
      exact (Draining.local ..).ret hd fun s hd _ => ⟨rfl, hd⟩
    · rw [if_neg hall]
      have hlt : q + out.length < h := Nat.lt_of_le_of_ne hseen fun heq => hall (congrArg u32 heq)
      refine Safe.pick fun works => ?_
      by_cases hw : works = 0
      · rw [if_pos hw]
        exact (Holding.local ..).ret ⟨hd.1.toHolding, hd.2⟩ fun s h _ => h
      · rw [if_neg hw, outCell]
        refine Safe.read (lawful (.host i)) (P := Calm (Draining i c n q h out)) (Draining.local ..).calm
          (fun s hd hinv => ?_) hd
        have hrest := ih hinv ⟨hd.1.next hinv hlt, hd.2⟩
        rwa [List.length_append, List.length_singleton, ← Nat.add_assoc, ← Net.u32_add] at hrest

theorem Draining.release (hd : Draining i c n q h out s) (hinv : s.Inv)
    (hmoving : s.moving = some .outTail)
    (hbytes : ∀ k < 4, (s.setByte .outTail 3 (u32 (q + out.length))).words .outTail k =
      (Net.word32 (u32 (q + out.length))).getD k 0)
    (hs' : s' = { s.setByte .outTail 3 (u32 (q + out.length)) with moving := none, outPos := q + out.length }) :
    HostGuar i s s' ∧ Calm (Holding i c n out) s' := by
  subst hs'
  have hstart := hd.start
  have htail := hd.tail
  have hseen := hd.seen
  have hhead : h ≤ s.outStart + s.output.length := hd.head
  have hwindow : Ring.Window consoleOutSize s.outRing s.outStart (q + out.length) s.output :=
    hinv.outWindow.release (by omega) (by omega)
  constructor
  · refine .holder hd.lock rfl ⟨rfl, rfl, List.prefix_rfl, List.prefix_rfl, Nat.le_refl _, ?_⟩ ?_ rfl ⟨rfl, rfl⟩ ⟨rfl⟩
    · exact htail.trans_le (Nat.le_add_right _ _)
    refine ⟨hinv.inWindow, hwindow, fun w _ => ?_, fun _ => rfl, hinv.got, hinv.taken, hinv.takenAll, hinv.returned,
      fun hl => ?_, hinv.results, hinv.synced⟩
    · refine words_moved (p := q + out.length) hinv hmoving hbytes ?_ ?_ (fun w hw => ?_) w
      · rfl
      · rfl
      · cases w with
        | inHead => rfl
        | inTail => rfl
        | outHead => rfl
        | outTail => exact absurd rfl hw
    · have hl : s.lock = none := hl
      rw [hd.lock] at hl
      cases hl
  · have hreturned := hd.returned
    rw [List.append_nil, htail] at hreturned
    refine ⟨{ hd with behind := Nat.le_trans hseen hhead, returned := ?_ }, rfl⟩
    change s.returned ++ out = s.output.take (q + out.length - s.outStart)
    rw [hreturned, show q + out.length - s.outStart = q - s.outStart + out.length by omega, List.take_add, hd.bytes]

theorem consume_safe (hlap : h ≤ q + consoleOutSize) (hinv : s.Inv)
    (hd : Calm (Draining i c n q h out) s) :
    HostSafe i (fun r => Calm (Holding i c n (r.getD []))) (consume (u32 (q + out.length)) out) s := by
  unfold consume
  by_cases hzero : out.length = 0
  · rw [if_pos hzero]
    exact (Holding.local ..).ret ⟨hd.1.toHolding, hd.2⟩ fun s h _ => h
  · rw [if_neg hzero]
    refine Safe.bind (lawful (.host i)) hinv ((writeU32_safe (Draining.local ..) (Holding.local i c n out) rfl
      (fun s hd hinv hm hb => hd.release hinv hm hb ?_) hd).mono fun ok s _ hok => ?_)
    · have hsub : u32Sub (u32 (q + out.length)) (u32 q) = out.length := by
        have hsize : consoleOutSize = 4096 := rfl
        have hshort : q + out.length ≤ q + consoleOutSize := Nat.le_trans hd.seen hlap
        rw [Net.u32Sub_u32 (Nat.le_add_right _ _) (by omega), Nat.add_sub_cancel_left]
      simp only [setByte, hd.tail, hsub]
    cases ok with
    | false => exact (Holding.local ..).ret ⟨hok.1.toHolding, hok.2⟩ fun s h _ => h
    | true => exact (Holding.local ..).ret hok fun s h _ => h

theorem pumpOut_safe (outSize : Nat) (hinv : s.Inv) (hh : Calm (Holding i c n []) s) :
    HostSafe i (fun r => Calm (Holding i c n (r.getD []))) (pumpOut outSize) s := by
  unfold pumpOut
  refine Safe.bind (lawful (.host i)) hinv ((readU32_safe (Holding.local i c n []) .outHead hh).mono
    fun r s hinv hr => ?_)
  rcases hr with ⟨rfl, hh⟩ | ⟨s₀, rfl, hinv₀, hh₀, hrely, hh⟩
  · exact (Holding.local ..).ret hh fun s h _ => h
  -- the tail is the caller's own, so it stays where it was when the head was read
  have hd : Draining i c n s₀.outPos (s₀.position .outHead) [] s := by
    refine ⟨hh.1, ?_, (hrely.owned hh₀.1.lock).outPos, ?_, hinv₀.outWindow.tail_le, rfl⟩
    · rw [hrely.outStart]
      exact hinv₀.outWindow.start_le
    · change s₀.outHead ≤ s.outHead
      rw [outHead, outHead, hrely.outStart]
      exact Nat.add_le_add_left hrely.output.length_le _
  have hlap : s₀.position .outHead ≤ s₀.outPos + consoleOutSize := hinv₀.outWindow.fits
  generalize s₀.position .outHead = h at hd hlap ⊢
  generalize s₀.outPos = q at hd hlap
  refine Safe.bind (lawful (.host i)) hinv ((readU32_safe (Draining.local i c n q h []) .outTail
    ⟨hd, hh.2⟩).mono fun r s hinv hr => ?_)
  rcases hr with ⟨rfl, hd, hm⟩ | ⟨s₀, rfl, -, hd₀, -, hd⟩
  · exact (Holding.local ..).ret ⟨hd.toHolding, hm⟩ fun s h _ => h
  have hq : s₀.position .outTail = q := hd₀.1.tail
  have hsize : consoleOutSize = 4096 := rfl
  have hseen := hd.1.seen
  rw [List.length_nil] at hseen
  have hkeep : resync (u32 h) (u32 q) = pure (u32 q) := by
    rw [resync, Net.u32Sub_u32 (by omega) (by omega), if_neg (by omega)]
  rw [hq]
  refine Safe.bind (lawful (.host i)) hinv ?_
  rw [hkeep]
  refine (Draining.local i c n q h []).ret hd fun s hd hinv => ?_
  refine Safe.bind (lawful (.host i)) hinv ((outputLoop_safe outSize hinv hd).mono fun r s hinv hr => ?_)
  rcases r with - | ⟨tail, out⟩
  · exact (Holding.local ..).ret hr fun s h _ => h
  · obtain ⟨rfl, hd⟩ := hr
    exact consume_safe hlap hinv hd

/-! ## The whole call -/

theorem Holding.finish {rc : Rc} (h : Calm (Holding i c n out) s) (hinv : s.Inv)
    (hs' : s' = { s with lock := none, results := s.results ++ [⟨c, rc, n, out, s.input.drop s.entered⟩] }) :
    HostGuar i s s' := by
  subst hs'
  obtain ⟨h, hmoving⟩ := h
  have htaken : s.taken ++ c.input.take n = s.input := by
    rw [h.taken, ← h.sent, List.take_append_drop]
  refine ⟨⟨rfl, rfl, List.prefix_rfl, List.prefix_rfl, Nat.le_refl _, Nat.le_refl _⟩, ?_, fun j hj => ?_,
    fun j hj hl => ?_, rfl, ⟨rfl, rfl⟩, ⟨rfl⟩⟩
  · have htaken' : Console.taken { s with lock := none, results := s.results ++ [⟨c, rc, n, out, s.input.drop s.entered⟩] } =
        s.input := by
      rw [← htaken]
      simp [Console.taken]
    have hreturned' : Console.returned
        { s with lock := none, results := s.results ++ [⟨c, rc, n, out, s.input.drop s.entered⟩] } =
        s.output.take (s.outPos - s.outStart) := by
      rw [← h.returned]
      simp [Console.returned]
    refine ⟨hinv.inWindow, hinv.outWindow, hinv.words, fun _ => hmoving, hinv.got, ?_, fun _ => htaken', ?_,
      fun _ => hreturned', fun r hr => ?_, hinv.synced⟩
    · exact ⟨[], (List.append_nil _).trans htaken'⟩
    · rw [hreturned']
      exact List.take_prefix _ _
    · rcases List.mem_append.mp hr with hr | hr
      · exact hinv.results r hr
      · rw [List.mem_singleton.mp hr]
        exact ⟨h.count, h.sent⟩
  · simp [h.lock, Ne.symm hj]
  · rw [h.lock, Option.some.injEq] at hl
    exact absurd hl.symm hj

def Pumped (i : Nat) (c : PumpCall) (r : Rc × Nat × List UInt8) : Console → Prop :=
  Calm (Holding i c r.2.1 r.2.2)

theorem pumpLocked_safe (hh : Calm (Holding i c 0 []) s) : HostSafe i (Pumped i c) (pumpLocked c) s := by
  refine Safe.read (lawful (.host i)) (P := Calm (Holding i c 0 [])) (Holding.local ..).calm
    (fun s hh hinv => ?_) hh
  by_cases hva : s.ioVa = 0
  · rw [if_pos hva]
    exact (Holding.local ..).ret hh fun s h _ => h
  rw [if_neg hva]
  have hin : HostSafe i (fun r => Calm (Holding i c (r.getD 0) [])) (inHalf c) s := by
    unfold inHalf
    split
    · exact (Holding.local ..).ret hh fun s h _ => h
    · exact pumpIn_safe hinv hh
  refine Safe.bind (lawful (.host i)) hinv (hin.mono fun r s hinv hh => ?_)
  cases r with
  | none => exact (Holding.local ..).ret hh fun s h _ => h
  | some n =>
    have hout : HostSafe i (fun r => Calm (Holding i c n (r.getD []))) (outHalf c) s := by
      unfold outHalf
      split
      · exact (Holding.local ..).ret hh fun s h _ => h
      · exact pumpOut_safe c.outSize hinv hh
    refine Safe.bind (lawful (.host i)) hinv (hout.mono fun r s hinv hh => ?_)
    cases r with
    | none => exact (Holding.local ..).ret hh fun s h _ => h
    | some out => exact (Holding.local ..).ret hh fun s h _ => h

theorem pump_safe (hidle : s.lock ≠ some i) (c : PumpCall) :
    HostSafe i (fun _ s => s.lock ≠ some i) (pump i c) s := by
  have hst : ∀ {s s' : Console}, s.lock ≠ some i → HostRely i s s' → s'.Inv → s'.lock ≠ some i :=
    fun hP hr _ hl => hP (hr.lock.mp hl)
  refine Safe.read (lawful (.host i)) (P := fun s => s.lock ≠ some i) hst (fun s hidle hinv => ?_) hidle
  cases s.hasLock with
  | false =>
    rw [if_neg Bool.false_ne_true]
    refine Safe.writeLast (P := fun s => s.lock ≠ some i) hst (fun s hidle hinv _ => ⟨?_, ?_⟩) hidle
    · have htaken : Console.taken { s with results := s.results ++ [⟨c, .notFound, 0, [], []⟩] } = s.taken := by
        simp [Console.taken]
      have hreturned : Console.returned { s with results := s.results ++ [⟨c, .notFound, 0, [], []⟩] } =
          s.returned := by
        simp [Console.returned]
      refine ⟨⟨rfl, rfl, List.prefix_rfl, List.prefix_rfl, Nat.le_refl _, Nat.le_refl _⟩,
        { hinv with taken := ?_, takenAll := ?_, returned := ?_, returnedAll := ?_, results := fun r hr => ?_ },
          fun _ _ => Iff.rfl,
        fun _ _ _ => ⟨rfl, fun _ _ => rfl, rfl, rfl, rfl, rfl, htaken, hreturned⟩, rfl, ⟨rfl, rfl⟩, ⟨rfl⟩⟩
      · rw [htaken]
        exact hinv.taken
      · rw [htaken]
        exact hinv.takenAll
      · rw [hreturned]
        exact hinv.returned
      · rw [hreturned]
        exact hinv.returnedAll
      · rcases List.mem_append.mp hr with hr | hr
        · exact hinv.results r hr
        · rw [List.mem_singleton.mp hr]
          exact ⟨Nat.zero_le _, rfl⟩
    · exact fun s' hr _ hl => hidle (hr.lock.mp hl)
  | true =>
    rw [if_pos rfl]
    refine Safe.await (P := fun s => s.lock ≠ some i) hst (fun s hidle hinv hfree _ => ?_) hidle
    have hnone : s.lock = none := Option.isNone_iff_eq_none.mp hfree
    have hguar : HostGuar i s { s with lock := some i, entered := s.input.length } := by
      refine ⟨⟨rfl, rfl, List.prefix_rfl, List.prefix_rfl, Nat.le_refl _, Nat.le_refl _⟩,
        { hinv with still := nofun, takenAll := nofun, returnedAll := nofun }, fun j hj => ?_, fun j _ hl => ?_, rfl,
          ⟨rfl, rfl⟩, ⟨rfl⟩⟩
      · simp [hnone, Ne.symm hj]
      · rw [hnone] at hl
        cases hl
    have hh : Calm (Holding i c 0 []) { s with lock := some i, entered := s.input.length } := by
      refine ⟨⟨rfl, Nat.zero_le _, Nat.le_refl _, List.drop_length, ?_, hinv.outWindow.tail_le, ?_⟩, hinv.still hnone⟩
      · exact (hinv.takenAll hnone).trans (List.take_length).symm
      · exact (List.append_nil _).trans (hinv.returnedAll hnone)
    refine ⟨hguar, Safe.bind (lawful (.host i)) hguar.inv ((pumpLocked_safe hh).mono fun r s hinv hr => ?_)⟩
    refine Safe.writeLast (P := Calm (Holding i c r.2.1 r.2.2)) (Holding.local ..).calm
      (fun s hh hinv _ => ⟨Holding.finish hh hinv rfl, fun s' hr _ hl => ?_⟩) hr
    have := hr.lock.mp hl
    simp at this

end MoCoLinux.Console
