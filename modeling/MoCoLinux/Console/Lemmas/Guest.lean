import MoCoLinux.Console.Lemmas.Contract

/-!
# The console rings: the guest
-/

namespace MoCoLinux.Console

open Threads (Prog)
open Threads.Prog (Safe)

variable {s s' : Console} {j : Nat}

abbrev WriterSafe {α : Type} (j : Nat) (Q : α → Console → Prop) (p : Prog Console α) (s : Console) : Prop :=
  p.Safe Inv (contract (.writer j)) (Apart (.writer j)) Q s

abbrev ReaderSafe {α : Type} (Q : α → Console → Prop) (p : Prog Console α) (s : Console) : Prop :=
  p.Safe Inv (contract .reader) (Apart .reader) Q s

@[simp] theorem inPos_touch (s : Console) (w : Index) : (s.touch w).inPos = s.inPos := rfl

@[simp] theorem got_touch (s : Console) (w : Index) : (s.touch w).got = s.got := rfl

theorem Inv.touch (h : s.Inv) (w : Index) : (s.touch w).Inv :=
  { h with }

theorem SameHost.touch (s : Console) (w : Index) : SameHost s (s.touch w) :=
  ⟨rfl, fun _ _ => rfl, rfl, rfl, rfl, rfl, rfl, rfl⟩

theorem Grows.touch (s : Console) (w : Index) : Grows s (s.touch w) :=
  ⟨rfl, rfl, List.prefix_rfl, List.prefix_rfl, Nat.le_refl _, Nat.le_refl _⟩

variable {w : Index}

theorem moving_ne (h : ∀ w, s'.touched w ≠ s.touched w → s.moving ≠ some w)
    (ht : s'.touched = (s.touch w).touched) : s.moving ≠ some w := by
  have hnext : (s.touch w).touched w = s.touched w + 1 := Function.update_self ..
  exact h w (by rw [ht, hnext]; exact Nat.succ_ne_self _)

theorem WriterSafe.load {α : Type} {P : Console → Prop} {k : Nat → Prog Console α}
    {Q : α → Console → Prop} (hst : ∀ {s s'}, P s → WriterRely j s s' → s'.Inv → P s')
    (h : ∀ s, P s → s.Inv → WriterSafe j Q (k (u32 (s.position w))) (s.touch w)) (hP : P s) :
    WriterSafe j Q (Console.load w >>= k) s := by
  refine Safe.act hst (fun s v t hP hinv hf hok => ?_) hP
  cases hf
  have hvalue : s.value w = u32 (s.position w) := hinv.words w (.inr (moving_ne hok rfl))
  refine ⟨⟨.touch s w, hinv.touch w, fun _ _ => Iff.rfl, fun _ _ _ => ⟨rfl, rfl⟩, rfl, .touch s w, ⟨rfl⟩⟩, ?_⟩
  rw [hvalue]
  exact h s hP hinv

theorem ReaderSafe.load {α : Type} {P : Console → Prop} {k : Nat → Prog Console α}
    {Q : α → Console → Prop} (hst : ∀ {s s'}, P s → ReaderRely s s' → s'.Inv → P s')
    (h : ∀ s, P s → s.Inv → ReaderSafe Q (k (u32 (s.position w))) (s.touch w)) (hP : P s) :
    ReaderSafe Q (Console.load w >>= k) s := by
  refine Safe.act hst (fun s v t hP hinv hf hok => ?_) hP
  cases hf
  have hvalue : s.value w = u32 (s.position w) := hinv.words w (.inr (moving_ne hok rfl))
  refine ⟨⟨.touch s w, hinv.touch w, rfl, rfl, .touch s w, ⟨rfl, rfl⟩⟩, ?_⟩
  rw [hvalue]
  exact h s hP hinv

theorem words_store {p : Nat} (h : ∀ w', w'.ofHost = false ∨ s.moving ≠ some w' → s.value w' = u32 (s.position w'))
    (hwords : s'.words = Function.update s.words w fun k => (Net.word32 (u32 p)).getD k 0)
    (hmoving : s'.moving = s.moving) (hpos : s'.position w = p) (hother : ∀ w', w' ≠ w → s'.position w' = s.position w') :
    ∀ w', w'.ofHost = false ∨ s'.moving ≠ some w' → s'.value w' = u32 (s'.position w') := by
  intro w' hw'
  by_cases heq : w' = w
  · subst heq
    rw [hpos]
    refine value_of_bytes (u32_lt p) fun k _ => ?_
    rw [hwords, Function.update_self]
  · rw [hother w' heq, ← h w' (by rwa [← hmoving])]
    refine value_congr ?_
    rw [hwords, Function.update_of_ne heq]

theorem words_owned {w' : Index} {v : Nat → UInt8} (hw : w.ofHost = false) (hne : s.moving ≠ some w)
    (h : w'.ofHost = true ∨ s.moving = some w') : Function.update s.words w v w' = s.words w' := by
  refine Function.update_of_ne ?_ _ _
  rintro rfl
  rcases h with h | h
  · rw [hw] at h
    exact Bool.false_ne_true h
  · exact hne h

/-- Thread `j` has put `bytes` behind the head; `h` is the position of `out_head`, and `t` is a position of
`out_tail` it has read. -/
structure Writing (j h t : Nat) (bytes : List UInt8) (s : Console) : Prop where
  outLock : s.outLock = some j
  head : s.outHead = h
  tail : t ≤ s.outPos
  room : h + bytes.length ≤ t + consoleOutSize
  written : Ring.slice consoleOutSize s.outRing h bytes.length = bytes

variable {h t : Nat}

theorem Writing.stable {bytes : List UInt8} (hw : Writing j h t bytes s) (hr : WriterRely j s s') :
    Writing j h t bytes s' := by
  obtain ⟨hring, hout⟩ := hr.owned hw.outLock
  refine ⟨hr.outLock.mpr hw.outLock, ?_, Nat.le_trans hw.tail hr.outPos, hw.room, by rw [hring]; exact hw.written⟩
  rw [outHead, hr.outStart, hout]
  exact hw.head

theorem Writing.update {bytes : List UInt8} (hw : Writing j h t bytes s) (hinv : s.Inv)
    (hroom : h + bytes.length < t + consoleOutSize) (b : UInt8) :
    WriterGuar j s { s with outRing := Function.update s.outRing ((h + bytes.length) % consoleOutSize) b } ∧
    Writing j h t (bytes ++ [b])
      { s with outRing := Function.update s.outRing ((h + bytes.length) % consoleOutSize) b } := by
  have htail := hw.tail
  have hhead : s.outStart + s.output.length = h := hw.head
  have hbehind := hinv.outWindow.tail_le
  constructor
  · refine ⟨⟨rfl, rfl, List.prefix_rfl, List.prefix_rfl, Nat.le_refl _, Nat.le_refl _⟩,
      { hinv with outWindow := hinv.outWindow.update (by omega) (by omega) },
      fun _ _ => Iff.rfl, fun k hk hl => ?_, rfl, ⟨rfl, fun _ _ => rfl, rfl, rfl, rfl, rfl, rfl, rfl⟩, ⟨rfl⟩⟩
    rw [hw.outLock, Option.some.injEq] at hl
    exact absurd hl.symm hk
  · refine ⟨hw.outLock, hw.head, hw.tail, ?_, ?_⟩
    · rw [List.length_append, List.length_singleton]
      omega
    · rw [List.length_append, List.length_singleton, Ring.slice_update_succ (by omega), hw.written]

theorem putLoop_safe (bs : List UInt8) : ∀ {bytes : List UInt8} {s : Console}, s.Inv →
    Writing j h t bytes s → t ≤ h →
    WriterSafe j (fun r s => ∃ n ≤ bs.length, r = (u32 (h + bytes.length + n), bytes.length + n) ∧
      Writing j h t (bytes ++ bs.take n) s) (putLoop (u32 t) bs (u32 (h + bytes.length)) bytes.length) s := by
  induction bs with
  | nil =>
    intro bytes s _ hw _
    refine Safe.ret (Safe.stays Writing.stable) (fun s hw _ => ?_) hw
    exact ⟨0, Nat.le_refl _, rfl, by simpa using hw⟩
  | cons b bs ih =>
    intro bytes s hinv hw hle
    have hsize : consoleOutSize = 4096 := rfl
    have hroom := hw.room
    rw [putLoop, Net.u32Sub_u32 (by omega) (by omega)]
    by_cases hfull : consoleOutSize ≤ h + bytes.length - t
    · rw [if_pos hfull]
      refine Safe.ret (Safe.stays Writing.stable) (fun s hw _ => ?_) hw
      exact ⟨0, Nat.zero_le _, rfl, by simpa using hw⟩
    · rw [if_neg hfull, outCell]
      refine Safe.write (Safe.stays Writing.stable) (fun s hw hinv _ => ?_) hw
      obtain ⟨hguar, hnext⟩ := hw.update hinv (by omega) b
      refine ⟨hguar, ?_⟩
      have hrest := ih hguar.inv hnext hle
      rw [List.length_append, List.length_singleton] at hrest
      rw [Net.u32_add, Nat.add_assoc]
      refine hrest.mono fun r s _ hr => ?_
      obtain ⟨n, hn, rfl, hw⟩ := hr
      refine ⟨n + 1, Nat.succ_le_succ hn, ?_, ?_⟩
      · rw [Prod.mk.injEq]
        exact ⟨congrArg u32 (by omega), by omega⟩
      · simpa using hw

variable {buf : List UInt8}

theorem Writing.publish {n : Nat} (hw : Writing j h t (buf.take n) s) (hn : n ≤ buf.length)
    (hinv : s.Inv) (hne : s.moving ≠ some .outHead) {s' : Console}
    (hs' : s' = { s.touch .outHead with
      words := Function.update s.words .outHead fun k => (Net.word32 (u32 (h + n))).getD k 0
      output := s.output ++ buf.take n }) : WriterGuar j s s' := by
  subst hs'
  have hlen : (buf.take n).length = n := List.length_take_of_le hn
  have hhead : s.outStart + s.output.length = h := hw.head
  have hroom := hw.room
  have htail := hw.tail
  have hwritten := hw.written
  rw [hlen] at hroom hwritten
  have hwindow := hinv.outWindow.publish (n := n) (by omega)
  rw [hhead, hwritten] at hwindow
  refine ⟨⟨rfl, rfl, List.prefix_rfl, List.prefix_append _ _, Nat.le_refl _, Nat.le_refl _⟩,
    ⟨hinv.inWindow, hwindow, ?_, hinv.still, hinv.got, hinv.taken, hinv.takenAll,
      hinv.returned.trans (List.prefix_append _ _), fun hl => ?_, hinv.results, hinv.synced⟩,
    fun _ _ => Iff.rfl, fun k hk hl => ?_, rfl,
    ⟨rfl, fun w hw => words_owned rfl hne hw, rfl, rfl, rfl, rfl, rfl, rfl⟩, ⟨rfl⟩⟩
  · refine words_store (w := .outHead) (p := h + n) hinv.words rfl rfl ?_ fun w hw => ?_
    · change s.outStart + (s.output ++ buf.take n).length = h + n
      rw [List.length_append, hlen]
      omega
    · cases w with
      | inHead => rfl
      | inTail => rfl
      | outHead => exact absurd rfl hw
      | outTail => rfl
  · have hbehind := hinv.outWindow.tail_le
    have hstart := hinv.outWindow.start_le
    change s.returned = (s.output ++ buf.take n).take (s.outPos - s.outStart)
    rw [List.take_append_of_le_length (by omega)]
    exact hinv.returnedAll hl
  · rw [hw.outLock, Option.some.injEq] at hl
    exact absurd hl.symm hk

theorem putChars_safe (hidle : s.outLock ≠ some j) (buf : List UInt8) :
    WriterSafe j (fun _ s => s.outLock ≠ some j) (putChars j buf) s := by
  refine Safe.await (P := fun s => s.outLock ≠ some j) (fun hP hr _ hl => hP (hr.outLock.mp hl))
    (fun s _ hinv hfree _ => ⟨?_, ?_⟩) hidle
  · refine ⟨⟨rfl, rfl, List.prefix_rfl, List.prefix_rfl, Nat.le_refl _, Nat.le_refl _⟩,
      { hinv with }, fun k hk => ?_, fun _ _ _ => ⟨rfl, rfl⟩, rfl,
      ⟨rfl, fun _ _ => rfl, rfl, rfl, rfl, rfl, rfl, rfl⟩, ⟨rfl⟩⟩
    have hnone : s.outLock = none := Option.isNone_iff_eq_none.mp hfree
    simp [hnone, Ne.symm hk]
  refine WriterSafe.load (P := fun s => s.outLock = some j) (fun hP hr _ => hr.outLock.mpr hP)
    (fun s hl hinv => ?_) rfl
  -- from here on the head is fixed, as the lock is held
  let h := s.outHead
  refine WriterSafe.load (P := fun s => s.outLock = some j ∧ s.outHead = h) (fun hP hr _ => ?_)
    (fun s hP hinv => ?_) ⟨hl, rfl⟩
  · refine ⟨hr.outLock.mpr hP.1, ?_⟩
    rw [outHead, hr.outStart, (hr.owned hP.1).output]
    exact hP.2
  have hwriting : Writing j h s.outPos [] (s.touch .outTail) := by
    refine ⟨hP.1, hP.2, Nat.le_refl _, ?_, rfl⟩
    rw [← hP.2]
    exact hinv.outWindow.fits
  have hle : s.outPos ≤ h := by
    rw [← hP.2]
    exact hinv.outWindow.tail_le
  refine Safe.bind (lawful (.writer j)) (hinv.touch _)
    ((putLoop_safe buf (hinv.touch _) hwriting hle).mono fun r s hinv hr => ?_)
  obtain ⟨n, hn, rfl, hw⟩ := hr
  rw [List.nil_append] at hw
  refine Safe.write (Safe.stays Writing.stable)
    (fun s hw hinv hok => ?_) hw
  have hguar := hw.publish hn hinv (moving_ne hok rfl) rfl
  simp only [List.length_nil, Nat.add_zero, Nat.zero_add]
  refine ⟨hguar, ?_⟩
  refine Safe.writeLast (P := fun s => s.outLock = some j) (fun hP hr _ => hr.outLock.mpr hP)
    (fun s hl hinv _ => ⟨?_, fun s' hr _ hl' => ?_⟩) hw.outLock
  · refine ⟨⟨rfl, rfl, List.prefix_rfl, List.prefix_rfl, Nat.le_refl _, Nat.le_refl _⟩,
      { hinv with }, fun k hk => ?_, fun _ _ _ => ⟨rfl, rfl⟩, rfl,
      ⟨rfl, fun _ _ => rfl, rfl, rfl, rfl, rfl, rfl, rfl⟩, ⟨rfl⟩⟩
    simp [hl, Ne.symm hk]
  · have := hr.outLock.mp hl'
    simp at this

structure Reading (t : Nat) (buf : List UInt8) (s : Console) : Prop where
  tail : s.inPos = t
  seen : t + buf.length ≤ s.inHead
  bytes : (s.input.drop (t - s.inStart)).take buf.length = buf

theorem Reading.stable (h : Reading t buf s) (hr : ReaderRely s s') (hinv : s'.Inv) :
    Reading t buf s' := by
  obtain ⟨rest, hrest⟩ := hr.input
  have hseen := h.seen
  have hstart := hinv.inWindow.start_le
  rw [hr.reader.inPos, h.tail, hr.inStart] at hstart
  rw [inHead] at hseen
  refine ⟨hr.reader.inPos.trans h.tail, ?_, ?_⟩
  · rw [inHead, hr.inStart, ← hrest, List.length_append]
    omega
  · rw [hr.inStart, ← hrest, List.drop_append_of_le_length (by omega),
      List.take_append_of_le_length (by rw [List.length_drop]; omega)]
    exact h.bytes

theorem Reading.next (h : Reading t buf s) (hinv : s.Inv)
    (hlt : t + buf.length < s.inHead) :
    Reading t (buf ++ [s.inRing ((t + buf.length) % consoleInSize)]) s := by
  have hstart := hinv.inWindow.start_le
  rw [h.tail] at hstart
  have hcell := hinv.inWindow.read (p := t + buf.length) (n := 1) (by rw [h.tail]; omega) hlt
  rw [Ring.slice, Ring.slice] at hcell
  refine ⟨h.tail, ?_, ?_⟩
  · rw [List.length_append, List.length_singleton]
    omega
  · rw [List.length_append, List.length_singleton, List.take_add, h.bytes, List.drop_drop,
      show t - s.inStart + buf.length = t + buf.length - s.inStart by omega, ← hcell]

theorem getLoop_safe (left : Nat) : ∀ {buf : List UInt8} {s : Console}, s.Inv → Reading t buf s →
    ReaderSafe (fun r s => r.1 = u32 (t + r.2.length) ∧ Reading t r.2 s) (getLoop left (u32 (t + buf.length)) buf) s := by
  induction left with
  | zero =>
    intro buf s _ h
    exact Safe.ret (P := Reading t buf) (fun h hr hinv => h.stable hr hinv) (fun s h _ => ⟨rfl, h⟩) h
  | succ left ih =>
    intro buf s hinv h
    refine ReaderSafe.load (P := Reading t buf) (fun h hr hinv => h.stable hr hinv) (fun s h hinv => ?_) h
    have hseen := h.seen
    have htouched : Reading t buf (s.touch .inHead) := { h with }
    by_cases hall : u32 (t + buf.length) = u32 (s.position .inHead)
    · rw [if_pos hall]
      exact Safe.ret (P := Reading t buf) (fun h hr hinv => h.stable hr hinv) (fun s h _ => ⟨rfl, h⟩) htouched
    · rw [if_neg hall, inCell]
      have hlt : t + buf.length < s.inHead :=
        Nat.lt_of_le_of_ne hseen fun heq => hall (congrArg u32 heq)
      refine Safe.read (lawful .reader) (P := fun s => Reading t buf s ∧ t + buf.length < s.inHead)
        (fun hP hr hinv => ?_) (fun s hP hinv => ?_) ⟨htouched, hlt⟩
      · refine ⟨hP.1.stable hr hinv, Nat.lt_of_lt_of_le hP.2 ?_⟩
        rw [inHead, inHead, hr.inStart]
        exact Nat.add_le_add_left hr.input.length_le _
      · have hrest := ih hinv (hP.1.next hinv hP.2)
        rwa [List.length_append, List.length_singleton, ← Nat.add_assoc, ← Net.u32_add] at hrest

theorem Reading.release (h : Reading t buf s) (hinv : s.Inv)
    (hne : s.moving ≠ some .inTail) {s' : Console}
    (hs' : s' = { s.touch .inTail with
      words := Function.update s.words .inTail fun k => (Net.word32 (u32 (t + buf.length))).getD k 0
      inPos := t + buf.length
      got := s.got ++ buf }) : ReaderGuar s s' := by
  subst hs'
  have htail := h.tail
  have hseen := h.seen
  have hstart := hinv.inWindow.start_le
  have hwindow : Ring.Window consoleInSize s.inRing s.inStart (t + buf.length) s.input :=
    hinv.inWindow.release (by omega) hseen
  refine ⟨⟨rfl, rfl, List.prefix_rfl, List.prefix_rfl, ?_, Nat.le_refl _⟩,
    { hinv with inWindow := hwindow, words := ?_, got := ?_ },
    rfl, rfl, ⟨rfl, fun w hw => words_owned rfl hne hw, rfl, rfl, rfl, rfl, rfl, rfl⟩, ⟨rfl, rfl⟩⟩
  · exact htail.trans_le (Nat.le_add_right _ _)
  · refine words_store (w := .inTail) (p := t + buf.length) hinv.words rfl rfl rfl fun w hw => ?_
    cases w with
    | inHead => rfl
    | inTail => exact absurd rfl hw
    | outHead => rfl
    | outTail => rfl
  · change s.got ++ buf = s.input.take (t + buf.length - s.inStart)
    rw [hinv.got, htail, show t + buf.length - s.inStart = t - s.inStart + buf.length by omega, List.take_add, h.bytes]

theorem getChars_safe (count : Nat) : ReaderSafe (fun _ _ => True) (getChars count) s := by
  refine ReaderSafe.load (P := fun _ => True) (fun _ _ _ => trivial) (fun s _ hinv => ?_) trivial
  have hreading : Reading s.inPos [] (s.touch .inTail) := ⟨rfl, hinv.inWindow.tail_le, rfl⟩
  refine Safe.bind (lawful .reader) (hinv.touch _)
    ((getLoop_safe count (hinv.touch _) hreading).mono fun r s hinv hr => ?_)
  obtain ⟨tail, buf⟩ := r
  obtain ⟨htail, hr⟩ := hr
  dsimp only at htail hr ⊢
  subst htail
  refine Safe.writeLast (P := Reading _ buf) (fun h hr hinv => h.stable hr hinv) (fun s h hinv hok => ?_) hr
  have hsub : u32Sub (u32 (s.inPos + buf.length)) (u32 s.inPos) = buf.length := by
    have hfits := hinv.inWindow.fits
    have hseen := h.seen
    have hsize : consoleInSize = 1024 := rfl
    rw [h.tail, inHead] at *
    rw [Net.u32Sub_u32 (Nat.le_add_right _ _) (by omega), Nat.add_sub_cancel_left]
  rw [h.tail] at hsub
  refine ⟨h.release hinv (moving_ne hok rfl) ?_, fun _ _ _ => trivial⟩
  simp only [inPos_touch, got_touch, h.tail, hsub]

end MoCoLinux.Console
