import MoCoLinux.Net.Lemmas.Rx

/-!
# The receive ring: the host
-/

namespace MoCoLinux.Net

open Threads (Prog)
open Threads.Prog (Safe)

namespace Rx

variable {s s' : Rx} {i : Nat}

structure Entered (i h : Nat) (s : Rx) : Prop where
  lock : s.lock = some i
  head : s.head = h
  entered : s.entered = s.rxHead
  enteredFrames : s.enteredFrames = s.published.length

/-- Caller `i` has written `bytes` behind the head; `t` is a position of the tail it has read. -/
structure Filling (i h t : Nat) (bytes : List UInt8) (s : Rx) : Prop extends Entered i h s where
  tail : t ≤ s.tail
  room : h + bytes.length ≤ t + ringSize
  written : Ring.slice ringSize s.rx h bytes.length = bytes

variable {h : Nat}

theorem Entered.stable (he : Entered i h s) (hr : HostRely i s s') : Entered i h s' := by
  obtain ⟨-, hhead, hstream, hpub, hent, hframes⟩ := hr.owned he.lock
  refine ⟨hr.lock.mpr he.lock, ?_, ?_, ?_⟩
  · rw [Rx.head, hr.start, hstream]
    exact he.head
  · rw [hent, hhead, he.entered]
  · rw [hframes, hpub, he.enteredFrames]

variable {t : Nat} {bytes : List UInt8}

theorem Filling.stable (hf : Filling i h t bytes s) (hr : HostRely i s s') :
    Filling i h t bytes s' := by
  obtain ⟨hrx, -⟩ := hr.owned hf.lock
  exact ⟨hf.toEntered.stable hr, Nat.le_trans hf.tail hr.tail, hf.room, by rw [hrx]; exact hf.written⟩

theorem Filling.update (hf : Filling i h t bytes s) (hinv : s.Inv)
    (hroom : h + bytes.length < t + ringSize) (b : UInt8) :
    HostGuar i s { s with rx := Function.update s.rx ((h + bytes.length) % ringSize) b } ∧
    Filling i h t (bytes ++ [b]) { s with rx := Function.update s.rx ((h + bytes.length) % ringSize) b } := by
  have htail := hf.tail
  have hhead : s.start + s.stream.length = h := hf.head
  have hbehind := hinv.window.tail_le
  refine ⟨⟨{ GuestRely.refl s with }, { hinv with window := ?_ }, fun _ _ => Iff.rfl, ?_⟩, ?_⟩
  · exact hinv.window.update (by omega) (by omega)
  · intro j hj hl
    rw [hf.lock, Option.some.injEq] at hl
    exact absurd hl.symm hj
  · refine ⟨{ hf with }, hf.tail, ?_, ?_⟩
    · rw [List.length_append, List.length_singleton]
      omega
    · rw [List.length_append, List.length_singleton, Ring.slice_update_succ (by omega), hf.written]

abbrev HostSafe {α : Type} (i : Nat) (Q : α → Rx → Prop) (p : Prog Rx α) (s : Rx) : Prop :=
  p.Safe Inv (contract (.host i)) (fun _ _ => True) Q s

theorem HostSafe.entered {α : Type} {a : α} {Q : α → Rx → Prop} (he : Entered i h s)
    (hQ : ∀ s, Entered i h s → Q a s) : HostSafe i Q (pure a) s :=
  Safe.ret (Safe.stays Entered.stable) (fun s he _ => hQ s he) he

theorem copyIn_safe (bs : List UInt8) : ∀ {off : Nat} {bytes : List UInt8} {s : Rx}, s.Inv →
    Filling i h t bytes s → (∀ k < bs.length, off + k = (h + bytes.length + k) % ringSize) →
    h + bytes.length + bs.length ≤ t + ringSize →
    HostSafe i (fun ok s => if ok then Filling i h t (bytes ++ bs) s else Entered i h s) (copyIn off bs) s := by
  induction bs with
  | nil =>
    intro off bytes s _ hf _ _
    refine Safe.ret (Safe.stays Filling.stable) (fun s hf _ => ?_) hf
    simpa using hf
  | cons b bs ih =>
    intro off bytes s hinv hf hoff hroom
    rw [List.length_cons] at hoff hroom
    refine Safe.pick fun works => ?_
    by_cases hw : works = 0
    · rw [if_pos hw]
      exact HostSafe.entered hf.toEntered fun s he => by simpa using he
    · rw [if_neg hw]
      refine Safe.write (Safe.stays Filling.stable) (fun s hf hinv _ => ?_) hf
      have hcell : off = (h + bytes.length) % ringSize := by simpa using hoff 0 (by omega)
      obtain ⟨hguar, hnext⟩ := hf.update hinv (by omega) b
      rw [← hcell] at hguar hnext
      refine ⟨hguar, ?_⟩
      have hrest := @ih (off + 1) _ _ hguar.inv hnext (fun k hk => ?_) (by simp; omega)
      · simpa using hrest
      · have := hoff (k + 1) (by omega)
        rw [List.length_append, List.length_singleton]
        rw [show h + (bytes.length + 1) + k = h + bytes.length + (k + 1) by omega, ← this]
        omega

theorem Filling.extend (hf : Filling i h t bytes s) {n : Nat}
    (hroom : h + bytes.length + n ≤ t + ringSize) :
    Filling i h t (bytes ++ Ring.slice ringSize s.rx (h + bytes.length) n) s := by
  refine ⟨hf.toEntered, hf.tail, ?_, ?_⟩
  · rw [List.length_append, Ring.length_slice]
    omega
  · rw [List.length_append, Ring.length_slice, Ring.slice_add, hf.written]

variable {len : Nat}

theorem putFrame_safe {pos : Nat} {data : Nat → UInt8} (hinv : s.Inv)
    (hf : Filling i h t bytes s) (hlen : len ≤ maxFrame) (hroom : h + bytes.length + len ≤ t + ringSize) :
    HostSafe i (fun ok s => if ok then Filling i h t (bytes ++ bytesAt data (pos + 4) len) s else Entered i h s)
      (putFrame data ((h + bytes.length) % ringSize) pos len) s := by
  have hmax : len ≤ 1514 := hlen
  have hsize : ringSize = 131072 := rfl
  have hlt : (h + bytes.length) % ringSize < ringSize := Nat.mod_lt _ (by decide)
  unfold putFrame
  dsimp only
  generalize hfirst : (if len < ringSize - (h + bytes.length) % ringSize then len
    else ringSize - (h + bytes.length) % ringSize) = first
  have hle : first ≤ len ∧ (h + bytes.length) % ringSize + first ≤ ringSize ∧
      (first < len → (h + bytes.length) % ringSize + first = ringSize) := by
    split at hfirst <;> omega
  refine Safe.bind (lawful (.host i)) hinv ((copyIn_safe _ hinv hf (fun k hk => ?_) ?_).mono fun ok s hinv hQ => ?_)
  · rw [length_bytesAt] at hk
    exact (Ring.cell_add (by omega)).symm
  · rw [length_bytesAt]
    omega
  cases ok with
  | false =>
    rw [if_neg Bool.false_ne_true] at hQ ⊢
    exact HostSafe.entered hQ fun s he => by simpa using he
  | true =>
    rw [if_pos rfl] at hQ ⊢
    have hsplit : bytesAt data (pos + 4) len =
        bytesAt data (pos + 4) first ++ bytesAt data (pos + 4 + first) (len - first) := by
      rw [← bytesAt_add, Nat.add_sub_cancel' hle.1]
    by_cases hwrap : first < len
    · rw [if_pos hwrap]
      refine (copyIn_safe _ hinv hQ (fun k hk => ?_) ?_).mono fun ok s _ hQ => ?_
      · rw [length_bytesAt] at hk
        rw [List.length_append, length_bytesAt,
          show h + (bytes.length + first) + k = h + bytes.length + (first + k) by omega,
          Ring.cell_wrap (by omega) (by omega)]
        omega
      · simp only [List.length_append, length_bytesAt]
        omega
      · rwa [hsplit, ← List.append_assoc]
    · rw [if_neg hwrap]
      have heq : first = len := by omega
      subst heq
      refine Safe.ret (Safe.stays Filling.stable) (fun s hf _ => ?_) hQ
      simpa using hf

theorem putRecord_safe {pos : Nat} {data : Nat → UInt8} {head : Nat} (hinv : s.Inv)
    (hf : Filling i h t bytes s) (hal : (h + bytes.length) % 4 = 0) (hhead : head = u32 (h + bytes.length))
    (hlen : len ≤ maxFrame) (hroom : h + bytes.length + recordBytes len ≤ t + ringSize) :
    HostSafe i (fun ok s => if ok then ∃ pad : List UInt8, pad.length + (4 + len) = recordBytes len ∧
        Filling i h t (bytes ++ (word32 len ++ bytesAt data (pos + 4) len ++ pad)) s else Entered i h s)
      (putRecord data head pos len) s := by
  have hmax : len ≤ 1514 := hlen
  have hrec := recordBytes_eq hlen
  have hsize : ringSize = 131072 := rfl
  have hoff : head &&& (ringSize - 1) = (h + bytes.length) % ringSize := by
    rw [and_ringMask, hhead, u32, Ring.index_cell (by decide)]
  have hcell : (h + bytes.length) % ringSize % 4 = 0 := by
    rw [Nat.mod_mod_of_dvd _ (by decide : 4 ∣ ringSize)]
    exact hal
  have hlt : (h + bytes.length) % ringSize < ringSize := Nat.mod_lt _ (by decide)
  have hnext : ((h + bytes.length) % ringSize + 4) &&& (ringSize - 1) =
      (h + (bytes ++ word32 len).length) % ringSize := by
    rw [and_ringMask, Nat.mod_add_mod, List.length_append, length_word32, Nat.add_assoc]
  unfold putRecord
  rw [hoff, hnext]
  refine Safe.bind (lawful (.host i)) hinv ((copyIn_safe _ hinv hf (fun k hk => ?_) ?_).mono fun ok s hinv hQ => ?_)
  · rw [length_word32] at hk
    exact (Ring.cell_add (by omega)).symm
  · rw [length_word32]
    omega
  cases ok with
  | false =>
    rw [if_neg Bool.false_ne_true] at hQ ⊢
    exact HostSafe.entered hQ fun s he => by simpa using he
  | true =>
    rw [if_pos rfl] at hQ ⊢
    have hbytes : (bytes ++ word32 len).length = bytes.length + 4 := by rw [List.length_append, length_word32]
    refine (putFrame_safe hinv hQ hlen (by omega)).mono fun ok s _ hQ => ?_
    cases ok with
    | false => simpa using hQ
    | true =>
      rw [if_pos rfl] at hQ ⊢
      have hframe : (bytes ++ word32 len ++ bytesAt data (pos + 4) len).length = bytes.length + 4 + len := by
        rw [List.length_append, hbytes, length_bytesAt]
      have hpad := hQ.extend (n := recordBytes len - (4 + len)) (by omega)
      simp only [List.append_assoc] at hpad ⊢
      refine ⟨_, ?_, hpad⟩
      rw [Ring.length_slice]
      omega

/-- The records of `frames` stand behind the head, as they stand at the front of the buffer. -/
structure Batched (i h t : Nat) (c : PutCall) (frames : List Frame) (bytes : List UInt8) (s : Rx) : Prop
    extends Filling i h t bytes s where
  records : Records bytes frames
  source : Records (bytesAt c.data 0 bytes.length) frames
  inside : bytes.length ≤ c.size

variable {c : PutCall} {frames : List Frame}

theorem Batched.stable (hb : Batched i h t c frames bytes s) (hr : HostRely i s s') : Batched i h t c frames bytes s' :=
  { hb with toFilling := hb.toFilling.stable hr }

def Looped (i h t : Nat) (c : PutCall) (r : Except Rc (Nat × Nat)) (s : Rx) : Prop :=
  match r with
  | .error rc => rc ≠ .ok ∧ Entered i h s
  | .ok (head, n) => n ≤ c.frames ∧ ∃ frames bytes, Batched i h t c frames bytes s ∧ frames.length = n ∧
      head = u32 (h + bytes.length)

theorem bytesAt_four (data : Nat → UInt8) (pos : Nat) :
    bytesAt data pos 4 = [data pos, data (pos + 1), data (pos + 2), data (pos + 3)] := rfl

theorem Batched.append {pad : List UInt8}
    (hb : Batched i h t c frames bytes s) {s' : Rx} (hlen : len = le32 (bytesAt c.data bytes.length 4))
    (hpos : len ≠ 0) (hmax : len ≤ maxFrame) (hsize : bytes.length + recordBytes len ≤ c.size)
    (hpad : pad.length + (4 + len) = recordBytes len)
    (hf : Filling i h t (bytes ++ (word32 len ++ bytesAt c.data (bytes.length + 4) len ++ pad)) s') :
    Batched i h t c (frames ++ [bytesAt c.data (bytes.length + 4) len])
      (bytes ++ (word32 len ++ bytesAt c.data (bytes.length + 4) len ++ pad)) s' := by
  have hframe : (bytesAt c.data (bytes.length + 4) len).length = len := length_bytesAt
  have hlegal : Legal (bytesAt c.data (bytes.length + 4) len) := by
    rw [Legal, hframe]
    omega
  have hword : bytesAt c.data bytes.length 4 = word32 len := by
    rw [hlen, bytesAt_four, word32_le32]
  have htotal : (bytes ++ (word32 len ++ bytesAt c.data (bytes.length + 4) len ++ pad)).length =
      bytes.length + recordBytes len := by
    simp only [List.length_append, length_word32, length_bytesAt]
    omega
  have hone : ∀ pad' : List UInt8, pad'.length + (4 + len) = recordBytes len →
      Records (word32 len ++ bytesAt c.data (bytes.length + 4) len ++ pad')
        [bytesAt c.data (bytes.length + 4) len] := by
    intro pad' hpad'
    have hrecord : pad'.length + (4 + (bytesAt c.data (bytes.length + 4) len).length) =
        recordBytes (bytesAt c.data (bytes.length + 4) len).length := by rwa [hframe]
    have h := Records.singleton hlegal hrecord
    rwa [hframe] at h
  refine ⟨hf, hb.records.append (hone pad hpad), ?_, by omega⟩
  have hsource : bytesAt c.data 0 (bytes.length + recordBytes len) = bytesAt c.data 0 bytes.length ++
      (word32 len ++ bytesAt c.data (bytes.length + 4) len ++
        bytesAt c.data (bytes.length + 4 + len) (recordBytes len - (4 + len))) := by
    have hsplit : recordBytes len = 4 + (len + (recordBytes len - (4 + len))) := by omega
    rw [bytesAt_add, Nat.zero_add, ← hword, List.append_assoc (bytesAt c.data bytes.length 4), ← bytesAt_add,
      ← bytesAt_add, ← hsplit]
  rw [htotal, hsource]
  exact hb.source.append (hone _ (by rw [length_bytesAt]; omega))

theorem putLoop_safe (hth : t ≤ h) (hal : h % 4 = 0) (left : Nat) :
    ∀ {n : Nat} {frames : List Frame} {bytes : List UInt8} {s : Rx}, s.Inv → Batched i h t c frames bytes s →
      frames.length = n → n + left ≤ c.frames →
      HostSafe i (Looped i h t c) (putLoop c.data c.size (u32 t) left (u32 (h + bytes.length)) bytes.length n) s := by
  induction left with
  | zero =>
    intro n frames bytes s _ hb hn hmax
    refine Safe.ret (Safe.stays Batched.stable) (fun s hb _ => ?_) hb
    exact ⟨hmax, frames, bytes, hb, hn, rfl⟩
  | succ left ih =>
    intro n frames bytes s hinv hb hn hmax
    have hsize : ringSize = 131072 := rfl
    have hroom := hb.room
    have hfail : ∀ rc : Rc, rc ≠ .ok → HostSafe i (Looped i h t c) (pure (.error rc)) s := fun rc hrc =>
      HostSafe.entered hb.toEntered fun s he => ⟨hrc, he⟩
    have hinvalid := hfail .invalidParameter (by decide)
    rw [putLoop]
    split
    · exact hinvalid
    dsimp only
    split
    · exact hinvalid
    next hlen =>
    rw [not_or, Nat.not_lt] at hlen
    have hrec := recordBytes_eq hlen.2
    have hmaxlen : le32 (bytesAt c.data bytes.length 4) ≤ 1514 := hlen.2
    rw [u32_of_lt (by omega : bytes.length + recordBytes (le32 (bytesAt c.data bytes.length 4)) < 2 ^ 32),
      u32Sub_u32 (by omega) (by omega),
      u32_of_lt (by omega : h + bytes.length - t + recordBytes (le32 (bytesAt c.data bytes.length 4)) < 2 ^ 32)]
    split
    · exact hinvalid
    next hin =>
    split
    · refine Safe.ret (Safe.stays Batched.stable)
        (fun s hb _ => ?_) hb
      exact ⟨by omega, frames, bytes, hb, hn, rfl⟩
    next hfull =>
    have haligned := hb.records.aligned
    refine Safe.bind (lawful (.host i)) hinv
      ((putRecord_safe hinv hb.toFilling (by omega) rfl hlen.2 (by omega)).mono fun ok s hinv hQ => ?_)
    cases ok with
    | false =>
      rw [if_neg Bool.false_ne_true] at hQ ⊢
      exact HostSafe.entered hQ fun s he => ⟨by decide, he⟩
    | true =>
      rw [if_pos rfl] at hQ ⊢
      obtain ⟨pad, hpad, hf⟩ := hQ
      have hnext := hb.append rfl hlen.1 hlen.2 (by omega) hpad hf
      have hbytes : (bytes ++ (word32 (le32 (bytesAt c.data bytes.length 4)) ++
          bytesAt c.data (bytes.length + 4) (le32 (bytesAt c.data bytes.length 4)) ++ pad)).length =
            bytes.length + recordBytes (le32 (bytesAt c.data bytes.length 4)) := by
        simp only [List.length_append, length_word32, length_bytesAt]
        omega
      have hloop := ih (n := n + 1) hinv hnext (by simp [hn]) (by omega)
      rw [hbytes] at hloop
      rwa [u32_add, Nat.add_assoc]

/-! ## Publishing -/

structure Sent (i : Nat) (frames : List Frame) (s : Rx) : Prop where
  lock : s.lock = some i
  word : s.entered < 2 ^ 32
  rxHead : s.rxHead = u32 (s.entered + recordsBytes frames)
  published : s.published.drop s.enteredFrames = frames

theorem Sent.stable (h : Sent i frames s) (hr : HostRely i s s') : Sent i frames s' := by
  obtain ⟨-, hhead, -, hpub, hent, hframes⟩ := hr.owned h.lock
  exact ⟨hr.lock.mpr h.lock, hent ▸ h.word, by rw [hhead, hent]; exact h.rxHead,
    by rw [hpub, hframes]; exact h.published⟩

theorem Entered.word (he : Entered i h s) (hinv : s.Inv) : s.entered < 2 ^ 32 := by
  rw [he.entered, hinv.rxHead]
  exact Nat.mod_lt _ (by decide)

theorem Entered.sent (he : Entered i h s) (hinv : s.Inv) : Sent i [] s := by
  refine ⟨he.lock, he.word hinv, ?_, ?_⟩
  · rw [recordsBytes_nil, Nat.add_zero, he.entered, hinv.rxHead, u32, u32, Nat.mod_mod]
  · rw [he.enteredFrames, List.drop_length]

theorem Batched.publish (hinv : s.Inv)
    (hb : Batched i h t c frames bytes s) :
    let s' := { s with
      rxHead := u32 (h + bytes.length), stream := s.stream ++ bytes, published := s.published ++ frames }
    HostGuar i s s' ∧ Sent i frames s' := by
  intro s'
  have hsize : ringSize = 131072 := rfl
  have hroom := hb.room
  have htail := hb.tail
  have hhead : s.start + s.stream.length = h := hb.head
  have hwindow := hinv.window.publish (n := bytes.length) (by omega)
  rw [hhead, hb.written] at hwindow
  have htake : (s.published ++ frames).take s.extracted.length = s.published.take s.extracted.length :=
    List.take_append_of_le_length hinv.count
  refine ⟨⟨⟨rfl, rfl, rfl, rfl, List.prefix_append _ _, List.prefix_append _ _⟩, ⟨hwindow,
    hinv.records.append hb.records, hinv.aligned, ?_, hinv.rxTail, ?_, ?_, hinv.dropped, hinv.synced, hinv.results⟩,
    fun _ _ => Iff.rfl, fun j hj hl => ?_⟩, hb.lock, hb.word hinv, ?_, ?_⟩
  · rw [Rx.head, List.length_append, ← Nat.add_assoc, hhead]
  · rw [htake]
    exact hinv.took
  · rw [List.length_append]
    exact Nat.le_trans hinv.count (Nat.le_add_right _ _)
  · rw [hb.lock, Option.some.injEq] at hl
    exact absurd hl.symm hj
  · rw [hb.entered, hinv.rxHead, hb.head, u32_add, ← hb.records.length]
  · rw [hb.enteredFrames, List.drop_left]

theorem publish_safe (hinv : s.Inv)
    (hth : t ≤ h) (hb : Batched i h t c frames bytes s) :
    HostSafe i (fun rc s => rc = .ok ∧ Sent i frames s ∨ rc ≠ .ok ∧ Sent i [] s)
      (publish (u32 (h + bytes.length)) frames.length) s := by
  refine Safe.pick fun works => ?_
  by_cases hw : works = 0
  · rw [if_pos hw]
    exact Safe.ret (P := Sent i []) (fun h hr _ => h.stable hr) (fun s h _ => .inr ⟨by decide, h⟩)
      (hb.toEntered.sent hinv)
  · rw [if_neg hw]
    refine Safe.write (Safe.stays Batched.stable)
      (fun s hb hinv _ => ?_) hb
    have hsize : ringSize = 131072 := rfl
    have hroom := hb.room
    have hcount : u32Sub (u32 (h + bytes.length)) s.rxHead = bytes.length := by
      rw [hinv.rxHead, hb.head, u32Sub_u32 (by omega) (by omega), Nat.add_sub_cancel_left]
    have hdecode : decode frames.length bytes = frames := by
      rw [hb.records.decode _ (Nat.le_refl _), List.take_length]
    obtain ⟨hguar, hsent⟩ := hb.publish hinv
    simp only [hcount, hb.head, hb.written, hdecode]
    refine ⟨hguar, ?_⟩
    exact Safe.ret (Safe.stays Sent.stable) (fun s h _ => .inl ⟨rfl, h⟩) hsent

/-! ## A whole call -/

def Answered (i : Nat) (c : PutCall) (r : Rc × Nat) (s : Rx) : Prop :=
  (r.1 = .ok ∧ 1 ≤ r.2 ∧ r.2 ≤ c.frames ∧ ∃ frames, frames.length = r.2 ∧
    Records (bytesAt c.data 0 (recordsBytes frames)) frames ∧ recordsBytes frames ≤ c.size ∧ Sent i frames s) ∨
  (r.1 ≠ .ok ∧ r.2 = 0 ∧ Sent i [] s)

variable {r : Rc × Nat}

theorem Answered.stable (h : Answered i c r s) (hr : HostRely i s s') :
    Answered i c r s' := by
  rcases h with ⟨hok, h1, hle, frames, hn, hrec, hin, hs⟩ | ⟨hne, h0, hs⟩
  · exact .inl ⟨hok, h1, hle, frames, hn, hrec, hin, hs.stable hr⟩
  · exact .inr ⟨hne, h0, hs.stable hr⟩

theorem HostSafe.refused {rc : Rc} (hinv : s.Inv) (hrc : rc ≠ .ok) (he : Entered i h s) :
    HostSafe i (Answered i c) (pure (rc, 0)) s :=
  Safe.ret (P := Sent i []) (fun h hr _ => h.stable hr) (fun _ h _ => .inr ⟨hrc, rfl, h⟩) (he.sent hinv)

theorem finish_safe (hinv : s.Inv)
    (hth : t ≤ h) (hb : Batched i h t c frames bytes s) (hmax : frames.length ≤ c.frames) :
    HostSafe i (Answered i c) (do
      let rc ← if frames.length ≠ 0 then publish (u32 (h + bytes.length)) frames.length else pure .ok
      if rc = .ok then if frames.length = 0 then pure (.outOfMemory, 0) else pure (.ok, frames.length)
      else pure (rc, 0)) s := by
  by_cases h0 : frames.length = 0
  · simp only [h0, ne_eq, not_true_eq_false, if_false, if_true]
    exact HostSafe.refused hinv (by decide) hb.toEntered
  · simp only [ne_eq, h0, not_false_eq_true, if_true, if_false]
    refine Safe.bind (lawful (.host i)) hinv ((publish_safe hinv hth hb).mono fun rc s hinv hQ => ?_)
    rcases hQ with ⟨rfl, hs⟩ | ⟨hne, hs⟩
    · rw [if_pos rfl]
      have hlen := hb.records.length
      refine Safe.ret (Safe.stays Sent.stable) (fun s hs _ => ?_) hs
      exact .inl ⟨rfl, by omega, hmax, frames, rfl, hlen ▸ hb.source, hlen ▸ hb.inside, hs⟩
    · rw [if_neg hne]
      exact Safe.ret (P := Sent i []) (fun h hr _ => h.stable hr) (fun _ h _ => .inr ⟨hne, rfl, h⟩) hs

theorem readU32_safe {word : Rx → Nat} {Q : Option Nat → Rx → Prop} (he : Entered i h s)
    (hnone : ∀ s, Entered i h s → Q none s) (hsome : ∀ s s', Entered i h s → s.Inv → HostRely i s s' →
      Q (some (word s)) s') : HostSafe i Q (readU32 word) s := by
  refine Safe.pick fun works => ?_
  by_cases hw : works = 0
  · rw [if_pos hw]
    exact HostSafe.entered he hnone
  · rw [if_neg hw]
    refine Safe.read (lawful (.host i)) (Safe.stays Entered.stable)
      (fun s he hinv => ?_) he
    exact fun s' hr _ => hsome s s' he hinv hr

theorem putLocked_safe (he : Entered i h s) :
    HostSafe i (Answered i c) (putLocked c) s := by
  refine Safe.read (lawful (.host i)) (Safe.stays Entered.stable)
    (fun s he hinv => ?_) he
  split
  · exact HostSafe.refused hinv (by decide) he
  refine Safe.bind (lawful (.host i)) hinv ((readU32_safe (Q := fun r s => Entered i h s ∧
    ∀ w, r = some w → w = u32 h) he (fun s he => ⟨he, by simp⟩) fun s s' he hinv hr => ⟨he.stable hr, ?_⟩).mono
    fun r s hinv hQ => ?_)
  · rintro w ⟨⟩
    rw [hinv.rxHead, he.head]
  obtain ⟨he, hhead⟩ := hQ
  cases r with
  | none => exact HostSafe.refused hinv (by decide) he
  | some head =>
    cases hhead head rfl
    refine Safe.bind (lawful (.host i)) hinv ((readU32_safe (Q := fun r s => Entered i h s ∧
      ∀ w, r = some w → ∃ t, w = u32 t ∧ t ≤ s.tail ∧ t ≤ h ∧ h ≤ t + ringSize) he
      (fun s he => ⟨he, by simp⟩) fun s s' he hinv hr => ⟨he.stable hr, ?_⟩).mono fun r s hinv hQ => ?_)
    · rintro w ⟨⟩
      have hle : s.tail ≤ s.head := hinv.window.tail_le
      have hfit : s.head ≤ s.tail + ringSize := hinv.window.fits
      rw [he.head] at hle hfit
      exact ⟨s.tail, hinv.rxTail, hr.tail, hle, hfit⟩
    obtain ⟨he, htail⟩ := hQ
    cases r with
    | none => exact HostSafe.refused hinv (by decide) he
    | some tail =>
      obtain ⟨t, rfl, hts, hth, hfit⟩ := htail tail rfl
      dsimp only
      split
      · exact HostSafe.refused hinv (by decide) he
      have halign : h % 4 = 0 := by
        have hstart := hinv.aligned
        have hstream := hinv.records.aligned
        rw [← he.head, Rx.head]
        omega
      have hb : Batched i h t c [] [] s :=
        ⟨⟨he, hts, hfit, rfl⟩, .nil, .nil, Nat.zero_le _⟩
      refine Safe.bind (lawful (.host i)) hinv
        ((putLoop_safe hth halign c.frames hinv hb rfl (by simp)).mono fun r s hinv hQ => ?_)
      cases r with
      | error rc => exact HostSafe.refused hinv hQ.1 hQ.2
      | ok r =>
        obtain ⟨head, n⟩ := r
        obtain ⟨hmax, frames, bytes, hb, rfl, rfl⟩ := hQ
        exact finish_safe hinv hth hb hmax

theorem Answered.lock (h : Answered i c r s) : s.lock = some i := by
  rcases h with ⟨-, -, -, frames, -, -, -, hs⟩ | ⟨-, -, hs⟩
  · exact hs.lock
  · exact hs.lock

theorem Answered.good (h : Answered i c r s) :
    PutResult.Good ⟨c, r.1, r.2, s.entered, s.rxHead, s.published.drop s.enteredFrames⟩ := by
  rcases h with ⟨hok, h1, hle, frames, hn, hrec, hin, hs⟩ | ⟨hne, h0, hs⟩
  · exact .inl ⟨hok, h1, hle, frames, hn, hrec, hin, hs.rxHead, hs.published⟩
  · refine .inr ⟨hne, h0, ?_, hs.published⟩
    have hhead := hs.rxHead
    rwa [recordsBytes_nil, Nat.add_zero, u32_of_lt hs.word] at hhead

theorem Inv.result (hinv : s.Inv) {r : PutResult} (hr : r.Good) (lock : Option Nat) :
    Inv { s with lock := lock, results := s.results ++ [r] } := by
  refine { hinv with results := fun r' hr' => ?_ }
  rcases List.mem_append.mp hr' with hr' | hr'
  · exact hinv.results r' hr'
  · cases List.mem_singleton.mp hr'
    exact hr

theorem put_safe (hidle : s.lock ≠ some i) :
    HostSafe i (fun _ s => s.lock ≠ some i) (put i c) s := by
  have hst : ∀ {s s' : Rx}, s.lock ≠ some i → HostRely i s s' → s'.Inv → s'.lock ≠ some i :=
    fun hl hr _ hl' => hl (hr.lock.mp hl')
  refine Safe.read (lawful (.host i)) (P := fun s => s.lock ≠ some i) hst (fun s hidle hinv => ?_) hidle
  split
  · refine Safe.await (P := fun s => s.lock ≠ some i) hst (fun s hidle hinv hfree _ => ?_) hidle
    have hnone : s.lock = none := Option.isNone_iff_eq_none.mp hfree
    refine ⟨⟨{ GuestRely.refl s with }, { hinv with }, fun j hj => ?_, fun j _ hl => ?_⟩, ?_⟩
    · rw [hnone]
      exact ⟨fun h => absurd (Option.some.inj h).symm hj, nofun⟩
    · rw [hnone] at hl
      cases hl
    have hinv' : Inv { s with lock := some i, entered := s.rxHead, enteredFrames := s.published.length } :=
      { hinv with }
    have hentered : Entered i s.head
        { s with lock := some i, entered := s.rxHead, enteredFrames := s.published.length } := ⟨rfl, rfl, rfl, rfl⟩
    refine Safe.bind (lawful (.host i)) hinv' ((putLocked_safe hentered).mono fun r s hinv hQ => ?_)
    refine Safe.writeLast (Safe.stays Answered.stable) (fun s hQ hinv _ => ?_) hQ
    refine ⟨⟨{ GuestRely.refl s with }, hinv.result hQ.good none, fun j hj => ?_, fun _ _ _ => .refl s⟩,
      fun s' hr hinv => hst (by simp) hr hinv⟩
    rw [hQ.lock]
    exact ⟨nofun, fun h => absurd (Option.some.inj h).symm hj⟩
  · refine Safe.writeLast (P := fun s => s.lock ≠ some i) hst (fun s hidle hinv _ => ?_) hidle
    refine ⟨⟨{ GuestRely.refl s with }, hinv.result (.inr ⟨by simp, rfl, rfl, rfl⟩) s.lock, fun _ _ => Iff.rfl,
      fun _ _ _ => .refl s⟩,
      fun s' hr _ hl => hidle (hr.lock.mp hl)⟩

end Rx

end MoCoLinux.Net
