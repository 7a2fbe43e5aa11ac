import Mathlib.Data.List.Forall2
import MoCoLinux.Copresent.Lemmas.Channel

/-!
# The daemon and `response_thread`
-/

namespace MoCoLinux.Copresent

open Threads (Contract Prog)
open Threads.Prog (Safe)

variable {g : Pages} {gen h D k : Nat} {s s' : Channel} {request r : Record} {ok : Channel → Channel → Prop}

/-! ## What the main thread knows during a poll -/

structure Polling (h D : Nat) (s : Channel) : Prop where
  lock : s.channelLock = some .main
  handled : s.handled.length = h
  answers : s.answers.length = h
  due : s.due = D
  visible : D ≤ s.written.length

structure Serving (h D : Nat) (request : Record) (s : Channel) : Prop where
  lock : s.channelLock = some .main
  handled : s.handled.length = h + 1
  request : s.handled[h]? = some request
  answers : s.answers.length = h
  due : s.due = D
  visible : D ≤ s.written.length

structure Responding (g : Pages) (h D : Nat) (request r : Record) (k : Nat) (s : Channel) : Prop extends
    Serving h D request s where
  room : h < s.consumed.length + ringSlots
  filled : k ≤ 16 ∧ Filled g s.mem .rx h r k

theorem Polling.stable (hp : Polling h D s) (hr : MainRely g s s') : Polling h D s' := by
  refine ⟨hr.daemon.lock.mpr hp.lock, ?_, ?_, hr.host.due.trans hp.due, Nat.le_trans hp.visible hr.written.length_le⟩
  · rw [hr.host.handled]
    exact hp.handled
  · rw [hr.host.answers]
    exact hp.answers

theorem Serving.stable (hs : Serving h D request s) (hr : MainRely g s s') : Serving h D request s' := by
  refine ⟨hr.daemon.lock.mpr hs.lock, ?_, ?_, ?_, hr.host.due.trans hs.due,
    Nat.le_trans hs.visible hr.written.length_le⟩
  · rw [hr.host.handled]
    exact hs.handled
  · rw [hr.host.handled]
    exact hs.request
  · rw [hr.host.answers]
    exact hs.answers

theorem Responding.stable (hs : Responding g h D request r k s) (hr : MainRely g s s') :
    Responding g h D request r k s' := by
  refine ⟨hs.toServing.stable hr, ?_, hs.filled.1, hs.filled.2.same hs.filled.1 hr.host.slots⟩
  have hroom := hs.room
  have := hr.consumed.length_le
  omega

/-! ## Steps of the main thread -/

theorem DaemonGuar.inside (hgrows : Grows s s') (hinv : Inv g gen s') (hlock : s'.txLock = s.txLock)
    (hw : SameWriter g s s') (hr : SameResponse s s') (hchannel : s'.channelLock = s.channelLock)
    (hcurrent : s'.current = s.current) : DaemonGuar g gen .main s s' :=
  ⟨hgrows, hinv, hlock, hw, hr, fun _ _ => .same hchannel hcurrent⟩

theorem touch_guar (hi : Inv g gen s) {a : Nat} (ha : g.Inside a) :
    DaemonGuar g gen .main s (s.touch a) := by
  refine DaemonGuar.inside { Grows.refl s with } { hi with touched := fun b hb => ?_ } rfl
    { SameWriter.refl (g := g) s with } { SameResponse.refl s with } rfl rfl
  rcases List.mem_cons.mp hb with rfl | hb
  · exact ha
  · exact hi.touched b hb

theorem hostLoad_safe (hi : Inv g gen s) (hp : Polling h D s) (hr : s.written[h]? = some r) :
    (hostLoad (g.addr (slotOffset .tx h))).Safe (Inv g gen) (contract g gen .main) ok
      (fun a s => a = r ∧ Polling h D s ∧ s.written[h]? = some r) s := by
  have L := contract_lawful g gen .main
  have hst : ∀ {s s'}, (Polling h D s ∧ s.written[h]? = some r) → MainRely g s s' → Inv g gen s' →
      Polling h D s' ∧ s'.written[h]? = some r :=
    fun hP hrely _ => ⟨hP.1.stable hrely, Runs.getElem?_of_grown hrely.written hP.2⟩
  refine Safe.bind L hi ((loadWords_safe r.length_words hst (fun k hk s hP hi => ?_) L 16 (k := 0) (Nat.le_refl _)
    ⟨hp, hr⟩).mono fun w s _ hw => ?_)
  · rw [g.addr_word .tx h hk]
    refine ⟨hi.tx.slots h r (Nat.le_of_eq hP.1.handled) hP.2 k hk, touch_guar hi (g.cell_inside .tx h hk), ?_⟩
    exact ⟨{ hP.1 with }, hP.2⟩
  · have hwords : w = r.words := by
      rw [hw.1, List.drop_zero]
      exact List.take_of_length_le (Nat.le_of_eq r.length_words)
    refine Safe.ret hst (fun s hP _ => ⟨?_, hP⟩) hw.2
    rw [hwords, Record.ofWords_words]

theorem take_guar (hi : Inv g gen s) (hp : Polling h D s) (hr : s.written[h]? = some r) :
    DaemonGuar g gen .main s (s.take (u32 (u32 h + 1)) r) ∧
      Serving h D r (s.take (u32 (u32 h + 1)) r) := by
  have htail : u32 h = s.txTail := by rw [hi.tx.tail, hp.handled]
  have hlen : (s.handled ++ [r]).length = h + 1 := by simp [hp.handled]
  have hnext : s.written[s.handled.length]? = some r := by rwa [hp.handled]
  have hanswers := hp.answers
  have hhandled := hp.handled
  refine ⟨DaemonGuar.inside { Grows.refl s with handled := List.prefix_append _ _ } ?_ rfl
    { SameWriter.refl (g := g) s with } { SameResponse.refl s with } rfl rfl,
    hp.lock, hlen, ?_, hp.answers, hp.due, hp.visible⟩
  · rw [htail]
    refine { hi with tx := hi.tx.take hnext, answered := ?_, answers_le := ?_, handled_le := ?_ }
    · show Answered gen ((s.handled ++ [r]).take s.answers.length) s.answers
      rw [List.take_append_of_le_length (by omega)]
      exact hi.answered
    · show s.answers.length ≤ (s.handled ++ [r]).length
      omega
    · show (s.handled ++ [r]).length ≤ s.answers.length + 1
      omega
  · show (s.handled ++ [r])[h]? = some r
    rw [← hp.handled, List.getElem?_concat_length]

theorem responding_step {v : Nat} (hi : Inv g gen s) (hs : Responding g h D request r k s)
    (hv : r.words[k]? = some v) :
    DaemonGuar g gen .main s ((s.storeWord (g.cell .rx h k) v).touch (g.cell .rx h k)) ∧
      Responding g h D request r (k + 1) ((s.storeWord (g.cell .rx h k) v).touch (g.cell .rx h k)) := by
  have hk := word_lt hv
  have hroom := hs.room
  obtain rfl := hs.answers
  have hinv : Inv g gen (s.storeWord (g.cell .rx s.answers.length k) v) :=
    { hi with tx := hi.tx.congr (storeWord_other (by decide) _ _ _ hk), rx := hi.rx.store hroom hk }
  have htouch := (touch_guar hinv (g.cell_inside .rx s.answers.length hk)).inv
  refine ⟨DaemonGuar.inside { Grows.refl s with } htouch rfl
    { SameWriter.refl (g := g) s with slots := storeWord_other (by decide) _ _ _ hk } { SameResponse.refl s with }
    rfl rfl, ?_⟩
  exact ⟨{ hs with answers := rfl }, hroom, hk, filled_succ hs.filled.2 hk hv⟩

theorem respond_guar {status : Nat} (hi : Inv g gen s)
    (hs : Responding g h D request (request.answer gen status) 16 s) :
    DaemonGuar g gen .main s (s.respond (u32 (u32 h + 1)) (request.answer gen status)) ∧
      Polling (h + 1) D (s.respond (u32 (u32 h + 1)) (request.answer gen status)) := by
  have hhead : u32 h = s.rxHead := by rw [hi.rx.head, hs.answers]
  have hroom := hs.room
  have hfilled := hs.filled.2
  have hlen : (s.answers ++ [request.answer gen status]).length = h + 1 := by simp [hs.answers]
  refine ⟨DaemonGuar.inside { Grows.refl s with answers := List.prefix_append _ _ } ?_ rfl
    { SameWriter.refl (g := g) s with } { SameResponse.refl s with } rfl rfl,
    hs.lock, hs.handled, hlen, hs.due, hs.visible⟩
  rw [hhead]
  have hrx := hi.rx
  obtain rfl := hs.answers
  refine { hi with rx := hrx.publish hroom hfilled, answered := ?_, answers_le := ?_, handled_le := ?_ }
  -- The new answer stands in the place of the request.
  · show Answered gen (s.handled.take (s.answers ++ [request.answer gen status]).length)
      (s.answers ++ [request.answer gen status])
    rw [hlen, List.take_add_one, hs.request]
    exact List.rel_append hi.answered (.cons ⟨status, rfl⟩ .nil)
  · show (s.answers ++ [request.answer gen status]).length ≤ s.handled.length
    rw [hlen]
    exact Nat.le_of_eq hs.handled.symm
  · show s.handled.length ≤ (s.answers ++ [request.answer gen status]).length + 1
    rw [hlen, hs.handled]
    omega

/-! ## The poll -/

def Written (h D : Nat) (request : Record) : Bool → Channel → Prop
  | true, s => Polling (h + 1) D s
  | false, s => Serving h D request s

theorem writeResponse_safe (status : Nat) (hi : Inv g gen s) (hs : Serving h D request s) :
    (writeResponse g (request.answer gen status)).Safe (Inv g gen) (contract g gen .main) ok
      (fun b s => Written h D request b s) s := by
  have L := contract_lawful g gen .main
  have hst : ∀ {s s'}, Serving h D request s → MainRely g s s' → Inv g gen s' → Serving h D request s' :=
    fun hs hr _ => hs.stable hr
  have hwords : ∀ s, Serving h D request s → Inv g gen s →
      s.rxHead = u32 h ∧ s.rxTail = u32 s.consumed.length ∧ s.consumed.length ≤ h ∧
        h ≤ s.consumed.length + ringSlots := by
    intro s hs hi
    have hle := hi.rx.out_le
    have hfits := hi.rx.fits
    rw [hs.answers] at hle hfits
    exact ⟨by rw [hi.rx.head, hs.answers], hi.rx.tail, hle, hfits⟩
  refine Safe.bind L hi ((waitSpace_safe L hst (fun hr => hr.consumed.length_le) hwords _ hs).mono
    fun a s₁ hi₁ hwait => ?_)
  obtain ⟨hs₁, hspace⟩ := hwait
  cases a with
  | none => exact Safe.ret hst (fun _ hs _ => hs) hs₁
  | some head =>
    obtain ⟨rfl, hroom⟩ := hspace head rfl
    dsimp only
    rw [slotOffset_u32, g.regionAt_slot]
    dsimp only
    have hstart : Responding g h D request (request.answer gen status) 0 s₁ :=
      ⟨hs₁, hroom, Nat.zero_le _, fun k hk => absurd hk (Nat.not_lt_zero k)⟩
    refine Safe.bind L hi₁ ((storeWords_safe (Safe.stays Responding.stable) _
      (fun n v s hv hs hi => ?_) hstart).mono fun _ s₂ _ hs₂ => ?_)
    · rw [Nat.zero_add, g.addr_word .rx _ (word_lt hv)]
      rw [Nat.zero_add] at hs
      exact responding_step hi hs hv
    · rw [Record.length_words] at hs₂
      refine Safe.write (Safe.stays Responding.stable) (fun s hs hi _ => ?_) hs₂
      obtain ⟨hguar, hnext⟩ := respond_guar hi hs
      exact ⟨hguar, Safe.done Polling.stable hnext⟩

structure Polled (b : Bool) (s : Channel) : Prop where
  lock : s.channelLock = some .main
  settled : b = true → Settled s

theorem Polled.stable {b : Bool} (hp : Polled b s) (hr : MainRely g s s') : Polled b s' :=
  ⟨hr.daemon.lock.mpr hp.lock, fun hb => (hp.settled hb).same hr.host⟩

theorem safe_polled {b : Bool} (hp : Polled b s) :
    (Prog.ret b).Safe (Inv g gen) (contract g gen .main) ok (fun b s => Polled b s) s :=
  Safe.done Polled.stable hp

theorem Polling.polled (hp : Polling h D s) (hdue : D ≤ h) : Polled true s :=
  ⟨hp.lock, fun _ => ⟨hp.answers.trans hp.handled.symm, by rw [hp.due, hp.handled]; exact hdue⟩⟩

theorem pollLoop_safe (n : Nat) : ∀ {h s}, D ≤ h + n → Inv g gen s → Polling h D s →
    (pollLoop g gen n).Safe (Inv g gen) (contract g gen .main) ok (fun b s => Polled b s) s := by
  have L := contract_lawful g gen .main
  induction n with
  | zero => exact fun hdue _ hp => safe_polled (hp.polled hdue)
  | succ n ih =>
    intro h s hdue hi hp
    rw [pollLoop]
    -- What was there when the head was read is there when the tail is.
    refine Safe.read L (Safe.stays Polling.stable) (fun s hp hi => ?_) hp
    rw [hi.tx.head]
    generalize hn : s.written.length = w
    have hle := hi.tx.out_le
    have hfits := hi.tx.fits
    rw [hn, hp.handled] at hle hfits
    have hvisible := hp.visible
    refine Safe.read L (P := fun s => Polling h D s ∧ w ≤ s.written.length)
      (fun hP hr _ => ⟨hP.1.stable hr, Nat.le_trans hP.2 hr.written.length_le⟩) (fun s hP hi => ?_)
      ⟨hp, Nat.le_of_eq hn.symm⟩
    obtain ⟨hp, hw⟩ := hP
    rw [hi.tx.tail, hp.handled]
    by_cases hempty : u32 w = u32 h
    · rw [if_pos hempty]
      have hsame : w = h := Ring.index_inj hle (by simp only [ringSlots] at hfits; omega) hempty
      exact safe_polled (hp.polled (by omega))
    rw [if_neg hempty]
    by_cases hcorrupt : ringSlots < u32Sub (u32 w) (u32 h)
    · rw [if_pos hcorrupt]
      exact safe_polled ⟨hp.lock, fun hb => by cases hb⟩
    rw [if_neg hcorrupt, slotOffset_u32, g.regionAt_slot]
    dsimp only
    have hlt : h < s.written.length := by
      have : w ≠ h := fun he => hempty (by rw [he])
      omega
    obtain ⟨r, hr⟩ : ∃ r, s.written[h]? = some r := ⟨_, List.getElem?_eq_getElem hlt⟩
    refine Safe.bind L hi ((hostLoad_safe hi hp hr).mono fun r' s _ hload => ?_)
    obtain ⟨rfl, hp, hr⟩ := hload
    refine Safe.write (P := fun s => Polling h D s ∧ s.written[h]? = some r')
      (fun hP hrely _ => ⟨hP.1.stable hrely, Runs.getElem?_of_grown hrely.written hP.2⟩) (fun s hP hi _ => ?_) ⟨hp, hr⟩
    obtain ⟨hguar, hserving⟩ := take_guar hi hP.1 hP.2
    refine ⟨hguar, Safe.bind L hguar.inv (Safe.pick fun status => ?_)⟩
    refine (writeResponse_safe status hguar.inv hserving).mono fun b s hi hb => ?_
    cases b with
    | true => exact ih (by omega) hi hb
    | false =>
      have hlock : s.channelLock = some .main := Serving.lock hb
      exact safe_polled ⟨hlock, fun hf => by cases hf⟩

/-! ## Dropping the channel -/

theorem drop_guar {t : HostThread} (hi : Inv g gen s) (lock : Option HostThread) (current closed : Bool)
    (hlock : s.channelLock = some t ∨ s.channelLock = none ∧ current = s.current ∨
      lock = s.channelLock ∧ current = s.current)
    (hlock' : lock = some t ∨ lock = none ∨ lock = s.channelLock)
    (hcurrent : current = true → s.current = true) (hclosed : s.closed = true → closed = true) :
    DaemonGuar g gen t s { s with channelLock := lock, current := current, closed := closed } ∧
      SameHost g s { s with channelLock := lock, current := current, closed := closed } := by
  refine ⟨⟨{ Grows.refl s with current := hcurrent }, { hi with exited := fun hx => hclosed (hi.exited hx) }, rfl,
    { SameWriter.refl (g := g) s with }, { SameResponse.refl s with }, fun u hu => ?_⟩,
    { SameHost.refl (g := g) s with }⟩
  rcases hlock with hl | ⟨hl, hc⟩ | ⟨hl, hc⟩
  · refine ⟨?_, fun hlu => ?_⟩
    · rcases hlock' with hl' | hl' | hl'
      · show lock = some u ↔ _
        rw [hl', hl]
      · show lock = some u ↔ _
        rw [hl', hl]
        exact ⟨fun h => (by cases h), fun h => absurd (Option.some.inj h).symm hu⟩
      · show lock = some u ↔ _
        rw [hl']
    · rw [hl] at hlu
      exact absurd (Option.some.inj hlu).symm hu
  · refine ⟨?_, fun hlu => ?_⟩
    · rcases hlock' with hl' | hl' | hl'
      · show lock = some u ↔ _
        rw [hl', hl]
        exact ⟨fun h => absurd (Option.some.inj h).symm hu, fun h => (by cases h)⟩
      · show lock = some u ↔ _
        rw [hl', hl]
      · show lock = some u ↔ _
        rw [hl']
    · rw [hl] at hlu
      cases hlu
  · refine ⟨?_, fun _ => hc⟩
    show lock = some u ↔ _
    rw [hl]

structure Dropper (g : Pages) (gen : Nat) (t : HostThread) (C : Contract Channel) : Prop where
  lawful : C.Lawful (Inv g gen)
  rely : ∀ {s s'}, C.rely s s' → Daemon t s s' ∧ (s'.current = true → s.current = true)
  guar : ∀ {s s'}, DaemonGuar g gen t s s' → SameHost g s s' → C.guar s s'

theorem dropper_main : Dropper g gen .main (contract g gen .main) :=
  ⟨contract_lawful g gen .main, fun h => ⟨h.daemon, h.current⟩, fun h _ => h⟩

theorem dropper_listener : Dropper g gen .listener (contract g gen .listener) :=
  ⟨contract_lawful g gen .listener, fun h => ⟨h.daemon, h.current⟩, fun h h' => ⟨h, h'⟩⟩

section

variable {t : HostThread} {C : Contract Channel}

def Dropped (t : HostThread) (s : Channel) : Prop := s.channelLock ≠ some t ∧ s.current = false

section

variable (W : Dropper g gen t C)
include W

theorem Dropped.stable (h : Dropped t s) (hr : C.rely s s') : Dropped t s' := by
  obtain ⟨hd, hc⟩ := W.rely hr
  refine ⟨fun hl => h.1 (hd.lock.mp hl), ?_⟩
  cases hcur : s'.current with
  | false => rfl
  | true =>
    have := hc hcur
    rw [h.2] at this
    cases this

theorem unlockDropped_safe (hl : s.channelLock = some t ∧ s.current = false) :
    unlockChannel.Safe (Inv g gen) C ok (fun _ s => Dropped t s) s := by
  refine Safe.writeLast (P := fun s => s.channelLock = some t ∧ s.current = false) (fun h hr _ => ?_)
    (fun s h hi _ => ?_) hl
  · obtain ⟨hd, -⟩ := W.rely hr
    exact ⟨hd.lock.mpr h.1, (hd.current h.1).trans h.2⟩
  · obtain ⟨hg, hh⟩ := drop_guar hi none s.current s.closed (.inl h.1) (.inr (.inl rfl))
      (fun h => h) (fun h => h)
    have hout : Dropped t { s with channelLock := none } := ⟨fun h => (by cases h), h.2⟩
    exact ⟨W.guar hg hh, fun s' hr _ => hout.stable W hr⟩

theorem dropChannel_safe (hl : s.channelLock = some t) :
    dropChannel.Safe (Inv g gen) C ok (fun _ s => Dropped t s) s := by
  refine Safe.write (P := fun s => s.channelLock = some t) (fun h hr _ => (W.rely hr).1.lock.mpr h)
    (fun s h hi _ => ?_) hl
  obtain ⟨hg, hh⟩ := drop_guar hi s.channelLock false s.closed (.inl h)
    (.inr (.inr rfl)) (fun h => by cases h) (fun h => h)
  have hout : ({ s with current := false } : Channel).channelLock = some t ∧
      ({ s with current := false } : Channel).current = false := ⟨h, rfl⟩
  refine ⟨W.guar hg hh, Safe.bind W.lawful hg.inv ((unlockDropped_safe W hout).mono fun _ s _ h => ?_)⟩
  refine Safe.writeLast (P := Dropped t) (fun h hr _ => h.stable W hr) (fun s h hi _ => ?_) h
  obtain ⟨hg, hh⟩ := drop_guar (t := t) hi s.channelLock s.current true
    (.inr (.inr ⟨rfl, rfl⟩)) (.inr (.inr rfl)) (fun h => h) (fun _ => rfl)
  have hout : Dropped t { s with closed := true } := h
  exact ⟨W.guar hg hh, fun s' hr _ => hout.stable W hr⟩

theorem lockChannel_safe {k : Unit → Prog Channel Unit} {Q : Unit → Channel → Prop}
    {P : Channel → Prop} (hst : ∀ {s s'}, P s → C.rely s s' → Inv g gen s' → P s')
    (hk : ∀ s, P s → Inv g gen { s with channelLock := some t } →
      (k ()).Safe (Inv g gen) C ok Q { s with channelLock := some t }) (hP : P s) :
    (lockChannel t >>= k).Safe (Inv g gen) C ok Q s := by
  refine Safe.await (P := P) hst (fun s hP hi hfree _ => ?_) hP
  have hnone : s.channelLock = none := by simpa using hfree
  obtain ⟨hg, hh⟩ := drop_guar hi (some t) s.current s.closed
    (.inr (.inl ⟨hnone, rfl⟩)) (.inl rfl) (fun h => h) (fun h => h)
  exact ⟨W.guar hg hh, hk s hP hg.inv⟩

theorem fini_safe :
    (fini t).Safe (Inv g gen) C ok (fun _ s => Dropped t s) s := by
  refine lockChannel_safe W (P := fun _ => True) (fun _ _ _ => trivial) (fun s _ hi => ?_) trivial
  refine Safe.read W.lawful (P := fun s => s.channelLock = some t) (fun h hr _ => (W.rely hr).1.lock.mpr h)
    (fun s h hi => ?_) rfl
  cases hcur : s.current with
  | true => exact dropChannel_safe W h
  | false => exact unlockDropped_safe W ⟨h, hcur⟩

end

end

/-! ## A turn of the main thread -/

theorem Dropped.idle (h : Dropped .main s) : (contract g gen .main).idle s :=
  ⟨h.1, fun hc => by rw [h.2] at hc; cases hc⟩

theorem mainTurn_safe (hidle : (contract g gen .main).idle s) :
    (mainTurn g gen).Safe (Inv g gen) (contract g gen .main) ok
      (fun _ s => (contract g gen .main).idle s) s := by
  have L := contract_lawful g gen .main
  have W : Dropper g gen .main (contract g gen .main) := dropper_main
  have hdrop : ∀ {p : Prog Channel Unit} {s}, p.Safe (Inv g gen) (contract g gen .main) ok
      (fun _ s => Dropped .main s) s → p.Safe (Inv g gen) (contract g gen .main) ok
      (fun _ s => (contract g gen .main).idle s) s := fun h => h.mono fun _ _ _ hd => hd.idle
  rw [mainTurn]
  refine lockChannel_safe W (P := fun s => s.current = true → Settled s)
    (fun h hr _ hc => (h (hr.current hc)).same hr.host) (fun s h hi => ?_) hidle.2
  have hst : ∀ {s s' : Channel}, (s.channelLock = some .main ∧ (s.current = true → Settled s)) → MainRely g s s' →
      Inv g gen s' → s'.channelLock = some .main ∧ (s'.current = true → Settled s') :=
    fun h hr _ => ⟨hr.daemon.lock.mpr h.1, fun hc => (h.2 (hr.current hc)).same hr.host⟩
  refine Safe.read L (P := fun s => s.channelLock = some .main ∧ (s.current = true → Settled s)) hst
    (fun s h hi => ?_) ⟨rfl, fun hc => ⟨(h hc).answered, (h hc).due⟩⟩
  cases hcur : s.current with
  | false => exact hdrop (unlockDropped_safe W ⟨h.1, hcur⟩)
  | true =>
    have hst' : ∀ {s s' : Channel}, (s.channelLock = some .main ∧ Settled s) → MainRely g s s' →
        Inv g gen s' → s'.channelLock = some .main ∧ Settled s' :=
      fun h hr _ => ⟨hr.daemon.lock.mpr h.1, h.2.same hr.host⟩
    refine Safe.read L (P := fun s => s.channelLock = some .main ∧ Settled s) hst' (fun s h hi => ?_)
      ⟨h.1, h.2 hcur⟩
    refine Safe.pick fun hungUp => ?_
    split
    case isTrue => exact hdrop (dropChannel_safe W h.1)
    case isFalse =>
      refine Safe.write (P := fun s => s.channelLock = some .main ∧ Settled s) hst' (fun s h hi _ => ?_) h
      have hguar : DaemonGuar g gen .main s
          { s with due := min (s.handled.length + 64) s.written.length } :=
        DaemonGuar.inside { Grows.refl s with } { hi with } rfl { SameWriter.refl (g := g) s with }
          { SameResponse.refl s with } rfl rfl
      refine ⟨hguar, ?_⟩
      have hpolling : Polling s.handled.length (min (s.handled.length + 64) s.written.length)
          { s with due := min (s.handled.length + 64) s.written.length } :=
        ⟨h.1, rfl, h.2.answered, rfl, Nat.min_le_right _ _⟩
      refine Safe.bind L hguar.inv ((pollLoop_safe 64 (Nat.min_le_left _ _) hguar.inv hpolling).mono fun b s _ hb => ?_)
      refine Safe.write (Safe.stays Polled.stable) (fun s hp hi _ => ?_) hb
      obtain ⟨hg, -⟩ := drop_guar hi none s.current s.closed (.inl hp.lock)
        (.inr (.inl rfl)) (fun h => h) (fun h => h)
      refine ⟨hg, ?_⟩
      cases b with
      | false => exact hdrop (fini_safe W)
      | true =>
        have hsettled := hp.settled rfl
        refine Safe.ret (P := fun s => s.channelLock ≠ some .main ∧ Settled s)
          (fun h hr _ => ⟨fun hl => h.1 (hr.daemon.lock.mp hl), h.2.same hr.host⟩)
          (fun _ h _ => ⟨h.1, fun _ => h.2⟩) ⟨fun h => (by cases h), ⟨hsettled.answered, hsettled.due⟩⟩

/-! ## `response_thread` -/

structure Draining (c n : Nat) (s : Channel) : Prop where
  exited : s.exited = false
  consumed : s.consumed.length = c
  avail : c + n ≤ s.answers.length
  seen : s.seen ≤ c + n

theorem Draining.stable {c n : Nat} (h : Draining c n s) (hr : ResponseRely s s') : Draining c n s' := by
  refine ⟨hr.response.exited.trans h.exited, ?_, Nat.le_trans h.avail hr.answers.length_le, ?_⟩
  · rw [hr.response.consumed]
    exact h.consumed
  · rw [hr.response.seen]
    exact h.seen

theorem Draining.safe_idle {c : Nat} (h : Draining c 0 s) :
    (Prog.ret () : Prog Channel Unit).Safe (Inv g gen) (contract g gen .response) ok
      (fun _ s => (contract g gen .response).idle s) s := by
  refine Safe.ret (Safe.stays Draining.stable) (fun s h _ _ => ?_) h
  rw [h.consumed]
  exact h.seen

theorem ResponseGuar.own (hgrows : Grows s s') (hinv : Inv g gen s') (hlock : s'.txLock = s.txLock)
    (hw : SameWriter g s s') (hh : SameHost g s s') (hchannel : s'.channelLock = s.channelLock)
    (hcurrent : s'.current = s.current) : ResponseGuar g gen s s' :=
  ⟨hgrows, hinv, hlock, hw, hh, fun _ => .same hchannel hcurrent⟩

theorem consume_guar {c n : Nat} (hi : Inv g gen s) (hd : Draining c (n + 1) s)
    (hr : s.answers[c]? = some r) :
    ResponseGuar g gen s (s.consume (u32 (u32 c + 1)) r) ∧
      Draining (c + 1) n (s.consume (u32 (u32 c + 1)) r) := by
  have htail : u32 c = s.rxTail := by rw [hi.rx.tail, hd.consumed]
  have hnext : s.answers[s.consumed.length]? = some r := by rwa [hd.consumed]
  have havail := hd.avail
  have hseen := hd.seen
  refine ⟨ResponseGuar.own { Grows.refl s with consumed := List.prefix_append _ _ } ?_ rfl
    { SameWriter.refl (g := g) s with } { SameHost.refl (g := g) s with } rfl rfl, hd.exited, ?_, ?_, ?_⟩
  · rw [htail]
    exact { hi with rx := hi.rx.take hnext }
  · simp [Channel.consume, hd.consumed]
  · show c + 1 + n ≤ s.answers.length
    omega
  · show s.seen ≤ c + 1 + n
    omega

theorem drain_safe (n : Nat) : ∀ {c s}, Inv g gen s → Draining c n s →
    (drain g n (u32 c)).Safe (Inv g gen) (contract g gen .response) ok
      (fun _ s => (contract g gen .response).idle s) s := by
  have L := contract_lawful g gen .response
  induction n with
  | zero => exact fun _ hd => hd.safe_idle
  | succ n ih =>
    intro c s hi hd
    rw [drain, slotOffset_u32]
    have havail := hd.avail
    obtain ⟨r, hr⟩ : ∃ r, s.answers[c]? = some r := ⟨_, List.getElem?_eq_getElem (by omega)⟩
    have hst : ∀ {s s' : Channel}, (Draining c (n + 1) s ∧ s.answers[c]? = some r) → ResponseRely s s' →
        Inv g gen s' → Draining c (n + 1) s' ∧ s'.answers[c]? = some r :=
      fun h hrely _ => ⟨h.1.stable hrely, Runs.getElem?_of_grown hrely.answers h.2⟩
    refine Safe.bind L hi (Safe.bind L hi ((loadWords_safe r.length_words hst (fun k hk s h hi => ?_) L 16
      (k := 0) (Nat.le_refl _) ⟨hd, hr⟩).mono fun w s _ hw => ?_))
    · rw [g.addr_word .rx c hk]
      exact ⟨hi.rx.slots c r (Nat.le_of_eq h.1.consumed) h.2 k hk, ResponseGuar.refl hi, h⟩
    · have hwords : Record.ofWords w = r := by
        rw [hw.1, List.drop_zero, List.take_of_length_le (Nat.le_of_eq r.length_words), Record.ofWords_words]
      refine Safe.ret hst (fun s h _ => ?_) hw.2
      rw [hwords]
      refine Safe.write hst (fun s h hi _ => ?_) h
      obtain ⟨hguar, hnext⟩ := consume_guar hi h.1 h.2
      rw [u32_succ] at hguar hnext ⊢
      exact ⟨hguar, ih hguar.inv hnext⟩

theorem exitResponses_safe :
    exitResponses.Safe (Inv g gen) (contract g gen .response) ok
      (fun _ s => (contract g gen .response).idle s) s := by
  refine Safe.writeLast Safe.always (fun s _ hi _ => ?_) trivial
  refine ⟨ResponseGuar.own { Grows.refl s with } { hi with exited := fun _ => rfl } rfl
    { SameWriter.refl (g := g) s with } { SameHost.refl (g := g) s with } rfl rfl, fun s' hr _ hx => ?_⟩
  rw [hr.response.exited] at hx
  cases hx

theorem responseTurn_safe (hexited : s.exited = false) :
    (responseTurn g).Safe (Inv g gen) (contract g gen .response) ok
      (fun _ s => (contract g gen .response).idle s) s := by
  have L := contract_lawful g gen .response
  have hst : ∀ {s s' : Channel}, s.exited = false → ResponseRely s s' → Inv g gen s' → s'.exited = false :=
    fun h hr _ => hr.response.exited.trans h
  refine Safe.read L (P := fun s => s.exited = false) hst (fun s h hi => ?_) hexited
  cases hclosed : s.closed with
  | true => exact exitResponses_safe
  | false =>
    refine Safe.act (P := fun s => s.exited = false) hst (fun s head s' h hi hf _ => ?_) h
    cases hf
    have hle := hi.rx.out_le
    have hfits := hi.rx.fits
    refine ⟨ResponseGuar.own { Grows.refl s with } { hi with } rfl { SameWriter.refl (g := g) s with }
      { SameHost.refl (g := g) s with } rfl rfl, ?_⟩
    have hstart : Draining s.consumed.length (s.answers.length - s.consumed.length)
        { s with seen := s.answers.length } :=
      ⟨h, rfl, by show _ ≤ s.answers.length; omega, by show s.answers.length ≤ _; omega⟩
    generalize ({ s with seen := s.answers.length } : Channel) = s₁ at hstart ⊢
    rw [hi.rx.head]
    generalize s.consumed.length = c at hstart hle hfits
    generalize s.answers.length = a at hstart hle hfits
    refine Safe.read L (Safe.stays Draining.stable) (fun s hd hi => ?_) hstart
    rw [hi.rx.tail, hd.consumed]
    by_cases hempty : u32 a = u32 c
    · rw [if_pos hempty]
      have hsame : a = c := Ring.index_inj hle (by simp only [ringSlots] at hfits; omega) hempty
      rw [hsame, Nat.sub_self] at hd
      refine Safe.pick fun hungUp => ?_
      split
      case isTrue => exact hd.safe_idle
      case isFalse => exact exitResponses_safe
    rw [if_neg hempty]
    have hocc : u32Sub (u32 a) (u32 c) = a - c := Ring.index_sub hle (by simp only [ringSlots] at hfits; omega)
    rw [hocc, if_neg (by omega)]
    exact drain_safe _ hi hd

/-! ## All threads together -/

theorem Start.inv (h : Start s) : Inv g gen s := by
  obtain ⟨hth, htt, hrh, hrt⟩ := h.words
  obtain ⟨hw, hh, ha, hc, ht⟩ := h.history
  have hempty : ∀ d, Holds g s.mem d 0 0 [] [] := fun d =>
    ⟨rfl, rfl, List.prefix_rfl, Nat.zero_le _, fun p r _ hr => by simp at hr⟩
  refine ⟨?_, ?_, ?_, ?_, ?_, ?_, fun hx => ?_⟩
  · rw [hth, htt, hw, hh]
    exact hempty .tx
  · rw [hrh, hrt, ha, hc]
    exact hempty .rx
  · rw [hh, ha]
    exact .nil
  · rw [ha]
    exact Nat.zero_le _
  · rw [hh]
    exact Nat.zero_le _
  · rw [ht]
    exact fun a ha => absurd ha List.not_mem_nil
  · rw [h.exited] at hx
    cases hx

theorem Start.idle (h : Start s) (i : Party) : (contract g gen i).idle s := by
  cases i with
  | writer i => exact fun hl => by rw [h.locks.1] at hl; cases hl
  | response => exact fun _ => by rw [h.counts.2]; exact Nat.zero_le _
  | main =>
    refine ⟨fun hl => (by rw [h.locks.2] at hl; cases hl), fun _ => ⟨?_, ?_⟩⟩
    · rw [h.history.2.2.1, h.history.2.1]
    · rw [h.counts.1]
      exact Nat.zero_le _
  | listener => exact fun hl => by rw [h.locks.2] at hl; cases hl
  | broker => trivial

theorem closeChannel_safe :
    (Prog.write fun s : Channel => { s with closed := true }).Safe (Inv g gen) (contract g gen .broker) ok
      (fun _ s => (contract g gen .broker).idle s) s := by
  refine Safe.writeLast Safe.always (fun s _ hi _ => ?_) trivial
  have hguar : ResponseGuar g gen s { s with closed := true } :=
    ResponseGuar.own { Grows.refl s with } { hi with exited := fun _ => rfl } rfl
      { SameWriter.refl (g := g) s with } { SameHost.refl (g := g) s with } rfl rfl
  exact ⟨⟨hguar, { SameResponse.refl s with }⟩, fun _ _ _ => trivial⟩

theorem sound (g : Pages) (gen : Nat) :
    Threads.Sound Start (Calls g gen) (fun _ _ _ => True) (Inv g gen) (contract g gen) where
  lawful := contract_lawful g gen
  fits hpq _ h := contract_fits hpq h
  start h := ⟨h.inv, h.idle⟩
  call {i s p} hi hidle hcall := by
    cases i with
    | writer i =>
      obtain ⟨r, rfl⟩ := hcall
      have L := contract_lawful g gen (.writer i)
      refine Safe.bind L hi ((ringWrite_safe r hidle).mono fun _ s _ h => ?_)
      have hout : ∀ {s s' : Channel}, s.txLock ≠ some i → WriterRely g i s s' → Inv g gen s' →
          s'.txLock ≠ some i := fun h hr _ hl => h (hr.lock.mp hl)
      exact Safe.ret (P := fun s : Channel => s.txLock ≠ some i) hout (fun _ h _ => h) h
    | response =>
      obtain ⟨hexited, rfl⟩ := hcall
      exact responseTurn_safe hexited
    | main =>
      obtain rfl := hcall
      exact mainTurn_safe hidle
    | listener =>
      obtain rfl := hcall
      exact (fini_safe dropper_listener).mono fun _ _ _ h => h.1
    | broker =>
      obtain rfl := hcall
      exact closeChannel_safe

end MoCoLinux.Copresent
