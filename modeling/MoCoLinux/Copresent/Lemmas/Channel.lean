import MoCoLinux.Copresent.Lemmas.Contract

/-!
# The programs of the presentation channel
-/

namespace MoCoLinux.Copresent

open Threads (Contract Prog)
open Threads.Prog (Safe)

variable {g : Pages} {gen i : Nat} {s s' : Channel}

section

variable {inv : Channel → Prop} {C : Contract Channel} {ok : Channel → Channel → Prop}

theorem storeWords_safe {P : Nat → Channel → Prop} {f : Channel → Nat → Nat → Channel} {a : Nat}
    (hst : ∀ {k s s'}, P k s → C.rely s s' → inv s' → P k s') (ws : List Nat) :
    ∀ {k s}, (∀ n v s, ws[n]? = some v → P (k + n) s → inv s →
        C.guar s (f s (a + 4 * (k + n)) v) ∧ P (k + n + 1) (f s (a + 4 * (k + n)) v)) → P k s →
      (storeWords f a ws k).Safe inv C ok (fun _ s => P (k + ws.length) s) s := by
  induction ws with
  | nil => exact fun _ hP => Safe.ret hst (fun _ hP _ => hP) hP
  | cons v rest ih =>
    intro k s hstep hP
    refine Safe.write (P := P k) hst (fun s hP hi _ => ?_) hP
    obtain ⟨hguar, hnext⟩ := hstep 0 v s rfl hP hi
    refine ⟨hguar, ?_⟩
    rw [List.length_cons, show k + (rest.length + 1) = k + 1 + rest.length by omega]
    refine ih (fun n w s hw hP hi => ?_) hnext
    rw [show k + 1 + n = k + (n + 1) by omega] at hP ⊢
    exact hstep (n + 1) w s hw hP hi

theorem loadWords_safe {P : Channel → Prop} {f : Channel → Nat → Channel} {a : Nat} {ws : List Nat}
    (hlen : ws.length = 16) (hst : ∀ {s s'}, P s → C.rely s s' → inv s' → P s')
    (hload : ∀ k < 16, ∀ s, P s → inv s →
      s.mem (a + 4 * k) = ws.getD k 0 ∧ C.guar s (f s (a + 4 * k)) ∧ P (f s (a + 4 * k)))
    (L : C.Lawful inv) (n : Nat) :
    ∀ {k s}, k + n ≤ 16 → P s →
      (loadWords f a n k).Safe inv C ok (fun w s => w = (ws.drop k).take n ∧ P s) s := by
  induction n with
  | zero => exact fun _ hP => Safe.ret hst (fun _ hP _ => ⟨rfl, hP⟩) hP
  | succ n ih =>
    intro k s hk hP
    refine Safe.act (P := P) hst (fun s v s' hP hi hf _ => ?_) hP
    obtain ⟨hval, hguar, hnext⟩ := hload k (by omega) s hP hi
    cases hf
    refine ⟨hguar, ?_⟩
    change (loadWords f a n (k + 1) >>= fun rest => pure (s.mem (a + 4 * k) :: rest)).Safe _ _ _ _ _
    rw [hval]
    refine Safe.bind L (L.keeps hi hguar) ((ih (k := k + 1) (by omega) hnext).mono fun w s _ hw => ?_)
    refine Safe.ret hst (fun s hP _ => ⟨?_, hP⟩) hw.2
    have hlt : k < ws.length := by omega
    rw [hw.1, List.drop_eq_getElem_cons hlt, List.take_succ_cons]
    simp [hlt]

theorem waitSpace_safe {P : Channel → Prop} {taken : Channel → Nat} {head tail : Channel → Nat}
    {quit : Channel → Bool} {n : Nat} (L : C.Lawful inv) (hst : ∀ {s s'}, P s → C.rely s s' → inv s' → P s')
    (hgrow : ∀ {s s'}, C.rely s s' → taken s ≤ taken s')
    (hwords : ∀ s, P s → inv s →
      head s = u32 n ∧ tail s = u32 (taken s) ∧ taken s ≤ n ∧ n ≤ taken s + ringSlots) (turns : Nat) :
    ∀ {s}, P s → (waitSpace head tail quit turns).Safe inv C ok
      (fun a s => P s ∧ ∀ h, a = some h → h = u32 n ∧ n < taken s + ringSlots) s := by
  induction turns with
  | zero => exact fun hP => Safe.ret hst (fun _ hP _ => ⟨hP, fun _ h => by cases h⟩) hP
  | succ turns ih =>
    intro s hP
    refine Safe.read L (P := P) hst (fun s hP hi => ?_) hP
    rw [(hwords s hP hi).1]
    refine Safe.read L (P := P) hst (fun s hP hi => ?_) hP
    obtain ⟨-, htail, hle, hfits⟩ := hwords s hP hi
    have hocc : u32Sub (u32 n) (tail s) = n - taken s := by
      rw [htail]
      exact Ring.index_sub hle (by simp only [ringSlots] at hfits; omega)
    rw [hocc]
    by_cases hroom : n - taken s < ringSlots
    · rw [if_pos hroom]
      have hspace : P s ∧ n < taken s + ringSlots := ⟨hP, by omega⟩
      refine Safe.ret (P := fun s => P s ∧ n < taken s + ringSlots) (fun h hr hi => ⟨hst h.1 hr hi, ?_⟩)
        (fun s h _ => ⟨h.1, fun head hh => ?_⟩) hspace
      · have := hgrow hr
        omega
      · cases hh
        exact ⟨rfl, h.2⟩
    · rw [if_neg hroom]
      refine Safe.read L (P := P) hst (fun s hP hi => ?_) hP
      cases quit s with
      | true => exact Safe.ret hst (fun _ hP _ => ⟨hP, fun _ h => by cases h⟩) hP
      | false => exact ih hP

end

variable {d : Dir} {k v : Nat} {r : Record}

theorem filled_succ {mem : Nat → Nat} {p : Nat} (h : Filled g mem d p r k)
    (hk : k < 16) (hv : r.words[k]? = some v) :
    Filled g (Function.update mem (g.cell d p k) v) d p r (k + 1) := by
  intro j hj
  rcases Nat.lt_succ_iff_lt_or_eq.mp hj with hlt | rfl
  · rw [Function.update_of_ne (g.cell_ne d (by omega) hk (.inr (by omega)))]
    exact h j hlt
  · rw [Function.update_self, List.getD_eq_getElem?_getD, hv]
    rfl

theorem Filled.same {p : Nat} (h : Filled g s.mem d p r k) (hk : k ≤ 16)
    (hs : SameSlots g d s s') : Filled g s'.mem d p r k :=
  fun j hj => (hs p j (by omega)).trans (h j hj)

theorem word_lt (h : r.words[k]? = some v) : k < 16 := by
  have := (List.getElem?_eq_some_iff.mp h).1
  rwa [r.length_words] at this

theorem storeWord_other {d' : Dir} (hd : d ≠ d') (p k v : Nat) (hk : k < 16) :
    SameSlots g d s (s.storeWord (g.cell d' p k) v) :=
  fun q _ hj => Function.update_of_ne (g.cell_ne_other hd q p hj hk) _ _

/-- The holder of `tx_lock` has stored some words of the record with number `h`. -/
structure Writing (g : Pages) (i h : Nat) (r : Record) (k : Nat) (s : Channel) : Prop where
  lock : s.txLock = some i
  written : s.written.length = h
  room : h < s.handled.length + ringSlots
  filled : k ≤ 16 ∧ Filled g s.mem .tx h r k

variable {h : Nat}

theorem Writing.stable (hw : Writing g i h r k s) (hr : WriterRely g i s s') :
    Writing g i h r k s' := by
  have hsame := hr.owned hw.lock
  refine ⟨hr.lock.mpr hw.lock, ?_, ?_, hw.filled.1, hw.filled.2.same hw.filled.1 hsame.slots⟩
  · rw [hsame.written]
    exact hw.written
  · have hroom := hw.room
    have := hr.handled.length_le
    omega

theorem WriterGuar.locked (hl : s.txLock = some i) (hl' : s'.txLock = some i ∨ s'.txLock = none) (hgrows : Grows s s')
    (hinv : Inv g gen s') (hd : ∀ t, Daemon t s s') (hh : SameHost g s s') (hr : SameResponse s s') :
    WriterGuar g gen i s s' := by
  refine ⟨hgrows, hinv, fun j hj => ?_, fun j hj hlj => ?_, hd, hh, hr⟩
  · constructor
    · intro hlj
      rcases hl' with hl' | hl' <;> rw [hl'] at hlj
      · exact absurd (Option.some.inj hlj).symm hj
      · cases hlj
    · intro hlj
      rw [hl] at hlj
      exact absurd (Option.some.inj hlj).symm hj
  · rw [hl] at hlj
    exact absurd (Option.some.inj hlj).symm hj

theorem Inv.storeTx (h : Inv g gen s) (hroom : s.written.length < s.handled.length + ringSlots)
    (hk : k < 16) (v : Nat) : Inv g gen (s.storeWord (g.cell .tx s.written.length k) v) :=
  { h with tx := h.tx.store hroom hk, rx := h.rx.congr (storeWord_other (by decide) _ _ _ hk) }

theorem writing_step (hi : Inv g gen s) (hw : Writing g i h r k s)
    (hv : r.words[k]? = some v) :
    WriterGuar g gen i s (s.storeWord (g.cell .tx h k) v) ∧
      Writing g i h r (k + 1) (s.storeWord (g.cell .tx h k) v) := by
  have hk := word_lt hv
  obtain rfl := hw.written
  refine ⟨WriterGuar.locked hw.lock (.inl hw.lock) { Grows.refl s with } (hi.storeTx hw.room hk v)
    (fun t => .same rfl rfl) { SameHost.refl (g := g) s with slots := storeWord_other (by decide) _ _ _ hk }
    { SameResponse.refl s with }, ?_⟩
  exact ⟨hw.lock, rfl, hw.room, hk, filled_succ hw.filled.2 hk hv⟩

theorem publish_step (hi : Inv g gen s) (hw : Writing g i h r 16 s) :
    WriterGuar g gen i s (s.publish (u32 (u32 h + 1)) r) := by
  have hhead : u32 h = s.txHead := by rw [hi.tx.head, hw.written]
  have hroom := hw.room
  have hfilled := hw.filled.2
  obtain rfl := hw.written
  refine WriterGuar.locked hw.lock (.inl hw.lock) { Grows.refl s with written := List.prefix_append _ _ } ?_
    (fun t => .same rfl rfl) { SameHost.refl (g := g) s with } { SameResponse.refl s with }
  rw [hhead]
  exact { hi with tx := hi.tx.publish hroom hfilled }

theorem txLock_stable (h : s.txLock = some i) (hr : WriterRely g i s s') : s'.txLock = some i := hr.lock.mpr h

theorem ringWriteLocked_safe {ok : Channel → Channel → Prop} (r : Record) (hi : Inv g gen s)
    (hl : s.txLock = some i) :
    (ringWriteLocked g r).Safe (Inv g gen) (contract g gen (.writer i)) ok
      (fun _ s => s.txLock = some i) s := by
  have L := contract_lawful g gen (.writer i)
  have hst : ∀ {s₁ s₂}, (s₁.txLock = some i ∧ s₁.written.length = s.written.length) → WriterRely g i s₁ s₂ →
      Inv g gen s₂ → s₂.txLock = some i ∧ s₂.written.length = s.written.length := by
    intro s₁ s₂ h hr _
    exact ⟨txLock_stable h.1 hr, by rw [(hr.owned h.1).written]; exact h.2⟩
  have hwords : ∀ s₁, (s₁.txLock = some i ∧ s₁.written.length = s.written.length) → Inv g gen s₁ →
      s₁.txHead = u32 s.written.length ∧ s₁.txTail = u32 s₁.handled.length ∧
        s₁.handled.length ≤ s.written.length ∧ s.written.length ≤ s₁.handled.length + ringSlots := by
    intro s₁ h hi
    have hle := hi.tx.out_le
    have hfits := hi.tx.fits
    rw [h.2] at hle hfits
    exact ⟨by rw [hi.tx.head, h.2], hi.tx.tail, hle, hfits⟩
  refine Safe.bind L hi ((waitSpace_safe L hst (fun hr => hr.handled.length_le) hwords _ ⟨hl, rfl⟩).mono
    fun a s₁ hi₁ hwait => ?_)
  obtain ⟨⟨hl₁, hlen⟩, hspace⟩ := hwait
  cases a with
  | none => exact Safe.ret (fun h hr _ => txLock_stable h hr) (fun _ h _ => h) hl₁
  | some head =>
    obtain ⟨rfl, hroom⟩ := hspace head rfl
    dsimp only
    rw [slotOffset_u32]
    have hstart : Writing g i s.written.length r 0 s₁ :=
      ⟨hl₁, hlen, hroom, Nat.zero_le _, fun k hk => absurd hk (Nat.not_lt_zero k)⟩
    refine Safe.bind L hi₁ ((storeWords_safe (Safe.stays Writing.stable) r.words (fun n v s hv hw hi => ?_)
      hstart).mono fun _ s₂ _ hw => ?_)
    · rw [Nat.zero_add, g.addr_word .tx _ (word_lt hv)]
      rw [Nat.zero_add] at hw
      exact writing_step hi hw hv
    · rw [r.length_words] at hw
      refine Safe.write (Safe.stays Writing.stable)
        (fun s hw hi _ => ?_) hw
      refine ⟨publish_step hi hw, ?_⟩
      exact Safe.ret (P := fun s => s.txLock = some i) (fun h hr _ => txLock_stable h hr) (fun _ h _ => h)
        hw.lock

theorem ringWrite_safe {ok : Channel → Channel → Prop} (r : Record) (hidle : s.txLock ≠ some i) :
    (ringWrite g i r).Safe (Inv g gen) (contract g gen (.writer i)) ok
      (fun _ s => s.txLock ≠ some i) s := by
  have L := contract_lawful g gen (.writer i)
  have hout : ∀ {s s' : Channel}, s.txLock ≠ some i → WriterRely g i s s' → Inv g gen s' →
      s'.txLock ≠ some i := fun h hr _ hl => h (hr.lock.mp hl)
  rw [ringWrite]
  refine Safe.await (P := fun s => s.txLock ≠ some i) hout (fun s _ hi hfree _ => ?_) hidle
  have hnone : s.txLock = none := by simpa using hfree
  have hinv : Inv g gen { s with txLock := some i } := { hi with }
  refine ⟨⟨{ Grows.refl s with }, hinv, fun j hj => ?_, fun j _ hlj => ?_, fun t => .same rfl rfl,
    { SameHost.refl (g := g) s with }, { SameResponse.refl s with }⟩, ?_⟩
  · rw [hnone]
    exact ⟨fun h => absurd (Option.some.inj h).symm hj, fun h => by cases h⟩
  · rw [hnone] at hlj
    cases hlj
  · refine Safe.bind L hinv ((ringWriteLocked_safe r hinv rfl).mono fun b s _ hl => ?_)
    refine Safe.write (P := fun s => s.txLock = some i) (fun h hr _ => txLock_stable h hr) (fun s hl hi _ => ?_) hl
    refine ⟨WriterGuar.locked hl (.inr rfl) { Grows.refl s with } { hi with } (fun t => .same rfl rfl)
      { SameHost.refl (g := g) s with } { SameResponse.refl s with }, ?_⟩
    exact Safe.ret (P := fun s => s.txLock ≠ some i) hout (fun _ h _ => h) (fun h => by cases h)

end MoCoLinux.Copresent
