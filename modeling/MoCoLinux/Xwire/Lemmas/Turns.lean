import MoCoLinux.Xwire.Lemmas.Passes

/-!
# The threads of the X wire
-/

namespace MoCoLinux.Xwire

open Function
open Threads (Prog)
open Threads.Prog (Safe)

variable {r : Region} {m : Option Dir} {d : Dir} {side : Side} {s s' : Wire} {ok : Wire → Wire → Prop}

/-! ## The start of a pass -/

structure Ready (side : Side) (s : Wire) : Prop where
  live : s.left side = false
  resting : Resting side s

theorem Ready.stable (h : Ready side s) (hr : Rely side s s') : Ready side s' :=
  ⟨hr.left.trans h.live, h.resting.stable h.live hr⟩

theorem After.ready {result : Option Nat} (h : After m side result s) : Ready side s := ⟨h.live, h.resting⟩

theorem Ready.filling (h : Ready side s) (hi : Inv r m s) :
    (s.pipe side.fills).head = ullong (s.pipe side.fills).shown ∧
      Filling side (s.pipe side.fills).shown 0 0 0 s := by
  have hring := hi.ring h.live side.fills
  have hfill := h.resting.fill
  refine ⟨hring.head, h.live, rfl, hfill.symm, ?_, ?_, h.resting.empty⟩
  · rw [hfill]
    exact hring.fits
  · rw [hfill]
    exact hring.taken_le

theorem Filling.space {h : Nat} (hf : Filling side h 0 0 0 s) (hi : Inv r m s) :
    Filling side h 0 (space (ullong h) (s.pipe side.fills).tail) 0 s := by
  have hring := hi.ring hf.live side.fills
  have hshown := hf.shown
  have hfreed := hring.freed_le
  have hgiven := hring.given_le
  have hroom := hf.room
  refine { hf with room := ?_ }
  rw [hring.tail, space_eq (by omega) (by omega)]
  omega

theorem Filling.mono {h room room' : Nat} (hf : Filling side h 0 room 0 s) (hle : room' ≤ room) :
    Filling side h 0 room' 0 s :=
  { hf with room := by have := hf.room; omega }

theorem Ready.emptying (h : Ready side s) (hi : Inv r m s) :
    ∃ t v, v ≤ ringBytes ∧ (s.pipe side.empties).head = ullong (t + v) ∧ Emptying side t 0 v s := by
  have hring := hi.ring h.live side.empties
  have hfreed := hring.freed_le
  have hgiven := hring.given_le
  have hshown := hring.shown_le
  have hfits := hring.fits
  refine ⟨(s.pipe side.empties).freed, (s.pipe side.empties).shown - (s.pipe side.empties).freed, by omega, ?_,
    h.live, rfl, h.resting.empty.symm, by omega, h.resting.fill⟩
  rw [hring.head]
  congr 1
  omega

theorem Emptying.avail_eq {t v : Nat} (he : Emptying side t 0 v s) (hi : Inv r m s) (hv : v ≤ ringBytes) :
    (s.pipe side.empties).tail = ullong t ∧
      u32 (ullongSub (ullong (t + v)) (s.pipe side.empties).tail) = v := by
  have htail : (s.pipe side.empties).tail = ullong t := by rw [(hi.ring he.live side.empties).tail, he.freed]
  rw [htail, counter_sub (by omega) (by omega)]
  exact ⟨rfl, by omega⟩

theorem Emptying.after {t avail : Nat} {n : Nat} (he : Emptying side t 0 avail s) : After m side (some n) s :=
  ⟨he.live, he.resting, fun h => by cases h⟩

theorem safe_after {result : Option Nat} (h : After m side result s) :
    (Prog.ret result).Safe (Inv r m) (contract r m (.side side)) ok (fun a s => After m side a s) s :=
  Safe.ret (P := After m side result) (fun h hr hi => h.stable hr hi) (fun _ h _ => h) h

/-! ## The passes -/

theorem pumpTx_safe (h : Ready .guest s) :
    (pumpTx r).Safe (Inv r m) (contract r m (.side .guest)) ok (fun a s => After m .guest a s) s := by
  have hlaw := contract_lawful r m (.side .guest)
  refine Safe.read hlaw (Safe.stays Ready.stable) (fun s h hi => ?_) h
  obtain ⟨hhead, hf⟩ := h.filling hi
  change (s.pipe .tx).head = _ at hhead
  rw [hhead]
  generalize (s.pipe Side.guest.fills).shown = n at hf
  refine Safe.read hlaw (Safe.stays Filling.stable) (fun s hf hi => ?_) hf
  have hspace := hf.space hi
  change Filling .guest n 0 (space (ullong n) (s.pipe .tx).tail) 0 s at hspace
  generalize space (ullong n) (s.pipe .tx).tail = room at hspace
  by_cases hroom : room = 0
  · rw [if_pos hroom]
    exact safe_after ⟨hf.live, hf.resting, fun h => by cases h⟩
  rw [if_neg hroom]
  refine Safe.bind hlaw hi ?_
  refine (fill_safe (fun i hi => ?_) hi (hspace.mono (Nat.min_le_right _ _))).mono fun a s _ ha => ?_
  · rw [ullong_cell] at hi ⊢
    exact r.guest_cell .tx (by omega)
  · exact safe_after ⟨ha.live, ha.resting, fun hnone => ha.gone (Option.map_eq_none_iff.mp hnone)⟩

theorem fillRx_safe (h : Ready .host s) :
    (fillRx r).Safe (Inv r m) (contract r m (.side .host)) ok (fun a s => After m .host a s) s := by
  have hlaw := contract_lawful r m (.side .host)
  refine Safe.read hlaw (Safe.stays Ready.stable) (fun s h hi => ?_) h
  obtain ⟨hhead, hf⟩ := h.filling hi
  change r.host.head .rx s = _ at hhead
  rw [hhead]
  generalize (s.pipe Side.host.fills).shown = n at hf
  refine Safe.read hlaw (Safe.stays Filling.stable) (fun s hf hi => ?_) hf
  have hspace := hf.space hi
  change Filling .host n 0 (space (ullong n) (r.host.tail .rx s)) 0 s at hspace
  generalize space (ullong n) (r.host.tail .rx s) = room at hspace
  by_cases hroom : room = 0
  · rw [if_pos hroom]
    exact safe_after ⟨hf.live, hf.resting, fun h => by cases h⟩
  rw [if_neg hroom]
  obtain ⟨p, run, hat⟩ := r.hostAt_ring .rx (Nat.mod_lt n (by decide : 0 < ringBytes))
  rw [ullong_cell]
  simp only [hat]
  refine fill_safe (fun i hi => ?_) hi (hspace.mono (Nat.min_le_right _ _))
  exact Region.host_cell (d := .rx) hat (by omega) (by omega)

section

variable (hok : ∀ s s', ok s s' → Allowed m s s')
include hok

theorem pumpRx_safe (h : Ready .guest s) :
    (pumpRx r).Safe (Inv r m) (contract r m (.side .guest)) ok (fun a s => After m .guest a s) s := by
  have hlaw := contract_lawful r m (.side .guest)
  refine Safe.read hlaw (Safe.stays Ready.stable) (fun s h hi => ?_) h
  obtain ⟨t, v, hv, hhead, he⟩ := h.emptying hi
  change (s.pipe .rx).head = _ at hhead
  rw [hhead]
  refine Safe.read hlaw (Safe.stays Emptying.stable) (fun s he hi => ?_) he
  obtain ⟨htail, havail⟩ := he.avail_eq hi hv
  change (s.pipe .rx).tail = _ at htail
  change u32 (ullongSub _ (s.pipe .rx).tail) = v at havail
  rw [havail, htail]
  by_cases hzero : v = 0
  · rw [if_pos hzero]
    exact safe_after he.after
  rw [if_neg hzero]
  refine Safe.bind hlaw hi ((send_safe hok (Nat.min_le_right _ _) (fun i hi => ?_) he).mono fun a s _ hw => ?_)
  · rw [ullong_cell] at hi ⊢
    exact r.guest_cell .rx (by omega)
  cases a with
  | blocked => exact safe_after (Emptying.after hw)
  | broken => exact safe_after ⟨hw.1.live, hw.1.resting, fun _ => hw.2⟩
  | put n =>
    refine Safe.write (Safe.stays Emptying.stable) (fun s he hi _ => ?_) hw.2
    obtain ⟨hguar, hnext⟩ := release_guar hi he
    exact ⟨hguar, safe_after hnext.after⟩

theorem drainLoop_safe (turns : Nat) :
    ∀ {t v moved s}, v ≤ ringBytes → Inv r m s → Emptying .host t 0 v s →
      (r.host.drainLoop turns (ullong t) v moved).Safe (Inv r m) (contract r m (.side .host)) ok
        (fun a s => After m .host a s) s := by
  have hlaw := contract_lawful r m (.side .host)
  induction turns with
  | zero => exact fun _ _ he => safe_after he.after
  | succ turns ih =>
    intro t v moved s hv hi he
    rw [Host.drainLoop]
    by_cases hzero : v = 0
    · rw [if_pos hzero]
      exact safe_after he.after
    rw [if_neg hzero]
    obtain ⟨p, run, hat⟩ := r.hostAt_ring .tx (Nat.mod_lt t (by decide : 0 < ringBytes))
    rw [ullong_cell]
    simp only [hat]
    refine Safe.bind hlaw hi ((send_safe hok (Nat.min_le_right _ _) (fun i hi => ?_) he).mono fun a s _ hw => ?_)
    · exact Region.host_cell (d := .tx) hat (by omega) (by omega)
    cases a with
    | blocked => exact safe_after (Emptying.after hw)
    | broken => exact safe_after ⟨hw.1.live, hw.1.resting, fun _ => hw.2⟩
    | put n =>
      obtain ⟨hn, he⟩ := hw
      refine Safe.write (Safe.stays Emptying.stable) (fun s he hi _ => ?_) he
      obtain ⟨hguar, hnext⟩ := release_guar hi he
      refine ⟨hguar, ?_⟩
      by_cases hmany : 2 ^ 20 < moved + n
      · rw [if_pos hmany]
        exact safe_after hnext.after
      rw [if_neg hmany, ullong_add]
      have hsub : u32Sub v n = v - n := by
        rw [u32Sub]
        simp only [ringBytes] at hv
        omega
      rw [hsub]
      rw [ullong_add] at hnext hguar
      exact ih (by omega) hguar.inv hnext

theorem drainTx_safe (h : Ready .host s) :
    (drainTx r).Safe (Inv r m) (contract r m (.side .host)) ok (fun a s => After m .host a s) s := by
  have hlaw := contract_lawful r m (.side .host)
  refine Safe.read hlaw (Safe.stays Ready.stable) (fun s h hi => ?_) h
  obtain ⟨t, v, hv, hhead, he⟩ := h.emptying hi
  change r.host.head .tx s = _ at hhead
  rw [hhead]
  refine Safe.read hlaw (Safe.stays Emptying.stable) (fun s he hi => ?_) he
  obtain ⟨htail, havail⟩ := he.avail_eq hi hv
  change r.host.tail .tx s = _ at htail
  change u32 (ullongSub _ (r.host.tail .tx s)) = v at havail
  dsimp only
  rw [havail, htail]
  exact drainLoop_safe hok v hv hi he

theorem pass_safe {pass : Prog Wire (Option Nat)}
    (hmem : pass ∈ passes r side) (h : Ready side s) :
    pass.Safe (Inv r m) (contract r m (.side side)) ok (fun a s => After m side a s) s := by
  cases side with
  | guest =>
    rcases List.mem_cons.mp hmem with rfl | hmem
    · exact pumpTx_safe h
    · rw [List.mem_singleton.mp hmem]
      exact pumpRx_safe hok h
  | host =>
    rcases List.mem_cons.mp hmem with rfl | hmem
    · exact drainTx_safe hok h
    · rw [List.mem_singleton.mp hmem]
      exact fillRx_safe h

end

theorem pass_safe_gone {result : Option Nat} {pass : Prog Wire (Option Nat)}
    (hpass : pass.Safe (Inv r m) (contract r m (.side side)) ok (fun a s => After m side a s) s)
    (h : After m side result s) :
    pass.Safe (Inv r m) (contract r m (.side side)) ok
      (fun a s => Ready side s ∧ (result = none ∨ a = none → Gone m side s)) s := by
  have hrely : ∀ {s s'}, (result = none → s.left side = false → Gone m side s) → Rely side s s' → Inv r m s' →
      result = none → s'.left side = false → Gone m side s' := by
    intro s s' hF hr hi hnone hleft
    exact (hF hnone (hr.left.symm.trans hleft)).grows hi hleft (hr.grows side.fills)
  have hguar : ∀ {s s'}, (result = none → s.left side = false → Gone m side s) → Inv r m s → Guar r m side s s' →
      result = none → s'.left side = false → Gone m side s' := by
    intro s s' hF _ hg hnone hleft
    have hbefore : s.left side = false := by
      cases hl : s.left side with
      | false => rfl
      | true => rw [hg.away side hl] at hleft; cases hleft
    exact (hF hnone hbefore).grows hg.inv hleft (hg.grows side.fills)
  have hframe := hpass.frame hrely hguar fun hnone _ => h.gone hnone
  refine hframe.mono fun a s _ hpost => ⟨hpost.1.ready, fun hnone => ?_⟩
  rcases hnone with hnone | hnone
  · exact hpost.2 hnone hpost.1.live
  · exact hpost.1.gone hnone

/-! ## The end of a thread -/

theorem Side.fills_filler (side : Side) : side.fills.filler = side := by cases side <;> rfl

theorem Side.fills_emptier (side : Side) : side.fills.emptier ≠ side := by cases side <;> decide

structure MayLeave (d : Dir) (side : Side) (s : Wire) : Prop where
  live : s.left side = false
  flushed : Flushed (s.pipe d)
  filler : d.filler = side ∨ s.left d.filler = true
  delivered : d.emptier = side → Delivered (s.pipe d)

theorem MayLeave.stable (h : MayLeave d side s) (hr : Rely side s s') (hi : Inv r m s') : MayLeave d side s' := by
  have hlive := hr.left.trans h.live
  have hring := hi.ring hlive d
  exact ⟨hlive, h.flushed.grows (hr.grows d) (Nat.le_trans hring.shown_le hring.taken_le),
    h.filler.imp_right (hr.away _), fun he => (h.delivered he).grows (hr.grows d) (hi.order d)⟩

theorem Gone.mayLeave (hi : Inv r (some d) s) (hready : Ready side s) (h : Gone (some d) side s) :
    MayLeave d side s := by
  rcases Dir.eq_or_other side.fills d with rfl | rfl
  · have hshown := hready.resting.fill
    exact ⟨hready.live, ⟨h.1, hshown.trans (h.2 rfl)⟩, .inl side.fills_filler, fun he => absurd he side.fills_emptier⟩
  · have hsink := hi.phase.sink
    rw [Dir.other_other, h.1] at hsink
    cases hsink

theorem Ready.mayLeave (hi : Inv r (some d) s) (hready : Ready side s) (hclosed : s.closed = true)
    (hempty : d.emptier = side → (s.pipe d).head = (s.pipe d).tail) : MayLeave d side s := by
  obtain ⟨hflushed, hfiller⟩ := hi.phase.flushed (hi.live hready.live) hclosed
  refine ⟨hready.live, hflushed, .inr hfiller, fun he => ⟨hflushed.1, ?_⟩⟩
  have hring := hi.ring hready.live d
  have hfreed := hring.freed_le
  have hgiven := hring.given_le
  have hshown := hring.shown_le
  have hfits := hring.fits
  have hwords := hempty he
  rw [hring.head, hring.tail] at hwords
  have hall : (s.pipe d).shown = (s.pipe d).freed :=
    Ring.index_inj (by omega) (by simp only [ringBytes] at hfits; omega) hwords
  have hlen := hflushed.2
  exact (hi.order d).eq_of_length_le (by omega)

theorem raised (flags : Side → Bool) (side t : Side) (ht : flags t = true) : update flags side true t = true := by
  by_cases hts : t = side
  · rw [hts, update_self]
  · rwa [update_of_ne hts]

theorem leaveLoop_guar (hi : Inv r (some d) s) (h : MayLeave d side s) :
    Guar r (some d) side s { s with closed := true, left := update s.left side true } := by
  have hphase := hi.phase
  have haway := raised s.left side
  have hother : update s.left side true side.other = s.left side.other :=
    update_of_ne (by cases side <;> decide) _ _
  refine ⟨⟨hi.order, hi.rings, ?_⟩, fun _ => .refl _, hother, haway, fun _ h => h, .refl _, .refl _⟩
  refine ⟨hphase.sink, fun _ _ => ⟨h.flushed, ?_⟩, fun hl => ?_, fun hd => haway _ (hphase.released hd),
    fun t ht => haway t (hphase.done t ht)⟩
  · rcases h.filler with hfiller | hfiller
    · exact hfiller ▸ update_self _ _ _
    · exact haway _ hfiller
  · by_cases he : d.emptier = side
    · exact h.delivered he
    · exact hphase.delivered (by simpa [update_of_ne he] using hl)

theorem finish_guar (hi : Inv r (some d) s) (hleft : s.left side = true) (hhost : s.left .host = true) :
    Guar r (some d) side s (finish s side) := by
  have hphase := hi.phase
  have hdone := raised s.done side
  have hbefore : update s.done side true .guest = false → s.done .guest = false := by
    intro hd
    cases hg : s.done .guest with
    | false => rfl
    | true => rw [hdone _ hg] at hd; cases hd
  refine ⟨⟨hi.order, fun hd => hi.rings (hbefore hd), ?_⟩, fun _ => .refl _, rfl, fun _ h => h, hdone, .refl _, .refl _⟩
  refine ⟨hphase.sink, fun hd hc => hphase.flushed (hbefore hd) hc, hphase.delivered, fun _ => hhost, fun t ht => ?_⟩
  by_cases hts : t = side
  · rw [hts]
    exact hleft
  · exact hphase.done t (by simpa [finish, update_of_ne hts] using ht)

theorem idle_of_left (hleft : s.left side = true) (hr : Rely side (finish s side) s') :
    s'.left side = false → Resting side s' := by
  intro h
  rw [hr.left] at h
  rw [show (finish s side).left side = true from hleft] at h
  cases h

theorem chanFree_safe (hok : ∀ s s', ok s s' → Allowed (some d) s s') (h : MayLeave d side s) :
    (chanFree side).Safe (Inv r (some d)) (contract r (some d) (.side side)) ok
      (fun _ s => (contract r (some d) (.side side)).idle s) s := by
  cases side with
  | host =>
    refine Safe.write (P := MayLeave d .host) (fun h hr hi => h.stable hr hi) (fun s h hi _ => ?_) h
    refine ⟨leaveLoop_guar hi h, ?_⟩
    refine Safe.writeLast (P := fun s => s.left .host = true) (fun hl hr _ => hr.away _ hl) (fun s hl hi _ => ?_)
      (by simp)
    exact ⟨finish_guar hi hl hl, fun s' hr _ => idle_of_left hl hr⟩
  | guest =>
    refine Safe.write (P := MayLeave d .guest) (fun h hr hi => h.stable hr hi) (fun s h hi _ => ?_) h
    refine ⟨leaveLoop_guar hi h, ?_⟩
    -- For answers of the server, the guest leaves after the host.
    have hhost : d = .rx → update s.left Side.guest true .host = true := by
      rintro rfl
      rcases h.filler with hfiller | hfiller
      · cases hfiller
      · exact hfiller
    refine Safe.pick fun expired => ?_
    by_cases hexp : expired = 0
    · rw [if_pos hexp]
      intro t hr hi b t' hf _
      cases hd : t.done .host with
      | false => simp [hd] at hf
      | true =>
        simp only [hd, if_true, Option.some.injEq, Prod.mk.injEq] at hf
        obtain ⟨-, rfl⟩ := hf
        have hl : t.left .guest = true := hr.away _ (by simp)
        exact ⟨finish_guar hi hl (hi.phase.done _ hd), fun s' hr' _ => idle_of_left hl hr'⟩
    · rw [if_neg hexp]
      refine Safe.writeLast (P := fun s => s.left .guest = true ∧ (d = .rx → s.left .host = true))
        (fun hl hr _ => ⟨hr.away _ hl.1, fun hd => hr.away _ (hl.2 hd)⟩) (fun s hl hi ha => ?_)
        ⟨by simp, hhost⟩
      have hgone : s.left .host = true := by
        cases hd : s.done .guest with
        | true => exact hi.phase.released hd
        | false =>
          cases d with
          | rx => exact hl.2 rfl
          | tx =>
            refine (hok _ _ ha _ rfl).unmap rfl ?_
            simp [finish, hd]
      exact ⟨finish_guar hi hl.1 hgone, fun s' hr _ => idle_of_left hl.1 hr⟩

theorem Guar.noticed (hi : Inv r m s) (f : Side → Nat) : Guar r m side s { s with noticed := f } :=
  ⟨hi.grow (fun _ => .refl _) rfl rfl rfl (fun _ _ => rfl) hi.order hi.rings, fun _ => .refl _, rfl, fun _ h => h,
    fun _ h => h, .refl _, .refl _⟩

theorem endTurn_safe (hok : ∀ s s', ok s s' → Allowed (some d) s s') {a b : Option Nat} (hi : Inv r (some d) s)
    (h : Ready side s) (hgone : a = none ∨ b = none → Gone (some d) side s) :
    (endTurn (notice side) (chanFree side) a b).Safe (Inv r (some d)) (contract r (some d) (.side side)) ok
      (fun _ s => (contract r (some d) (.side side)).idle s) s := by
  rw [endTurn]
  split
  case isTrue hnone => exact chanFree_safe hok ((hgone hnone).mayLeave hi h)
  case isFalse =>
    refine Safe.act (Safe.stays Ready.stable) (fun s c s' h hi hf ha => ?_) h
    cases hf
    change Guar r (some d) side s (if s.closed then _ else s) ∧
      (if s.closed then chanFree side else pure ()).Safe _ _ _ _ (if s.closed then _ else s)
    by_cases hclosed : s.closed = true
    · rw [if_pos hclosed] at ha
      rw [if_pos hclosed, if_pos hclosed]
      have hleave : MayLeave d side s := by
        refine h.mayLeave hi hclosed fun he => (hok _ _ ha _ rfl).notice ?_
        simp [he]
      exact ⟨Guar.noticed hi _, chanFree_safe hok { hleave with }⟩
    · rw [if_neg hclosed, if_neg hclosed]
      refine ⟨Guar.refl hi, ?_⟩
      exact Safe.ret (Safe.stays Ready.stable) (fun _ h _ _ => h.resting) h

theorem turn_safe (hok : ∀ s s', ok s s' → Allowed (some d) s s') (hi : Inv r (some d) s) (h : Ready side s) :
    (turn r side).Safe (Inv r (some d)) (contract r (some d) (.side side)) ok
      (fun _ s => (contract r (some d) (.side side)).idle s) s := by
  have hlaw := contract_lawful r (some d) (.side side)
  cases side with
  | guest =>
    refine Safe.bind hlaw hi ((pumpTx_safe h).mono fun a s hi ha => ?_)
    refine Safe.bind hlaw hi ((pass_safe_gone (pumpRx_safe hok ha.ready) ha).mono fun b s hi hb => ?_)
    exact endTurn_safe hok hi hb.1 hb.2
  | host =>
    refine Safe.bind hlaw hi ((drainTx_safe hok h).mono fun a s hi ha => ?_)
    refine Safe.bind hlaw hi ((pass_safe_gone (fillRx_safe ha.ready) ha).mono fun b s hi hb => ?_)
    exact endTurn_safe hok hi hb.1 hb.2

/-! ## The rest of the world -/

theorem Pipe.Inv.source {mem : Nat → UInt8} {off : Nat} {p p' : Pipe} (h : p.Inv r mem off) (hfill : SameFill p p')
    (hempty : SameEmpty p p') (hsent : p.sent <+: p'.sent) : p'.Inv r mem off := by
  refine ⟨?_, ?_, ?_, ?_, ?_, ?_, ?_, fun q hfreed htaken => ?_⟩
  · rw [hfill.head, hfill.shown]
    exact h.head
  · rw [hempty.tail, hempty.freed]
    exact h.tail
  · rw [hempty.freed, hempty.given]
    exact h.freed_le
  · rw [hempty.given, hfill.shown]
    exact h.given_le
  · rw [hfill.shown, hfill.taken]
    exact h.shown_le
  · rw [hfill.taken]
    exact Nat.le_trans h.taken_le hsent.length_le
  · rw [hfill.taken, hempty.freed]
    exact h.fits
  · rw [hempty.freed] at hfreed
    rw [hfill.taken] at htaken
    have hq : q < p.sent.length := Nat.lt_of_lt_of_le htaken h.taken_le
    obtain ⟨more, hmore⟩ := hsent
    rw [h.cells q hfreed htaken, ← hmore]
    simp [List.getElem?_append_left hq]

theorem Outside.source (hi : Inv r m s) {p' : Pipe} (hgrows : Grows (s.pipe d) p') (hfill : SameFill (s.pipe d) p')
    (hempty : SameEmpty (s.pipe d) p') (hended : p'.ended = (s.pipe d).ended ∨ m = none ∨ m = some d) :
    Outside r m s (s.setPipe d p') := by
  have hall : ∀ e, Grows (s.pipe e) ((s.setPipe d p').pipe e) ∧ SameFill (s.pipe e) ((s.setPipe d p').pipe e) ∧
      SameEmpty (s.pipe e) ((s.setPipe d p').pipe e) := by
    intro e
    rcases Dir.eq_or_other d e with rfl | rfl
    · simpa [Wire.setPipe] using ⟨hgrows, hfill, hempty⟩
    · simpa [Wire.setPipe, Dir.other_ne] using ⟨Grows.refl _, SameFill.refl _, SameEmpty.refl _⟩
  refine ⟨hi.grow (fun e => (hall e).1) rfl rfl rfl (fun e he => ?_) (fun e => ?_) (fun hd e => ?_),
    fun e => (hall e).1, rfl, rfl, fun _ e => (hall e).2.1, fun _ e => (hall e).2.2⟩
  -- Only the peer that is to close may close.
  · rcases Dir.eq_or_other e d with rfl | rfl
    · simp [Wire.setPipe, Dir.other_ne]
    · rcases hended with hended | hm | hm
      · simpa [Wire.setPipe] using hended
      · rw [hm] at he
        cases he
      · rw [hm] at he
        exact absurd (Option.some.inj he) (Dir.other_ne e)
  · rw [(hall e).2.2.given]
    exact (hi.order e).trans (hall e).1.sent
  · exact (hi.rings hd e).source (hall e).2.1 (hall e).2.2 (hall e).1.sent

theorem sendByte_outside (hi : Inv r m s) (hended : (s.pipe d).ended = false) (b : UInt8) :
    Outside r m s (s.setPipe d { s.pipe d with sent := (s.pipe d).sent ++ [b] }) := by
  refine Outside.source hi { Grows.refl (s.pipe d) with sent := List.prefix_append _ _, ended := fun h => ?_ }
    ⟨rfl, rfl, rfl⟩ ⟨rfl, rfl, rfl⟩ (.inl rfl)
  rw [hended] at h
  cases h

theorem shut_outside (hi : Inv r m s) (hm : m = none ∨ m = some d) :
    Outside r m s (s.setPipe d { s.pipe d with ended := true }) :=
  Outside.source hi { Grows.refl (s.pipe d) with ended := fun _ => ⟨rfl, rfl⟩ } ⟨rfl, rfl, rfl⟩ ⟨rfl, rfl, rfl⟩
    (.inr hm)

theorem scribble_outside (hi : Inv r m s) (hdone : s.done .guest = true) (mem : Nat → UInt8) (head tail : Dir → Nat)
    (closed : Bool) : Outside r m s
      { s with mem := mem, pipe := fun d => { s.pipe d with head := head d, tail := tail d }, closed := closed } := by
  have hlive : s.done .guest = false → False := by
    intro h
    rw [hdone] at h
    cases h
  have hphase : Phase m
      { s with mem := mem, pipe := fun d => { s.pipe d with head := head d, tail := tail d }, closed := closed } := by
    have hphase := hi.phase
    cases m with
    | none => exact hphase
    | some d =>
      exact { hphase with flushed := fun h _ => (hlive h).elim, delivered := fun hl => ⟨(hphase.delivered hl).1,
        (hphase.delivered hl).2⟩ }
  exact ⟨⟨hi.order, fun h => (hlive h).elim, hphase⟩, fun d => { Grows.refl (s.pipe d) with }, rfl, rfl,
    fun h => (hlive h).elim, fun h => (hlive h).elim⟩

/-! ## All parties together -/

theorem Start.inv (h : Start s) : Inv r m s := by
  refine ⟨fun d => ?_, fun _ d => ?_, ?_⟩
  · simp [h.pipe d]
  · rw [h.pipe d]
    exact ⟨rfl, rfl, Nat.le_refl _, Nat.le_refl _, Nat.le_refl _, Nat.le_refl _, Nat.zero_le _,
      fun q _ hq => absurd hq (Nat.not_lt_zero q)⟩
  · cases m with
    | none => exact fun side => ⟨h.left side, h.done side⟩
    | some d =>
      refine ⟨by rw [h.pipe], fun _ hc => ?_, fun hl => ?_, fun hd => ?_, fun side hd => ?_⟩
      · rw [h.closed] at hc
        cases hc
      · rw [h.left] at hl
        cases hl
      · rw [h.done] at hd
        cases hd
      · rw [h.done] at hd
        cases hd

theorem side_call_safe (hok : ∀ s s', ok s s' → Allowed m s s') {p : Prog Wire Unit} (hi : Inv r m s)
    (hidle : (contract r m (.side side)).idle s) (hcall : Calls r m (.side side) s p) :
    p.Safe (Inv r m) (contract r m (.side side)) ok (fun _ s => (contract r m (.side side)).idle s) s := by
  have hlaw := contract_lawful r m (.side side)
  rcases hcall with ⟨hm, pass, hpass, rfl⟩ | ⟨hm, hleft, rfl⟩
  · subst hm
    have hleft := (hi.phase side).1
    refine Safe.bind hlaw hi ((pass_safe hok hpass ⟨hleft, hidle hleft⟩).mono fun a s _ ha => ?_)
    exact Safe.ret (Safe.stays Ready.stable) (fun _ h _ _ => h.resting) ha.ready
  · cases m with
    | none => exact absurd rfl hm
    | some d => exact turn_safe hok hi ⟨hleft, hidle hleft⟩

theorem call_safe {allowed : Party → Wire → Wire → Prop} (hok : ∀ i s s', allowed i s s' → Allowed m s s') {i : Party}
    {p : Prog Wire Unit} (hi : Inv r m s) (hidle : (contract r m i).idle s) (hcall : Calls r m i s p) :
    p.Safe (Inv r m) (contract r m i) (allowed i) (fun _ s => (contract r m i).idle s) s := by
  cases i with
  | side side => exact side_call_safe (hok _) hi hidle hcall
  | peer d =>
    rcases hcall with ⟨b, rfl⟩ | ⟨hm, rfl⟩
    · refine Safe.writeLast Safe.always (fun s _ hi _ => ?_) trivial
      refine ⟨?_, fun _ _ _ => trivial⟩
      cases hended : (s.pipe d).ended with
      | true => exact Outside.refl hi
      | false => exact sendByte_outside hi hended b
    · refine Safe.writeLast Safe.always (fun s _ hi _ => ?_) trivial
      exact ⟨shut_outside hi hm, fun _ _ _ => trivial⟩
  | others =>
    obtain ⟨hdone, mem, head, tail, closed, rfl⟩ := hcall
    refine Safe.writeLast (P := fun s => s.done .guest = true) (fun h hr _ => hr h) (fun s h hi _ => ?_) hdone
    exact ⟨scribble_outside hi h mem head tail closed, fun _ _ _ => trivial⟩

theorem reachable_inv {allowed : Party → Wire → Wire → Prop} (hok : ∀ i s s', allowed i s s' → Allowed m s s')
    {c : Threads.Config Wire Party} (h : Reachable r m allowed c) : Inv r m c.shared := by
  have hsound : Threads.Sound Start (Calls r m) allowed (Inv r m) (contract r m) := {
    lawful := contract_lawful r m
    fits := contract_fits
    start := fun {s} hs => ⟨hs.inv, fun i => by
      cases i with
      | side side => exact fun _ => ⟨by rw [hs.pipe], by rw [hs.pipe]; rfl⟩
      | peer d => trivial
      | others => trivial⟩
    call := call_safe hok }
  exact (hsound.reach h).shared

end MoCoLinux.Xwire
