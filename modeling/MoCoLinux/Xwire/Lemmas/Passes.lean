import MoCoLinux.Xwire.Lemmas.Contract

/-!
# The passes of the X wire
-/

namespace MoCoLinux.Xwire

open Function
open Threads (Prog)
open Threads.Prog (Safe)

variable {r : Region} {m : Option Dir} {d : Dir} {side : Side} {s s' : Wire}

/-! ## One direction -/

section

variable {mem mem' : Nat → UInt8} {p p' : Pipe} {off n : Nat}

theorem Pipe.Inv.congr (h : p.Inv r mem off) (hmem : ∀ q, mem' (r.cell off q) = mem (r.cell off q)) :
    p.Inv r mem' off :=
  { h with cells := fun q hfreed htaken => (hmem q).trans (h.cells q hfreed htaken) }

theorem Pipe.Inv.takeByte (h : p.Inv r mem d.off) (hroom : p.taken < p.freed + ringBytes)
    (hsource : p.taken < p.sent.length) :
    ({ p with taken := p.taken + 1 } : Pipe).Inv r
      (update mem (r.cell d.off p.taken) (p.sent.getD p.taken 0)) d.off := by
  refine { h with shown_le := Nat.le_succ_of_le h.shown_le, taken_le := hsource, fits := hroom, cells := ?_ }
  intro q hfreed htaken
  rcases Nat.lt_succ_iff_lt_or_eq.mp htaken with hlt | rfl
  -- The cells that were read are less than a lap behind.
  · have hfreed' : p.freed ≤ q := hfreed
    rw [update_of_ne (r.cell_ne d hlt (by omega))]
    exact h.cells q hfreed hlt
  · exact update_self _ _ _

theorem Pipe.Inv.publish (h : p.Inv r mem off) (hn : p.shown + n ≤ p.taken) :
    ({ p with head := ullong (p.head + n), shown := p.shown + n } : Pipe).Inv r mem off :=
  { h with
    head := by
      show ullong (p.head + n) = ullong (p.shown + n)
      rw [h.head, ullong_add]
    given_le := Nat.le_trans h.given_le (Nat.le_add_right _ _)
    shown_le := hn }

theorem Pipe.Inv.giveByte (h : p.Inv r mem off) (b : UInt8) (hlt : p.given.length < p.shown) :
    ({ p with given := p.given ++ [b] } : Pipe).Inv r mem off := by
  have hlen : (p.given ++ [b]).length = p.given.length + 1 := by simp
  refine { h with freed_le := ?_, given_le := ?_ }
  · have := h.freed_le
    exact hlen ▸ Nat.le_succ_of_le this
  · exact hlen ▸ hlt

theorem Pipe.Inv.release (h : p.Inv r mem off) (hn : p.freed + n ≤ p.given.length) :
    ({ p with tail := ullong (p.tail + n), freed := p.freed + n } : Pipe).Inv r mem off :=
  { h with
    tail := by
      show ullong (p.tail + n) = ullong (p.freed + n)
      rw [h.tail, ullong_add]
    freed_le := hn
    fits := by
      show p.taken ≤ p.freed + n + ringBytes
      have := h.fits
      omega
    cells := fun q hfreed htaken => h.cells q (Nat.le_trans (Nat.le_add_right _ _) hfreed) htaken }

theorem Pipe.Inv.next (h : p.Inv r mem off) (horder : p.given <+: p.sent) (hlt : p.given.length < p.shown) :
    p.given ++ [mem (r.cell off p.given.length)] <+: p.sent := by
  have hshown := h.shown_le
  have htaken := h.taken_le
  have hsent : p.given.length < p.sent.length := by omega
  rw [h.cells _ h.freed_le (by omega)]
  obtain ⟨rest, hrest⟩ := horder
  cases rest with
  | nil =>
    rw [List.append_nil] at hrest
    rw [hrest] at hsent
    exact absurd hsent (Nat.lt_irrefl _)
  | cons b rest =>
    refine ⟨rest, ?_⟩
    simp [← hrest]

end

/-! ## Steps on one direction -/

theorem Inv.setPipe (h : Inv r m s) (hleft : s.left side = false) {p' : Pipe} {mem : Nat → UInt8}
    (hgrows : Grows (s.pipe d) p') (hended : p'.ended = (s.pipe d).ended) (horder : p'.given <+: p'.sent)
    (hring : p'.Inv r mem d.off) (hmem : ∀ q, mem (r.cell d.other.off q) = s.mem (r.cell d.other.off q)) :
    Inv r m { s.setPipe d p' with mem := mem } := by
  refine h.grow (fun e => ?_) rfl rfl rfl (fun e _ => ?_) (fun e => ?_) (fun _ e => ?_)
  · rcases Dir.eq_or_other d e with rfl | rfl
    · simpa [Wire.setPipe] using hgrows
    · simpa [Wire.setPipe, Dir.other_ne] using Grows.refl _
  · rcases Dir.eq_or_other d e.other with he | he
    · simpa [Wire.setPipe, he] using hended
    · simp [Wire.setPipe, he, Dir.other_ne]
  · rcases Dir.eq_or_other d e with rfl | rfl
    · simpa [Wire.setPipe] using horder
    · simpa [Wire.setPipe, Dir.other_ne] using h.order d.other
  · rcases Dir.eq_or_other d e with rfl | rfl
    · simpa [Wire.setPipe] using hring
    · simpa [Wire.setPipe, Dir.other_ne] using (h.ring hleft d.other).congr hmem

theorem Guar.fills (h : Inv r m s) (hleft : s.left side = false) {p' : Pipe} {mem : Nat → UInt8}
    (hgrows : Grows (s.pipe side.fills) p') (hended : p'.ended = (s.pipe side.fills).ended)
    (horder : p'.given <+: p'.sent) (hring : p'.Inv r mem side.fills.off)
    (hmem : ∀ q, mem (r.cell side.fills.other.off q) = s.mem (r.cell side.fills.other.off q))
    (hsame : SameEmpty (s.pipe side.fills) p') : Guar r m side s { s.setPipe side.fills p' with mem := mem } := by
  refine ⟨h.setPipe hleft hgrows hended horder hring hmem, fun e => ?_, rfl, fun _ h => h, fun _ h => h, ?_, ?_⟩
  · rcases Dir.eq_or_other side.fills e with rfl | rfl
    · simpa [Wire.setPipe] using hgrows
    · simpa [Wire.setPipe, Dir.other_ne] using Grows.refl _
  · simpa [Wire.setPipe, ← Side.fills_other, Dir.other_ne] using SameFill.refl _
  · simpa [Wire.setPipe] using hsame

theorem Guar.empties (h : Inv r m s) (hleft : s.left side = false) {p' : Pipe}
    (hgrows : Grows (s.pipe side.empties) p') (hended : p'.ended = (s.pipe side.empties).ended)
    (horder : p'.given <+: p'.sent) (hring : p'.Inv r s.mem side.empties.off)
    (hsame : SameFill (s.pipe side.empties) p') : Guar r m side s (s.setPipe side.empties p') := by
  have hinv : Inv r m { s.setPipe side.empties p' with mem := s.mem } :=
    h.setPipe hleft hgrows hended horder hring fun _ => rfl
  refine ⟨hinv, fun e => ?_, rfl, fun _ h => h, fun _ h => h, ?_, ?_⟩
  · rcases Dir.eq_or_other side.empties e with rfl | rfl
    · simpa [Wire.setPipe] using hgrows
    · simpa [Wire.setPipe, Dir.other_ne] using Grows.refl _
  · simpa [Wire.setPipe] using hsame
  · simpa [Wire.setPipe, ← Side.empties_other, Dir.other_ne] using SameEmpty.refl _

theorem Grows.takeByte (p : Pipe) : Grows p { p with taken := p.taken + 1 } :=
  { Grows.refl p with taken := Nat.le_succ _ }

theorem Grows.publish (p : Pipe) (head n : Nat) : Grows p { p with head := head, shown := p.shown + n } :=
  { Grows.refl p with shown := Nat.le_add_right _ _ }

theorem Grows.giveByte (p : Pipe) (b : UInt8) : Grows p { p with given := p.given ++ [b] } :=
  { Grows.refl p with given := List.prefix_append _ _ }

theorem Grows.release (p : Pipe) (tail n : Nat) : Grows p { p with tail := tail, freed := p.freed + n } :=
  { Grows.refl p with freed := Nat.le_add_right _ _ }

/-! ## What a pass knows -/

/-- The side has read `i` bytes behind the position `h`, and there is room for `room` and a supply of `supply`. -/
structure Filling (side : Side) (h i room supply : Nat) (s : Wire) : Prop where
  live : s.left side = false
  shown : (s.pipe side.fills).shown = h
  taken : (s.pipe side.fills).taken = h + i
  room : h + room ≤ (s.pipe side.fills).freed + ringBytes
  supply : h + supply ≤ (s.pipe side.fills).sent.length
  rested : (s.pipe side.empties).freed = (s.pipe side.empties).given.length

/-- The side has delivered `j` bytes behind the position `t`, and `avail` are there. -/
structure Emptying (side : Side) (t j avail : Nat) (s : Wire) : Prop where
  live : s.left side = false
  freed : (s.pipe side.empties).freed = t
  given : (s.pipe side.empties).given.length = t + j
  avail : t + avail ≤ (s.pipe side.empties).shown
  rested : (s.pipe side.fills).shown = (s.pipe side.fills).taken

def Gone (m : Option Dir) (side : Side) (s : Wire) : Prop :=
  (s.pipe side.fills).ended = true ∧
  (m = some side.fills → (s.pipe side.fills).taken = (s.pipe side.fills).sent.length)

structure After (m : Option Dir) (side : Side) (result : Option Nat) (s : Wire) : Prop where
  live : s.left side = false
  resting : Resting side s
  gone : result = none → Gone m side s

theorem Filling.stable {h i room supply : Nat} (hf : Filling side h i room supply s) (hr : Rely side s s') :
    Filling side h i room supply s' := by
  have hfill := hr.fill hf.live
  have hempty := hr.empty hf.live
  have hgrows := hr.grows side.fills
  refine ⟨hr.left.trans hf.live, hfill.shown.trans hf.shown, hfill.taken.trans hf.taken, ?_, ?_, ?_⟩
  · have hroom := hf.room
    have hfreed := hgrows.freed
    omega
  · exact Nat.le_trans hf.supply hgrows.sent_le
  · rw [hempty.freed, hempty.given]
    exact hf.rested

theorem Emptying.stable {t j avail : Nat} (he : Emptying side t j avail s) (hr : Rely side s s') :
    Emptying side t j avail s' := by
  have hfill := hr.fill he.live
  have hempty := hr.empty he.live
  refine ⟨hr.left.trans he.live, hempty.freed.trans he.freed, ?_, ?_, ?_⟩
  · rw [hempty.given]
    exact he.given
  · exact Nat.le_trans he.avail (hr.grows side.empties).shown
  · rw [hfill.shown, hfill.taken]
    exact he.rested

theorem Gone.grows (h : Gone m side s) (hi : Inv r m s') (hleft : s'.left side = false)
    (hg : Grows (s.pipe side.fills) (s'.pipe side.fills)) : Gone m side s' := by
  obtain ⟨hended, hsent⟩ := hg.ended h.1
  refine ⟨hended, fun hm => ?_⟩
  have hall := h.2 hm
  have htaken := hg.taken
  have hle := (hi.ring hleft side.fills).taken_le
  rw [hsent] at hle ⊢
  omega

theorem After.stable {result : Option Nat} (h : After m side result s) (hr : Rely side s s') (hi : Inv r m s') :
    After m side result s' :=
  ⟨hr.left.trans h.live, h.resting.stable h.live hr, fun hnone =>
    (h.gone hnone).grows hi (hr.left.trans h.live) (hr.grows side.fills)⟩

theorem Filling.resting {h room supply : Nat} (hf : Filling side h 0 room supply s) : Resting side s :=
  ⟨hf.shown.trans hf.taken.symm, hf.rested⟩

theorem Emptying.resting {t avail : Nat} (he : Emptying side t 0 avail s) : Resting side s :=
  ⟨he.rested, he.freed.trans he.given.symm⟩

/-! ## Filling -/

section

variable {ok : Wire → Wire → Prop} {h : Nat} {addr : Nat → Nat}

theorem takeByte_guar {i room supply : Nat} (hi : Inv r m s) (hf : Filling side h i room supply s) (hroom : i < room)
    (hsupply : i < supply) :
    Guar r m side s (s.takeByte side.fills (r.cell side.fills.off (h + i))) ∧
      Filling side h (i + 1) room supply (s.takeByte side.fills (r.cell side.fills.off (h + i))) := by
  have hring := hi.ring hf.live side.fills
  have hr := hf.room
  have hs := hf.supply
  have ht := hf.taken
  refine ⟨?_, ?_⟩
  · rw [← ht]
    refine Guar.fills hi hf.live (Grows.takeByte _) rfl (hi.order side.fills) (hring.takeByte (by omega) (by omega))
      (fun q => ?_) ⟨rfl, rfl, rfl⟩
    exact update_of_ne (r.cell_ne_other (Dir.other_ne _) _ _) _ _
  · have hne : side.empties ≠ side.fills := by cases side <;> decide
    refine ⟨hf.live, ?_, ?_, ?_, ?_, ?_⟩
    · simpa [Wire.takeByte, Wire.setPipe] using hf.shown
    · simp [Wire.takeByte, Wire.setPipe, ht, Nat.add_assoc]
    · simpa [Wire.takeByte, Wire.setPipe] using hr
    · simpa [Wire.takeByte, Wire.setPipe] using hs
    · simpa [Wire.takeByte, Wire.setPipe, hne] using hf.rested

theorem takeBytes_safe {n : Nat} (haddr : ∀ i < n, addr i = r.cell side.fills.off (h + i)) (k : Nat) :
    ∀ {i s}, i + k = n → Filling side h i n n s →
      (takeBytes side.fills addr k i).Safe (Inv r m) (contract r m (.side side)) ok
        (fun _ s => Filling side h n n n s) s := by
  induction k with
  | zero =>
    intro i s hik hf
    obtain rfl : i = n := hik
    exact Safe.done Filling.stable hf
  | succ k ih =>
    intro i s hik hf
    refine Safe.write (Safe.stays Filling.stable) (fun s hf hi _ => ?_) hf
    rw [haddr i (by omega)]
    obtain ⟨hguar, hnext⟩ := takeByte_guar hi hf (by omega) (by omega)
    exact ⟨hguar, ih (by omega) hnext⟩

def Read (m : Option Dir) (side : Side) (h run : Nat) : Received → Wire → Prop
  | .blocked, s => Filling side h 0 run 0 s
  | .ended, s => Filling side h 0 run 0 s ∧ Gone m side s
  | .got n, s => Filling side h n n n s

theorem recv_safe {run : Nat} (haddr : ∀ i < run, addr i = r.cell side.fills.off (h + i))
    (hf : Filling side h 0 run 0 s) :
    (recv side.fills addr run).Safe (Inv r m) (contract r m (.side side)) ok (fun a s => Read m side h run a s) s := by
  have hlaw := contract_lawful r m (.side side)
  refine Safe.pick fun n => ?_
  by_cases hn : n = 0
  · rw [if_pos hn]
    exact Safe.done Filling.stable hf
  rw [if_neg hn]
  refine Safe.read hlaw (Safe.stays Filling.stable) (fun s hf hi => ?_) hf
  dsimp only
  have htaken := hf.taken
  have hle := (hi.ring hf.live side.fills).taken_le
  by_cases hleft : (s.pipe side.fills).sent.length - (s.pipe side.fills).taken = 0
  · rw [if_pos hleft]
    cases hended : (s.pipe side.fills).ended with
    | false => exact Safe.done Filling.stable hf
    | true =>
      have hgone : Gone m side s := ⟨hended, fun _ => by omega⟩
      refine Safe.ret (P := fun s => Filling side h 0 run 0 s ∧ Gone m side s) (fun hf hr hi => ?_)
        (fun _ hf _ => hf) ⟨hf, hgone⟩
      exact ⟨hf.1.stable hr, hf.2.grows hi (hr.left.trans hf.1.live) (hr.grows side.fills)⟩
  rw [if_neg hleft]
  -- As many bytes are taken as the peer has sent and there is room for.
  generalize hk : min n (min run ((s.pipe side.fills).sent.length - (s.pipe side.fills).taken)) = k
  have hrun : k ≤ run := by omega
  have hsupply : h + k ≤ (s.pipe side.fills).sent.length := by omega
  have hfk : Filling side h 0 k k s :=
    { hf with room := by have := hf.room; omega, supply := hsupply }
  refine Safe.bind hlaw hi ?_
  refine (takeBytes_safe (fun i hi => haddr i (by omega)) k (Nat.zero_add k) hfk).mono fun _ s _ hf => ?_
  exact Safe.done Filling.stable hf

theorem publish_guar {n : Nat} (hi : Inv r m s) (hf : Filling side h n n n s) :
    Guar r m side s (s.publish side.fills (ullong (ullong h + n)) n) ∧
      After m side (some n) (s.publish side.fills (ullong (ullong h + n)) n) := by
  have hring := hi.ring hf.live side.fills
  have hhead : ullong h = (s.pipe side.fills).head := by rw [hring.head, hf.shown]
  have hshown := hf.shown
  have htaken := hf.taken
  refine ⟨?_, hf.live, ⟨?_, ?_⟩, fun hnone => by cases hnone⟩
  · rw [hhead]
    exact Guar.fills hi hf.live (Grows.publish _ _ _) rfl (hi.order side.fills) (hring.publish (by omega))
      (fun _ => rfl) ⟨rfl, rfl, rfl⟩
  · simp [Wire.publish, Wire.setPipe, hshown, htaken]
  · have hne : side.empties ≠ side.fills := by cases side <;> decide
    simpa [Wire.publish, Wire.setPipe, hne] using hf.rested

theorem fill_safe {run : Nat} (haddr : ∀ i < run, addr i = r.cell side.fills.off (h + i))
    (hi : Inv r m s) (hf : Filling side h 0 run 0 s) :
    (fill (recv side.fills addr run) fun n s => s.publish side.fills (ullong (ullong h + n)) n).Safe (Inv r m)
      (contract r m (.side side)) ok (fun a s => After m side a s) s := by
  have hlaw := contract_lawful r m (.side side)
  refine Safe.bind hlaw hi ((recv_safe haddr hf).mono fun a s _ hread => ?_)
  cases a with
  | blocked =>
    exact Safe.ret (Safe.stays Filling.stable)
      (fun _ hf _ => ⟨hf.live, hf.resting, fun hnone => by cases hnone⟩) hread
  | ended =>
    exact Safe.ret (P := After m side none) (fun ha hr hi => ha.stable hr hi) (fun _ ha _ => ha)
      ⟨hread.1.live, hread.1.resting, fun _ => hread.2⟩
  | got n =>
    refine Safe.write (Safe.stays Filling.stable) (fun s hf hi _ => ?_) hread
    obtain ⟨hguar, hafter⟩ := publish_guar hi hf
    exact ⟨hguar, Safe.ret (fun ha hr hi => ha.stable hr hi) (fun _ ha _ => ha) hafter⟩

end

/-! ## Emptying -/

section

variable {ok : Wire → Wire → Prop} {t : Nat} {addr : Nat → Nat}

theorem giveByte_guar {j avail : Nat} (hi : Inv r m s) (he : Emptying side t j avail s) (hj : j < avail) :
    Guar r m side s (s.giveByte side.empties (r.cell side.empties.off (t + j))) ∧
      Emptying side t (j + 1) avail (s.giveByte side.empties (r.cell side.empties.off (t + j))) := by
  have hring := hi.ring he.live side.empties
  have havail := he.avail
  have hgiven := he.given
  have hlt : (s.pipe side.empties).given.length < (s.pipe side.empties).shown := by omega
  refine ⟨?_, ?_⟩
  · rw [← hgiven]
    exact Guar.empties hi he.live (Grows.giveByte _ _) rfl (hring.next (hi.order _) hlt) (hring.giveByte _ hlt)
      ⟨rfl, rfl, rfl⟩
  · have hne : side.fills ≠ side.empties := by cases side <;> decide
    refine ⟨he.live, ?_, ?_, ?_, ?_⟩
    · simpa [Wire.giveByte, Wire.setPipe] using he.freed
    · simp [Wire.giveByte, Wire.setPipe, hgiven, Nat.add_assoc]
    · simpa [Wire.giveByte, Wire.setPipe] using havail
    · simpa [Wire.giveByte, Wire.setPipe, hne] using he.rested

theorem giveBytes_safe {n avail : Nat} (haddr : ∀ j < n, addr j = r.cell side.empties.off (t + j)) (hn : n ≤ avail)
    (k : Nat) : ∀ {j s}, j + k = n → Emptying side t j avail s →
      (giveBytes side.empties addr k j).Safe (Inv r m) (contract r m (.side side)) ok
        (fun _ s => Emptying side t n avail s) s := by
  induction k with
  | zero =>
    intro j s hjk he
    obtain rfl : j = n := hjk
    exact Safe.done Emptying.stable he
  | succ k ih =>
    intro j s hjk he
    refine Safe.write (Safe.stays Emptying.stable) (fun s he hi _ => ?_) he
    rw [haddr j (by omega)]
    obtain ⟨hguar, hnext⟩ := giveByte_guar hi he (by omega)
    exact ⟨hguar, ih (by omega) hnext⟩

def Written (m : Option Dir) (side : Side) (t avail : Nat) : Sent → Wire → Prop
  | .blocked, s => Emptying side t 0 avail s
  | .broken, s => Emptying side t 0 avail s ∧ Gone m side s
  | .put n, s => n ≤ avail ∧ Emptying side t n avail s

theorem Guar.broken (hi : Inv r m s) (f : Dir → Nat) : Guar r m side s { s with broken := f } :=
  ⟨hi.grow (fun _ => .refl _) rfl rfl rfl (fun _ _ => rfl) hi.order hi.rings, fun _ => .refl _, rfl, fun _ h => h,
    fun _ h => h, .refl _, .refl _⟩

theorem send_safe (hok : ∀ s s', ok s s' → Allowed m s s') {run avail : Nat} (hrun : run ≤ avail)
    (haddr : ∀ j < run, addr j = r.cell side.empties.off (t + j)) (he : Emptying side t 0 avail s) :
    (send side.empties addr run).Safe (Inv r m) (contract r m (.side side)) ok
      (fun a s => Written m side t avail a s) s := by
  have hlaw := contract_lawful r m (.side side)
  refine Safe.pick fun n => Safe.pick fun fails => ?_
  by_cases hn : n = 0
  · rw [if_pos hn]
    exact Safe.done Emptying.stable he
  rw [if_neg hn]
  refine Safe.act (Safe.stays Emptying.stable) (fun s b s' he hi hf ha => ?_) he
  cases hf
  cases hgone : decide (fails ≠ 0) && s.sinkEnded side.empties with
  | true =>
    -- The write fails: the peer has closed, and an orderly run has read all its bytes by then.
    rw [if_pos rfl]
    rw [hgone, if_pos rfl] at ha
    have hended : (s.pipe side.fills).ended = true := by
      rw [Bool.and_eq_true, Wire.sinkEnded, Side.empties_other] at hgone
      exact hgone.2
    have hwritten : Gone m side s := by
      refine ⟨hended, fun hm => (hok _ _ ha _ hm).broken ?_⟩
      rw [Side.fills_other]
      simp
    refine ⟨Guar.broken hi _, ?_⟩
    refine Safe.ret (P := fun s => Emptying side t 0 avail s ∧ Gone m side s) (fun he hr hi => ?_)
      (fun _ he _ => he) ⟨{ he with }, hwritten⟩
    exact ⟨he.1.stable hr, he.2.grows hi (hr.left.trans he.1.live) (hr.grows side.fills)⟩
  | false =>
    refine ⟨Guar.refl hi, ?_⟩
    change (giveBytes side.empties addr (min n run) 0 >>= fun _ => pure (Sent.put (min n run))).Safe _ _ _ _ s
    refine Safe.bind hlaw hi ?_
    have hmin : min n run ≤ run := Nat.min_le_right _ _
    refine (giveBytes_safe (fun j hj => haddr j (by omega)) (Nat.le_trans hmin hrun) _ (Nat.zero_add _) he).mono
      fun _ s _ he => ?_
    exact Safe.ret (fun he hr _ => he.stable hr) (fun _ he _ => ⟨Nat.le_trans hmin hrun, he⟩) he

theorem release_guar {n avail : Nat} (hi : Inv r m s) (he : Emptying side t n avail s) :
    Guar r m side s (s.release side.empties (ullong (ullong t + n)) n) ∧
      Emptying side (t + n) 0 (avail - n) (s.release side.empties (ullong (ullong t + n)) n) := by
  have hring := hi.ring he.live side.empties
  have htail : ullong t = (s.pipe side.empties).tail := by rw [hring.tail, he.freed]
  have hfreed := he.freed
  have hgiven := he.given
  have havail := he.avail
  have hle := hring.given_le
  refine ⟨?_, ?_⟩
  · rw [htail]
    exact Guar.empties hi he.live (Grows.release _ _ _) rfl (hi.order side.empties) (hring.release (by omega))
      ⟨rfl, rfl, rfl⟩
  · have hne : side.fills ≠ side.empties := by cases side <;> decide
    refine ⟨he.live, ?_, ?_, ?_, ?_⟩
    · simp [Wire.release, Wire.setPipe, hfreed]
    · simpa [Wire.release, Wire.setPipe] using hgiven
    · simp only [Wire.release, Wire.setPipe, update_self]
      omega
    · simpa [Wire.release, Wire.setPipe, hne] using he.rested

end

end MoCoLinux.Xwire
