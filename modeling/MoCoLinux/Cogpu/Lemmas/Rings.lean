import MoCoLinux.Cogpu.Rings

/-!
# What the guest and the daemon rely on
-/

namespace MoCoLinux.Cogpu.Rings

open Function
open Threads (Prog Contract)

variable {s s' s'' : State} {i j : Index} {r : Ring} {h : Held} {w : Word} {v : Nat} {D : Index → Prop} {pass : Pass}

structure Inv (s : State) : Prop where
  log : ∀ t ∈ s.log, t.Ok
  held : ∀ i h, s.vq i = some h → ∃ r, s.live i = some r ∧ h.On r
  adopting : ∀ i, s.adopting = some i → s.live i ≠ none
  words : ∀ i r, s.live i = some r → s.io i = r.word
  listed : ∀ i r, s.live i = some r → (i, r) ∈ s.vqs
  atStart : ∀ i r, s.atStart i = some r → s.live i = some r

def Busy (s : State) (i : Index) : Prop := s.vq i ≠ none ∨ s.adopting = some i

theorem Inv.busy (hs : Inv s) (hb : Busy s i) : s.live i ≠ none := by
  rcases hb with hb | hb
  · obtain ⟨h, hh⟩ := Option.ne_none_iff_exists'.mp hb
    obtain ⟨r, hr, -⟩ := hs.held i h hh
    rw [hr]
    exact Option.some_ne_none r
  · exact hs.adopting i hb

structure GuestStep (s s' : State) : Prop where
  vq : s'.vq = s.vq
  adopting : s'.adopting = s.adopting
  resolves : s'.resolves = s.resolves
  busy : ∀ i, Busy s i → s'.live i = s.live i
  atStart : ∀ i r, s'.atStart i = some r → s.atStart i = some r

structure DaemonStep (s s' : State) : Prop where
  io : s'.io = s.io
  live : s'.live = s.live
  vqs : s'.vqs = s.vqs

theorem GuestStep.refl (s : State) : GuestStep s s := ⟨rfl, rfl, rfl, fun _ _ => rfl, fun _ _ h => h⟩

theorem GuestStep.trans (h : GuestStep s s') (h' : GuestStep s' s'') : GuestStep s s'' where
  vq := h'.vq.trans h.vq
  adopting := h'.adopting.trans h.adopting
  resolves := h'.resolves.trans h.resolves
  busy := by
    intro i hb
    have hb' : Busy s' i := by rwa [Busy, h.vq, h.adopting]
    exact (h'.busy i hb').trans (h.busy i hb)
  atStart := fun i r hr => h.atStart i r (h'.atStart i r hr)

theorem DaemonStep.refl (s : State) : DaemonStep s s := ⟨rfl, rfl, rfl⟩

theorem DaemonStep.trans (h : DaemonStep s s') (h' : DaemonStep s' s'') : DaemonStep s s'' :=
  ⟨h'.io.trans h.io, h'.live.trans h.live, h'.vqs.trans h.vqs⟩

def Done (s : State) (i : Index) : Prop :=
  ∀ r, s.atStart i = some r → s.resolves i r = true → ∃ h, s.vq i = some h ∧ h.On r

structure Settled (D : Index → Prop) (s : State) : Prop where
  adopting : s.adopting = none
  done : ∀ i, D i → Done s i

def guest : Contract State where
  rely := DaemonStep
  guar s s' := Inv s' ∧ GuestStep s s'
  idle _ := True

def daemon : Contract State where
  rely := GuestStep
  guar s s' := Inv s' ∧ DaemonStep s s'
  idle := Settled fun _ => True

theorem Done.stable (hd : Done s i) (hstep : GuestStep s s') : Done s' i := by
  intro r hstart hres
  rw [hstep.resolves] at hres
  rw [hstep.vq]
  exact hd r (hstep.atStart i r hstart) hres

theorem Settled.stable (hs : Settled D s) (hstep : GuestStep s s') : Settled D s' :=
  ⟨hstep.adopting.trans hs.adopting, fun i hi => (hs.done i hi).stable hstep⟩

theorem guest_lawful : guest.Lawful Inv where
  refl := DaemonStep.refl
  trans := DaemonStep.trans
  still hs := ⟨hs, .refl _⟩
  keeps _ hg := hg.1
  idle _ _ _ := trivial

theorem daemon_lawful : daemon.Lawful Inv where
  refl := GuestStep.refl
  trans := GuestStep.trans
  still hs := ⟨hs, .refl _⟩
  keeps _ hg := hg.1
  idle hs hstep _ := hs.stable hstep

theorem Inv.setWord (hs : Inv s) (hok : ∀ j, (setWord s i w v).io j ≠ s.io j → s.live j = none) :
    Inv (setWord s i w v) := by
  refine { hs with words := fun j r hr => ?_ }
  have hio : (Rings.setWord s i w v).io j = s.io j := by
    by_contra hne
    have hnone := hok j hne
    rw [show s.live j = some r from hr] at hnone
    cases hnone
  exact hio.trans (hs.words j r hr)

theorem setWord_step (s : State) (i : Index) (w : Word) (v : Nat) : GuestStep s (setWord s i w v) :=
  ⟨rfl, rfl, rfl, fun _ _ => rfl, fun _ _ hr => hr⟩

variable {o : Option Ring}

theorem setLive_live_ne (hne : j ≠ i) : (setLive s i o).live j = s.live j :=
  update_of_ne hne ..

theorem setLive_live_self : (setLive s i o).live i = o := update_self ..

theorem setLive_atStart (hr : (setLive s i o).atStart j = some r) :
    j ≠ i ∧ s.atStart j = some r := by
  have hne : j ≠ i := by
    rintro rfl
    have hnone : (setLive s j o).atStart j = none := update_self ..
    rw [hnone] at hr
    cases hr
  exact ⟨hne, (update_of_ne hne ..).symm.trans hr⟩

theorem setLive_step (hbusy : Busy s i → s.live i = o) : GuestStep s (setLive s i o) where
  vq := rfl
  adopting := rfl
  resolves := rfl
  busy := by
    intro j hj
    by_cases heq : j = i
    · subst heq
      rw [setLive_live_self, hbusy hj]
    · exact setLive_live_ne heq
  atStart := fun _ _ hr => (setLive_atStart hr).2

theorem Orderly.idle (hok : Orderly s s') (hlive : s.live i ≠ none) (hgone : s'.live i = none) : ¬ Busy s i := by
  obtain ⟨hvq, hadopting⟩ := hok.deletes i hlive hgone
  rintro (hb | hb)
  · exact hb hvq
  · exact hadopting hb

theorem Inv.setLive_none (hs : Inv s) (hidle : ¬ Busy s i) : Inv (setLive s i none) := by
  have hother : ∀ {j r}, (setLive s i none).live j = some r → s.live j = some r := by
    intro j r hr
    have hne : j ≠ i := by
      rintro rfl
      rw [setLive_live_self] at hr
      cases hr
    rwa [setLive_live_ne hne] at hr
  have hbusy : ∀ {j}, Busy s j → (setLive s i none).live j = s.live j := fun hb =>
    setLive_live_ne fun heq => hidle (heq ▸ hb)
  constructor
  case log => exact hs.log
  case held =>
    intro j h hh
    rw [hbusy (.inl (by rw [show s.vq j = some h from hh]; exact Option.some_ne_none h))]
    exact hs.held j h hh
  case adopting =>
    intro j hj
    rw [hbusy (.inr hj)]
    exact hs.adopting j hj
  case words => exact fun j r hr => hs.words j r (hother hr)
  case listed => exact fun j r hr => hs.listed j r (hother hr)
  case atStart =>
    intro j r hr
    obtain ⟨hne, hr⟩ := setLive_atStart hr
    rw [setLive_live_ne hne]
    exact hs.atStart j r hr

theorem Inv.setLive_some (hs : Inv s) (hold : ∀ r', s.live i = some r' → r' = r) (hwords : s.io i = r.word)
    (hlisted : (i, r) ∈ s.vqs) : Inv (setLive s i (some r)) := by
  have hstays : ∀ {j r'}, s.live j = some r' → (setLive s i (some r)).live j = some r' := by
    intro j r' hr'
    by_cases heq : j = i
    · subst heq
      rw [setLive_live_self, hold r' hr']
    · rw [setLive_live_ne heq, hr']
  have hcases : ∀ {j r'}, (setLive s i (some r)).live j = some r' → j = i ∧ r' = r ∨ s.live j = some r' := by
    intro j r' hr'
    by_cases heq : j = i
    · subst heq
      rw [setLive_live_self] at hr'
      exact .inl ⟨rfl, (Option.some.inj hr').symm⟩
    · exact .inr ((setLive_live_ne heq).symm.trans hr')
  constructor
  case log => exact hs.log
  case held =>
    intro j h hh
    obtain ⟨r', hr', hon⟩ := hs.held j h hh
    exact ⟨r', hstays hr', hon⟩
  case adopting =>
    intro j hj
    obtain ⟨r', hr'⟩ := Option.ne_none_iff_exists'.mp (hs.adopting j hj)
    rw [hstays hr']
    exact Option.some_ne_none r'
  case words =>
    intro j r' hr'
    rcases hcases hr' with ⟨rfl, rfl⟩ | hr'
    · exact hwords
    · exact hs.words j r' hr'
  case listed =>
    intro j r' hr'
    rcases hcases hr' with ⟨rfl, rfl⟩ | hr'
    · exact hlisted
    · exact hs.listed j r' hr'
  case atStart => exact fun j r' hr' => hstays (hs.atStart j r' (setLive_atStart hr').2)

theorem Inv.freeFirst (hs : Inv s) (hok : Orderly s (freeFirst s)) :
    Inv (freeFirst s) ∧ GuestStep s (freeFirst s) := by
  rw [Rings.freeFirst] at hok ⊢
  split
  · exact ⟨hs, .refl s⟩
  · rename_i i r rest hvqs
    rw [hvqs] at hok
    dsimp only at hok
    by_cases hlive : s.live i = some r
    · rw [if_pos hlive] at hok ⊢
      have hsome : s.live i ≠ none := hlive ▸ Option.some_ne_none r
      have hidle := hok.idle (i := i) hsome setLive_live_self
      have hinv := hs.setLive_none hidle
      have hstep : GuestStep s (setLive s i none) := setLive_step fun hb => absurd hb hidle
      refine ⟨{ hinv with listed := fun j r' hr' => ?_ }, { hstep with }⟩
      have hmem := hinv.listed j r' hr'
      rw [show (setLive s i none).vqs = (i, r) :: rest from hvqs] at hmem
      rcases List.mem_cons.mp hmem with heq | hmem
      · obtain ⟨rfl, rfl⟩ := Prod.mk.inj heq
        rw [show (setLive s j none).live j = none from setLive_live_self] at hr'
        cases hr'
      · exact hmem
    · rw [if_neg hlive]
      refine ⟨{ hs with listed := fun j r' hr' => ?_ }, ⟨rfl, rfl, rfl, fun _ _ => rfl, fun _ _ hr => hr⟩⟩
      have hmem := hs.listed j r' hr'
      rw [hvqs] at hmem
      rcases List.mem_cons.mp hmem with heq | hmem
      · obtain ⟨rfl, rfl⟩ := Prod.mk.inj heq
        exact absurd hr' hlive
      · exact hmem

abbrev GuestSafe (p : Prog State Unit) (s : State) : Prop := p.Safe Inv guest Orderly (fun _ _ => True) s

variable {k : Unit → Prog State Unit}

theorem guest_write {g : State → State}
    (hg : ∀ s, Inv s → Orderly s (g s) → Inv (g s) ∧ GuestStep s (g s)) (hk : ∀ s, Inv s → GuestSafe (k ()) s) :
    GuestSafe (Prog.write g >>= k) s := by
  intro t _ ht b t' hact hok
  cases hact
  obtain ⟨hinv, hstep⟩ := hg t ht hok
  exact ⟨⟨hinv, hstep⟩, hk _ hinv⟩

theorem guest_ret : GuestSafe (Prog.ret ()) s := fun _ _ _ => trivial

theorem guest_bind {p : Prog State Unit} (hs : Inv s) (hp : GuestSafe p s)
    (hk : ∀ s, Inv s → GuestSafe (k ()) s) : GuestSafe (p >>= k) s :=
  Prog.Safe.bind guest_lawful hs (hp.mono fun _ s hs _ => hk s hs)

theorem Inv.stored (hs : Inv s) (hok : Orderly s (Rings.setWord s i w v)) :
    Inv (Rings.setWord s i w v) ∧ GuestStep s (Rings.setWord s i w v) :=
  ⟨hs.setWord fun j hne => hok.stores j (.inl hne), setWord_step s i w v⟩

theorem deleteRings_safe (n : Nat) : GuestSafe (deleteRings n) s := by
  induction n generalizing s with
  | zero => exact guest_ret
  | succ n ih => exact guest_write (fun _ hs hok => hs.freeFirst hok) fun _ _ => ih

theorem clearWords_safe (i : Index) : GuestSafe (clearWords i) s := by
  refine guest_write (fun _ hs hok => hs.stored hok) fun _ _ => ?_
  refine guest_write (fun _ hs hok => hs.stored hok) fun _ _ => ?_
  refine guest_write (fun _ hs hok => hs.stored hok) fun _ _ => ?_
  exact guest_write (k := Prog.ret) (fun _ hs hok => hs.stored hok) fun _ _ => guest_ret

theorem delVqs_safe : GuestSafe delVqs s := by
  refine Prog.Safe.read guest_lawful Prog.Safe.always (fun s _ hs => ?_) trivial
  refine guest_bind hs (deleteRings_safe _) fun s hs => ?_
  exact guest_bind hs (clearWords_safe 0) fun s _ => clearWords_safe 1

structure Stored (i : Index) (r : Ring) (ws : List Word) (s : State) : Prop where
  listed : (i, r) ∈ s.vqs
  words : ∀ w ∈ ws, s.io i w = r.word w

variable {ws : List Word}

theorem Stored.stable (h : Stored i r ws s) (hstep : DaemonStep s s') : Stored i r ws s' where
  listed := hstep.vqs.symm ▸ h.listed
  words := by
    rw [hstep.io]
    exact h.words

theorem Stored.setWord (h : Stored i r ws s) (w : Word) :
    Stored i r (w :: ws) (setWord s i w (r.word w)) where
  listed := h.listed
  words := by
    intro w' hw'
    have hio : (Rings.setWord s i w (r.word w)).io i = update (s.io i) w (r.word w) := update_self ..
    rw [hio]
    by_cases heq : w' = w
    · rw [heq, update_self]
    · rw [update_of_ne heq]
      exact h.words w' ((List.mem_cons.mp hw').resolve_left heq)

theorem publishWord_safe (h : Stored i r ws s) (w : Word)
    (hk : ∀ s, Inv s → Stored i r (w :: ws) s → GuestSafe (k ()) s) :
    GuestSafe (Prog.write (fun s => setWord s i w (r.word w)) >>= k) s := by
  refine Prog.Safe.write (P := Stored i r ws) (fun h hstep _ => h.stable hstep) (fun s h hs hok => ?_) h
  obtain ⟨hinv, hstep⟩ := hs.stored hok
  exact ⟨⟨hinv, hstep⟩, hk _ hinv (h.setWord w)⟩

theorem Inv.publish (hs : Inv s) (h : Stored i r [.usedGpa, .availGpa, .descGpa] s)
    (hok : Orderly s (setLive (Rings.setWord s i .num r.num) i (some r))) :
    Inv (setLive (Rings.setWord s i .num r.num) i (some r)) ∧
      GuestStep s (setLive (Rings.setWord s i .num r.num) i (some r)) := by
  have hold : ∀ r', s.live i = some r' → r' = r := by
    intro r' hr'
    by_contra hne
    have hnone := hok.stores i (.inr ⟨?_, ?_⟩)
    · rw [hr'] at hnone
      cases hnone
    · rw [setLive_live_self, hr']
      exact fun heq => hne (Option.some.inj heq).symm
    · rw [setLive_live_self]
      exact Option.some_ne_none r
  have hinv := hs.setWord (i := i) (w := .num) (v := r.num) fun j hne => hok.stores j (.inl hne)
  have hall := h.setWord .num
  have hwords : (Rings.setWord s i .num r.num).io i = r.word := by
    funext w
    exact hall.words w (by cases w <;> simp)
  refine ⟨hinv.setLive_some hold hwords h.listed, (setWord_step s i .num r.num).trans (setLive_step fun hb => ?_)⟩
  obtain ⟨r', hr'⟩ := Option.ne_none_iff_exists'.mp (hinv.busy hb)
  rw [hr', hold r' hr']

theorem publish_safe (h : Stored i r [] s) : GuestSafe (publish i r) s := by
  refine publishWord_safe h .descGpa fun s _ h => ?_
  refine publishWord_safe h .availGpa fun s _ h => ?_
  refine publishWord_safe h .usedGpa fun s _ h => ?_
  refine Prog.Safe.writeLast (fun h hstep _ => h.stable hstep) (fun s h hs hok => ?_) h
  exact ⟨hs.publish h hok, fun _ _ _ => trivial⟩

theorem findLoop_safe (alloc : Index → Option Ring) (l : List Index) (hs : Inv s) :
    GuestSafe (findLoop alloc l) s := by
  induction l generalizing s with
  | nil => exact guest_ret
  | cons i rest ih =>
    rw [findLoop]
    split
    · exact delVqs_safe
    · rename_i r _
      refine Prog.Safe.write Prog.Safe.always (fun s _ hs _ => ?_) trivial
      have hinv : Inv { s with vqs := s.vqs ++ [(i, r)] } :=
        { hs with listed := fun j r' hr' => List.mem_append_left _ (hs.listed j r' hr') }
      refine ⟨⟨hinv, rfl, rfl, rfl, fun _ _ => rfl, fun _ _ hr => hr⟩, ?_⟩
      have hstored : Stored i r [] { s with vqs := s.vqs ++ [(i, r)] } :=
        ⟨List.mem_append_right _ List.mem_cons_self, by simp⟩
      exact guest_bind hinv (publish_safe hstored) fun s hs => ih hs

theorem findVqs_safe (nvqs : Nat) (named : Index → Bool) (alloc : Index → Option Ring) (hs : Inv s) :
    GuestSafe (findVqs nvqs named alloc) s := by
  rw [findVqs]
  split
  · exact guest_ret
  · exact findLoop_safe alloc _ hs

end MoCoLinux.Cogpu.Rings
