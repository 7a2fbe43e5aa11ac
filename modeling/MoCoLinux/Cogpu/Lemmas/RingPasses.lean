import MoCoLinux.Cogpu.Lemmas.Rings

/-!
# The passes of the daemon keep to the rings
-/

namespace MoCoLinux.Cogpu.Rings

open Function
open Threads (Prog)
open Threads.Prog (Safe)

variable {s s' : State} {i j : Index} {r : Ring} {h : Held} {D : Index → Prop} {pass : Pass} {P : State → Prop}

abbrev DaemonSafe {α : Type} (Q : α → State → Prop) (p : Prog State α) (s : State) : Prop :=
  p.Safe Inv daemon Orderly Q s

structure Stable (P : State → Prop) : Prop where
  guest : ∀ {s s'}, P s → GuestStep s s' → P s'
  log : ∀ {s}, P s → ∀ l, P { s with log := l }

theorem daemon_ret {α : Type} {a : α} (hst : Stable P) (hP : P s) : DaemonSafe (fun _ => P) (Prog.ret a) s :=
  fun _ hstep _ => hst.guest hP hstep

theorem Held.On.ptr (hon : h.On r) (area : Area) : h.ptr area = r.ptr area := by
  obtain ⟨hdesc, havail, hused, -⟩ := hon
  cases area with
  | desc => exact hdesc
  | avail => exact havail
  | used => exact hused

theorem touch_safe (hst : Stable P) (a : Access) (hP : P s) : DaemonSafe (fun _ => P) (touch i a) s := by
  refine Safe.writeLast (fun hP hstep _ => hst.guest hP hstep) (fun s hP hs _ => ?_) hP
  split
  · exact ⟨⟨hs, .refl s⟩, fun _ hstep _ => hst.guest hP hstep⟩
  · rename_i h hh
    obtain ⟨r, hr, hon⟩ := hs.held i h hh
    refine ⟨⟨{ hs with log := fun t ht => ?_ }, ⟨rfl, rfl, rfl⟩⟩, fun _ hstep _ => hst.guest (hst.log hP _) hstep⟩
    rcases List.mem_append.mp ht with ht | ht
    · exact hs.log t ht
    · rw [List.mem_singleton.mp ht]
      exact ⟨r, hr, hon.ptr a.area⟩

theorem touchAll_safe (hst : Stable P) (l : List Access) (hs : Inv s) (hP : P s) :
    DaemonSafe (fun _ => P) (touchAll i l) s := by
  induction l generalizing s with
  | nil => exact daemon_ret hst hP
  | cons a rest ih =>
    refine Safe.bind daemon_lawful hs ((touch_safe hst a hP).mono fun _ s hs hP => ?_)
    exact ih hs hP

theorem Settled.stays (D : Index → Prop) : Stable (Settled D) where
  guest h hstep := h.stable hstep
  log h _ := ⟨h.adopting, h.done⟩

structure Has (D : Index → Prop) (i : Index) (h : Held) (s : State) : Prop where
  settled : Settled D s
  held : s.vq i = some h

theorem Has.stays (D : Index → Prop) (i : Index) (h : Held) : Stable (Has D i h) where
  guest hP hstep := ⟨hP.settled.stable hstep, by rw [hstep.vq]; exact hP.held⟩
  log hP l := ⟨(Settled.stays D).log hP.settled l, hP.held⟩

theorem Has.setVring (hP : Has D i h s) (hs : Inv s) {vr : Vring} (hnum : vr.num = h.vr.num) :
    Inv (setVring s i h vr) ∧ Settled D (setVring s i h vr) := by
  have hon : ∀ {r}, h.On r → Held.On { h with vr := vr } r := fun hon => ⟨hon.1, hon.2.1, hon.2.2.1, hnum.trans hon.2.2.2⟩
  have hkeeps : ∀ {j h' r}, s.vq j = some h' → h'.On r →
      ∃ h'', (Rings.setVring s i h vr).vq j = some h'' ∧ h''.On r := by
    intro j h' r hh' hon'
    by_cases heq : j = i
    · subst heq
      rw [hP.held] at hh'
      exact ⟨_, update_self .., hon (Option.some.inj hh' ▸ hon')⟩
    · exact ⟨h', (update_of_ne heq ..).trans hh', hon'⟩
  constructor
  · refine { hs with held := fun j h' hh' => ?_ }
    by_cases heq : j = i
    · subst heq
      have hself : (Rings.setVring s j h vr).vq j = some { h with vr := vr } := update_self ..
      rw [hself] at hh'
      obtain ⟨r, hr, hon'⟩ := hs.held j h hP.held
      exact ⟨r, hr, Option.some.inj hh' ▸ hon hon'⟩
    · exact hs.held j h' ((update_of_ne heq ..).symm.trans hh')
  · refine ⟨hP.settled.adopting, fun j hj r hstart hres => ?_⟩
    obtain ⟨h', hh', hon'⟩ := hP.settled.done j hj r hstart hres
    exact hkeeps hh' hon'

theorem afterPop_num (vr : Vring) (view : View) : (vr.afterPop view).num = vr.num := by
  rw [Vring.afterPop]
  split <;> rfl

theorem setVring_safe {α : Type} {vr : Vring} {k : Unit → Prog State α} {Q : α → State → Prop} (hP : Has D i h s)
    (hnum : vr.num = h.vr.num) (hk : ∀ s, Inv s → Settled D s → DaemonSafe Q (k ()) s) :
    DaemonSafe Q (Prog.write (fun s => setVring s i h vr) >>= k) s := by
  refine Safe.write (fun hP hstep _ => (Has.stays D i h).guest hP hstep) (fun s hP hs _ => ?_) hP
  obtain ⟨hinv, hsettled⟩ := hP.setVring hs hnum
  exact ⟨⟨hinv, ⟨rfl, rfl, rfl⟩⟩, hk _ hinv hsettled⟩

theorem pop_safe (view : View) (hP : Settled D s) : DaemonSafe (fun _ => Settled D) (pop i view) s := by
  refine Safe.read daemon_lawful (fun hP hstep _ => hP.stable hstep) (fun s hP hs => ?_) hP
  split
  · exact daemon_ret (Settled.stays D) hP
  · rename_i h hh
    refine Safe.bind daemon_lawful hs ((touchAll_safe (Has.stays D i h) _ hs ⟨hP, hh⟩).mono fun _ s _ hP => ?_)
    exact setVring_safe hP (afterPop_num h.vr view) fun s _ hP => daemon_ret (Settled.stays D) hP

theorem push_safe (hP : Settled D s) : DaemonSafe (fun _ => Settled D) (push i) s := by
  refine Safe.read daemon_lawful (fun hP hstep _ => hP.stable hstep) (fun s hP hs => ?_) hP
  split
  · exact daemon_ret (Settled.stays D) hP
  · rename_i h hh
    refine Safe.bind daemon_lawful hs ((touchAll_safe (Has.stays D i h) _ hs ⟨hP, hh⟩).mono fun _ s _ hP => ?_)
    exact setVring_safe (k := Prog.ret) hP rfl fun s _ hP => daemon_ret (Settled.stays D) hP

theorem parked_safe {k : Unit → Prog State Unit} (g : State → List Index) (hP : Settled D s)
    (hk : ∀ s, Inv s → Settled D s → DaemonSafe (fun _ => Settled D) (k ()) s) :
    DaemonSafe (fun _ => Settled D) (Prog.write (fun s => { s with parked := g s }) >>= k) s := by
  refine Safe.write (fun hP hstep _ => hP.stable hstep) (fun s hP hs _ => ?_) hP
  exact ⟨⟨{ hs with }, ⟨rfl, rfl, rfl⟩⟩, hk _ { hs with } ⟨hP.adopting, hP.done⟩⟩

theorem serve_safe (l : List (View × Bool)) (hs : Inv s) (hP : Settled D s) :
    DaemonSafe (fun _ => Settled D) (serve i l) s := by
  induction l generalizing s with
  | nil => exact touch_safe (Settled.stays D) _ hP
  | cons e rest ih =>
    obtain ⟨view, park⟩ := e
    refine Safe.bind daemon_lawful hs ((pop_safe view hP).mono fun some s hs hP => ?_)
    cases some with
    | false => exact daemon_ret (Settled.stays D) hP
    | true =>
      cases park with
      | true => exact parked_safe _ hP fun s hs hP => ih hs hP
      | false => exact Safe.bind daemon_lawful hs ((push_safe hP).mono fun _ s hs hP => ih hs hP)

theorem retire_safe (l : List Nat) (hP : Settled D s) : DaemonSafe (fun _ => Settled D) (retire l) s := by
  induction l generalizing s with
  | nil => exact daemon_ret (Settled.stays D) hP
  | cons k rest ih =>
    refine Safe.read daemon_lawful (fun hP hstep _ => hP.stable hstep) (fun s hP hs => ?_) hP
    split
    · exact ih hP
    · refine Safe.bind daemon_lawful hs ((push_safe hP).mono fun _ s hs hP => ?_)
      exact parked_safe _ hP fun s _ hP => ih hP

structure Ready (pass : Pass) (D : Index → Prop) (s : State) : Prop where
  settled : Settled D s
  resolves : s.resolves = pass.resolves

theorem Ready.stays (pass : Pass) (D : Index → Prop) : Stable (Ready pass D) where
  guest hP hstep := ⟨hP.settled.stable hstep, hstep.resolves.trans hP.resolves⟩
  log hP l := ⟨(Settled.stays D).log hP.settled l, hP.resolves⟩

theorem Ready.add (hP : Ready pass D s) (hdone : Done s i) : Ready pass (fun j => j = i ∨ D j) s := by
  refine ⟨⟨hP.settled.adopting, fun j hj => ?_⟩, hP.resolves⟩
  rcases hj with rfl | hj
  · exact hdone
  · exact hP.settled.done j hj

theorem Inv.done_held (hs : Inv s) (hh : s.vq i = some h) : Done s i := by
  intro r hstart _
  obtain ⟨r', hr', hon⟩ := hs.held i h hh
  rw [hs.atStart i r hstart] at hr'
  exact ⟨h, hh, Option.some.inj hr' ▸ hon⟩

theorem Inv.done_empty (hs : Inv s) (hnum : s.io i .num = 0) : Done s i := by
  intro r hstart _
  have hwords := hs.words i r (hs.atStart i r hstart)
  rw [hwords] at hnum
  exact absurd hnum r.pos

structure Adopting (pass : Pass) (D : Index → Prop) (i : Index) (r : Ring) (s : State) : Prop where
  adopting : s.adopting = some i
  live : s.live i = some r
  resolves : s.resolves = pass.resolves
  done : ∀ j, D j → Done s j

theorem Adopting.stable (hP : Adopting pass D i r s) (hstep : GuestStep s s') : Adopting pass D i r s' where
  adopting := hstep.adopting.trans hP.adopting
  live := (hstep.busy i (.inr hP.adopting)).trans hP.live
  resolves := hstep.resolves.trans hP.resolves
  done := fun j hj => (hP.done j hj).stable hstep

theorem readWord_safe {k : Nat → Prog State Unit} {Q : Unit → State → Prop} (w : Word) (hP : Adopting pass D i r s)
    (hk : ∀ s, Adopting pass D i r s → DaemonSafe Q (k (r.word w)) s) :
    DaemonSafe Q (Prog.read (fun s => s.io i w) >>= k) s := by
  refine Safe.read daemon_lawful (fun hP hstep _ => hP.stable hstep) (fun s hP hs => ?_) hP
  rw [hs.words i r hP.live]
  exact hk s hP

theorem join_num {q : Queue} {f : Adoption} {vr : Vring} (hj : join q f = some vr) : vr.num = q.num := by
  rw [join] at hj
  split at hj
  · cases hj
    rfl
  · cases hj

theorem Adopting.give_up (hP : Adopting pass D i r s) (hs : Inv s) (hj : join r.queue (pass.adoption i) = none) :
    Inv { s with adopting := none } ∧ Ready pass (fun j => j = i ∨ D j) { s with adopting := none } := by
  refine ⟨{ hs with adopting := fun j hj => (by cases hj) }, ⟨rfl, fun j hmem => ?_⟩, hP.resolves⟩
  rcases hmem with rfl | hmem
  · intro r' hstart hres
    have hlive := hs.atStart j r' hstart
    rw [hP.live] at hlive
    obtain rfl := Option.some.inj hlive
    rw [show s.resolves j r = _ from congrFun (congrFun hP.resolves j) r, Pass.resolves, hj] at hres
    cases hres
  · exact hP.done j hmem

theorem Adopting.take (hP : Adopting pass D i r s) (hs : Inv s) {vr : Vring} (hnum : vr.num = r.num) :
    Inv { s with vq := update s.vq i (some ⟨r.desc, r.avail, r.used, vr⟩), adopting := none } ∧
      Ready pass (fun j => j = i ∨ D j)
        { s with vq := update s.vq i (some ⟨r.desc, r.avail, r.used, vr⟩), adopting := none } := by
  have hon : Held.On ⟨r.desc, r.avail, r.used, vr⟩ r := ⟨rfl, rfl, rfl, hnum⟩
  constructor
  · refine { hs with adopting := fun j hj => (by cases hj), held := fun j h' hh' => ?_ }
    by_cases heq : j = i
    · subst heq
      dsimp only at hh'
      rw [update_self] at hh'
      exact ⟨r, hP.live, Option.some.inj hh' ▸ hon⟩
    · exact hs.held j h' ((update_of_ne heq ..).symm.trans hh')
  · refine ⟨⟨rfl, fun j hmem r' hstart hres => ?_⟩, hP.resolves⟩
    by_cases heq : j = i
    · subst heq
      have hlive := hs.atStart j r' hstart
      rw [hP.live] at hlive
      exact ⟨_, update_self .., Option.some.inj hlive ▸ hon⟩
    · obtain ⟨h', hh', hon'⟩ := hP.done j (hmem.resolve_left heq) r' hstart hres
      exact ⟨h', (update_of_ne heq ..).trans hh', hon'⟩

theorem adopt_safe (i : Index) (hP : Ready pass D s) :
    DaemonSafe (fun _ => Ready pass fun j => j = i ∨ D j) (adopt pass i) s := by
  have hst := Ready.stays pass D
  have hst' := Ready.stays pass fun j => j = i ∨ D j
  refine Safe.read daemon_lawful (fun hP hstep _ => hst.guest hP hstep) (fun s hP hs => ?_) hP
  split
  · rename_i hheld
    obtain ⟨h, hh⟩ := Option.isSome_iff_exists.mp hheld
    exact daemon_ret hst' (hP.add (hs.done_held hh))
  · refine Safe.act (P := Ready pass D) (fun hP hstep _ => hst.guest hP hstep) (fun s b t hP hs hact hok => ?_) hP
    obtain ⟨rfl, rfl⟩ := Prod.mk.inj (Option.some.inj hact)
    by_cases hnum : s.io i .num = 0
    · rw [if_pos hnum]
      refine ⟨⟨hs, .refl s⟩, ?_⟩
      change DaemonSafe _ (if s.io i .num = 0 then _ else _) s
      rw [if_pos hnum]
      exact daemon_ret hst' (hP.add (hs.done_empty hnum))
    · rw [if_neg hnum] at hok ⊢
      have hlive : s.live i ≠ none := hok.adopts i rfl (by rw [hP.settled.adopting]; exact fun h => by cases h)
      obtain ⟨r, hr⟩ := Option.ne_none_iff_exists'.mp hlive
      have hinv : Inv { s with adopting := some i } := by
        refine { hs with adopting := fun j hj => ?_ }
        rw [← Option.some.inj hj]
        exact hlive
      refine ⟨⟨hinv, ⟨rfl, rfl, rfl⟩⟩, ?_⟩
      have hA : Adopting pass D i r { s with adopting := some i } := ⟨rfl, hr, hP.resolves, hP.settled.done⟩
      change DaemonSafe _ (if s.io i .num = 0 then _ else _) _
      rw [if_neg hnum]
      refine readWord_safe .num hA fun s hA => readWord_safe .descGpa hA fun s hA => ?_
      refine readWord_safe .availGpa hA fun s hA => readWord_safe .usedGpa hA fun s hA => ?_
      split
      · rename_i hj
        refine Safe.writeLast (fun hA hstep _ => hA.stable hstep) (fun s hA hs _ => ?_) hA
        obtain ⟨hinv, hready⟩ := hA.give_up hs hj
        exact ⟨⟨hinv, ⟨rfl, rfl, rfl⟩⟩, fun _ hstep _ => hst'.guest hready hstep⟩
      · rename_i vr hj
        refine Safe.write (fun hA hstep _ => hA.stable hstep) (fun s hA hs _ => ?_) hA
        obtain ⟨hinv, hready⟩ := hA.take hs (join_num hj)
        refine ⟨⟨hinv, ⟨rfl, rfl, rfl⟩⟩, ?_⟩
        exact Safe.bind daemon_lawful hinv ((touch_safe hst' _ hready).mono fun _ s _ hready => touch_safe hst' _ hready)

theorem sweep_safe (pass : Pass) (hP : Settled (fun _ => True) s) :
    DaemonSafe (fun _ => Settled fun _ => True) (sweep pass) s := by
  refine Safe.write (fun hP hstep _ => hP.stable hstep) (fun s hP hs _ => ?_) hP
  have hinv : Inv { s with atStart := s.live, resolves := pass.resolves } :=
    { hs with atStart := fun _ _ hr => hr }
  have hready : Ready pass (fun _ => False) { s with atStart := s.live, resolves := pass.resolves } :=
    ⟨⟨hP.adopting, fun _ hf => hf.elim⟩, rfl⟩
  refine ⟨⟨hinv, ⟨rfl, rfl, rfl⟩⟩, ?_⟩
  refine Safe.bind daemon_lawful hinv ((adopt_safe 0 hready).mono fun _ s hs hready => ?_)
  refine Safe.bind daemon_lawful hs ((adopt_safe 1 hready).mono fun _ s hs hready => ?_)
  have hall : Settled (fun _ => True) s := by
    refine ⟨hready.settled.adopting, fun i _ => hready.settled.done i ?_⟩
    revert i
    decide
  refine Safe.bind daemon_lawful hs ((serve_safe _ hs hall).mono fun _ s hs hall => ?_)
  refine Safe.bind daemon_lawful hs ((serve_safe _ hs hall).mono fun _ s hs hall => ?_)
  exact retire_safe _ hall

theorem sound : Threads.Sound Start Calls (fun _ => Orderly) Inv fun
    | .guest => guest
    | .daemon => daemon where
  lawful := by
    intro thread
    cases thread with
    | guest => exact guest_lawful
    | daemon => exact daemon_lawful
  fits := by
    intro thread thread' s s' hne _ hg
    cases thread with
    | guest =>
      cases thread' with
      | guest => exact absurd rfl hne
      | daemon => exact hg.2
    | daemon =>
      cases thread' with
      | guest => exact hg.2
      | daemon => exact absurd rfl hne
  start := by
    intro s hs
    constructor
    · constructor <;> simp [hs.log, hs.vq, hs.adopting, hs.live, hs.atStart]
    · intro thread
      cases thread with
      | guest => trivial
      | daemon =>
        refine ⟨hs.adopting, fun i _ r hstart => ?_⟩
        rw [hs.atStart i] at hstart
        cases hstart
  call := by
    intro thread s p hs hidle hcall
    cases thread with
    | guest =>
      rcases hcall with ⟨nvqs, named, alloc, rfl⟩ | rfl
      · exact findVqs_safe nvqs named alloc hs
      · exact delVqs_safe
    | daemon =>
      obtain ⟨pass, rfl⟩ := hcall
      exact sweep_safe pass hidle

end MoCoLinux.Cogpu.Rings
