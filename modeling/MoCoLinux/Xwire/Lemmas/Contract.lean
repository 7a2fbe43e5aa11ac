import MoCoLinux.Xwire.Lemmas.Region

/-!
# The X wire: invariant and contracts
-/

namespace MoCoLinux.Xwire

open Threads (Contract Prog)

structure Pipe.Inv (r : Region) (mem : Nat → UInt8) (off : Nat) (p : Pipe) : Prop where
  head : p.head = ullong p.shown
  tail : p.tail = ullong p.freed
  freed_le : p.freed ≤ p.given.length
  given_le : p.given.length ≤ p.shown
  shown_le : p.shown ≤ p.taken
  taken_le : p.taken ≤ p.sent.length
  fits : p.taken ≤ p.freed + ringBytes
  cells : ∀ q, p.freed ≤ q → q < p.taken → mem (r.cell off q) = p.sent.getD q 0

def Flushed (p : Pipe) : Prop := p.ended = true ∧ p.shown = p.sent.length

def Dir.filler : Dir → Side
  | .tx => .guest
  | .rx => .host

structure Closing (d : Dir) (s : Wire) : Prop where
  sink : (s.pipe d.other).ended = false
  flushed : s.done .guest = false → s.closed = true → Flushed (s.pipe d) ∧ s.left d.filler = true
  delivered : s.left d.emptier = true → Delivered (s.pipe d)
  released : s.done .guest = true → s.left .host = true
  done : ∀ side, s.done side = true → s.left side = true

def Phase : Option Dir → Wire → Prop
  | none, s => ∀ side, s.left side = false ∧ s.done side = false
  | some d, s => Closing d s

structure Inv (r : Region) (m : Option Dir) (s : Wire) : Prop where
  order : ∀ d, (s.pipe d).given <+: (s.pipe d).sent
  rings : s.done .guest = false → ∀ d, (s.pipe d).Inv r s.mem d.off
  phase : Phase m s

def Allowed (m : Option Dir) (s s' : Wire) : Prop := ∀ d, m = some d → Orderly d s s'

variable {r : Region} {m : Option Dir} {d : Dir} {side : Side} {p p' p'' : Pipe} {s s' s'' : Wire}

theorem Inv.left_of_done (h : Inv r m s) (hdone : s.done .guest = true) (side : Side) : s.left side = true := by
  have hphase := h.phase
  cases m with
  | none =>
    have := (hphase .guest).2
    rw [hdone] at this
    cases this
  | some d =>
    cases side with
    | guest => exact hphase.done .guest hdone
    | host => exact hphase.released hdone

theorem Inv.live (h : Inv r m s) (hleft : s.left side = false) : s.done .guest = false := by
  cases hdone : s.done .guest with
  | false => rfl
  | true =>
    rw [h.left_of_done hdone side] at hleft
    cases hleft

theorem Inv.ring (h : Inv r m s) (hleft : s.left side = false) (d : Dir) : (s.pipe d).Inv r s.mem d.off :=
  h.rings (h.live hleft) d

structure SameFill (p p' : Pipe) : Prop where
  head : p'.head = p.head
  shown : p'.shown = p.shown
  taken : p'.taken = p.taken

structure SameEmpty (p p' : Pipe) : Prop where
  tail : p'.tail = p.tail
  freed : p'.freed = p.freed
  given : p'.given = p.given

structure Grows (p p' : Pipe) : Prop where
  sent : p.sent <+: p'.sent
  ended : p.ended = true → p'.ended = true ∧ p'.sent = p.sent
  taken : p.taken ≤ p'.taken
  shown : p.shown ≤ p'.shown
  freed : p.freed ≤ p'.freed
  given : p.given <+: p'.given

theorem SameFill.refl (p : Pipe) : SameFill p p := ⟨rfl, rfl, rfl⟩

theorem SameFill.trans (h : SameFill p p') (h' : SameFill p' p'') : SameFill p p'' :=
  ⟨h'.head.trans h.head, h'.shown.trans h.shown, h'.taken.trans h.taken⟩

theorem SameEmpty.refl (p : Pipe) : SameEmpty p p := ⟨rfl, rfl, rfl⟩

theorem SameEmpty.trans (h : SameEmpty p p') (h' : SameEmpty p' p'') : SameEmpty p p'' :=
  ⟨h'.tail.trans h.tail, h'.freed.trans h.freed, h'.given.trans h.given⟩

theorem Grows.refl (p : Pipe) : Grows p p :=
  ⟨List.prefix_rfl, fun h => ⟨h, rfl⟩, Nat.le_refl _, Nat.le_refl _, Nat.le_refl _, List.prefix_rfl⟩

theorem Grows.trans (h : Grows p p') (h' : Grows p' p'') : Grows p p'' where
  sent := h.sent.trans h'.sent
  ended he := ⟨(h'.ended (h.ended he).1).1, (h'.ended (h.ended he).1).2.trans (h.ended he).2⟩
  taken := Nat.le_trans h.taken h'.taken
  shown := Nat.le_trans h.shown h'.shown
  freed := Nat.le_trans h.freed h'.freed
  given := h.given.trans h'.given

theorem Grows.sent_le (h : Grows p p') : p.sent.length ≤ p'.sent.length := h.sent.length_le

theorem Flushed.grows (h : Flushed p) (hg : Grows p p') (hle : p'.shown ≤ p'.sent.length) : Flushed p' := by
  obtain ⟨hended, hsent⟩ := hg.ended h.1
  have hshown := hg.shown
  rw [h.2] at hshown
  rw [hsent] at hle
  exact ⟨hended, by rw [hsent]; omega⟩

theorem Delivered.grows (h : Delivered p) (hg : Grows p p') (horder : p'.given <+: p'.sent) : Delivered p' := by
  obtain ⟨hended, hsent⟩ := hg.ended h.1
  have hlen := hg.given.length_le
  rw [h.2, ← hsent] at hlen
  exact ⟨hended, horder.eq_of_length_le hlen⟩

structure Resting (side : Side) (s : Wire) : Prop where
  fill : (s.pipe side.fills).shown = (s.pipe side.fills).taken
  empty : (s.pipe side.empties).freed = (s.pipe side.empties).given.length

structure Rely (side : Side) (s s' : Wire) : Prop where
  grows : ∀ d, Grows (s.pipe d) (s'.pipe d)
  left : s'.left side = s.left side
  away : ∀ t, s.left t = true → s'.left t = true
  fill : s.left side = false → SameFill (s.pipe side.fills) (s'.pipe side.fills)
  empty : s.left side = false → SameEmpty (s.pipe side.empties) (s'.pipe side.empties)

structure Guar (r : Region) (m : Option Dir) (side : Side) (s s' : Wire) : Prop where
  inv : Inv r m s'
  grows : ∀ d, Grows (s.pipe d) (s'.pipe d)
  left : s'.left side.other = s.left side.other
  away : ∀ t, s.left t = true → s'.left t = true
  done : ∀ t, s.done t = true → s'.done t = true
  fill : SameFill (s.pipe side.empties) (s'.pipe side.empties)
  empty : SameEmpty (s.pipe side.fills) (s'.pipe side.fills)

structure Outside (r : Region) (m : Option Dir) (s s' : Wire) : Prop where
  inv : Inv r m s'
  grows : ∀ d, Grows (s.pipe d) (s'.pipe d)
  left : s'.left = s.left
  done : s'.done = s.done
  fill : s.done .guest = false → ∀ d, SameFill (s.pipe d) (s'.pipe d)
  empty : s.done .guest = false → ∀ d, SameEmpty (s.pipe d) (s'.pipe d)

def contract (r : Region) (m : Option Dir) : Party → Contract Wire
  | .side side => ⟨Rely side, Guar r m side, fun s => s.left side = false → Resting side s⟩
  | .peer _ => ⟨fun _ _ => True, Outside r m, fun _ => True⟩
  | .others => ⟨fun s s' => s.done .guest = true → s'.done .guest = true, Outside r m, fun _ => True⟩

theorem Rely.refl (side : Side) (s : Wire) : Rely side s s :=
  ⟨fun _ => .refl _, rfl, fun _ h => h, fun _ => .refl _, fun _ => .refl _⟩

theorem Rely.trans (h : Rely side s s') (h' : Rely side s' s'') : Rely side s s'' where
  grows d := (h.grows d).trans (h'.grows d)
  left := h'.left.trans h.left
  away t ht := h'.away t (h.away t ht)
  fill hl := (h.fill hl).trans (h'.fill (h.left.trans hl))
  empty hl := (h.empty hl).trans (h'.empty (h.left.trans hl))

theorem Guar.refl (h : Inv r m s) : Guar r m side s s :=
  ⟨h, fun _ => .refl _, rfl, fun _ h => h, fun _ h => h, .refl _, .refl _⟩

theorem Outside.refl (h : Inv r m s) : Outside r m s s :=
  ⟨h, fun _ => .refl _, rfl, rfl, fun _ _ => .refl _, fun _ _ => .refl _⟩

theorem Resting.stable (h : Resting side s) (hleft : s.left side = false) (hr : Rely side s s') : Resting side s' := by
  have hfill := hr.fill hleft
  have hempty := hr.empty hleft
  refine ⟨?_, ?_⟩
  · rw [hfill.shown, hfill.taken]
    exact h.fill
  · rw [hempty.freed, hempty.given]
    exact h.empty

theorem contract_lawful (r : Region) (m : Option Dir) (i : Party) : (contract r m i).Lawful (Inv r m) := by
  cases i with
  | side side =>
    exact {
      refl := Rely.refl side
      trans := Rely.trans
      still := Guar.refl
      keeps := fun _ h => h.inv
      idle := fun h hr _ hleft =>
        (h (hr.left.symm.trans hleft)).stable (hr.left.symm.trans hleft) hr }
  | peer d =>
    exact {
      refl := fun _ => trivial
      trans := fun _ _ => trivial
      still := Outside.refl
      keeps := fun _ h => h.inv
      idle := fun _ _ _ => trivial }
  | others =>
    exact {
      refl := fun _ h => h
      trans := fun h h' hd => h' (h hd)
      still := Outside.refl
      keeps := fun _ h => h.inv
      idle := fun _ _ _ => trivial }

theorem Guar.rely_other (h : Guar r m side s s') : Rely side.other s s' := by
  refine ⟨h.grows, h.left, h.away, fun _ => ?_, fun _ => ?_⟩
  · rw [Side.other_fills]
    exact h.fill
  · rw [Side.other_empties]
    exact h.empty

theorem Outside.rely (hi : Inv r m s) (h : Outside r m s s') (side : Side) : Rely side s s' where
  grows := h.grows
  left := congrFun h.left side
  away t ht := (congrFun h.left t).trans ht
  fill hl := h.fill (hi.live hl) _
  empty hl := h.empty (hi.live hl) _

theorem contract_fits {i j : Party} (hij : i ≠ j) (hi : Inv r m s) (hg : (contract r m i).guar s s') :
    (contract r m j).rely s s' := by
  cases j with
  | side t =>
    cases i with
    | side side =>
      rcases Side.eq_or_other side t with rfl | rfl
      · exact absurd rfl hij
      · exact Guar.rely_other hg
    | peer d => exact Outside.rely hi hg t
    | others => exact Outside.rely hi hg t
  | peer d => trivial
  | others =>
    cases i with
    | side side => exact Guar.done hg .guest
    | peer d => exact fun hd => (congrFun (Outside.done hg) .guest).trans hd
    | others => exact absurd rfl hij

theorem Inv.grow (h : Inv r m s) (hgrows : ∀ d, Grows (s.pipe d) (s'.pipe d)) (hleft : s'.left = s.left)
    (hdone : s'.done = s.done) (hclosed : s'.closed = s.closed)
    (hsink : ∀ d, m = some d → (s'.pipe d.other).ended = (s.pipe d.other).ended)
    (horder : ∀ d, (s'.pipe d).given <+: (s'.pipe d).sent)
    (hrings : s.done .guest = false → ∀ d, (s'.pipe d).Inv r s'.mem d.off) : Inv r m s' := by
  refine ⟨horder, fun hd => hrings (by rwa [hdone] at hd), ?_⟩
  have hphase := h.phase
  cases m with
  | none =>
    intro side
    rw [hleft, hdone]
    exact hphase side
  | some d =>
    refine ⟨(hsink d rfl).trans hphase.sink, fun hd hc => ?_, fun hl => ?_, fun hd => ?_, fun side hd => ?_⟩
    · rw [hdone] at hd
      rw [hclosed] at hc
      obtain ⟨hflushed, hfiller⟩ := hphase.flushed hd hc
      have hring := hrings hd d
      exact ⟨hflushed.grows (hgrows d) (Nat.le_trans hring.shown_le hring.taken_le), by rw [hleft]; exact hfiller⟩
    · rw [hleft] at hl
      exact (hphase.delivered hl).grows (hgrows d) (horder d)
    · rw [hdone] at hd
      rw [hleft]
      exact hphase.released hd
    · rw [hdone] at hd
      rw [hleft]
      exact hphase.done side hd

end MoCoLinux.Xwire
