import MoCoLinux.Cogpu.Lemmas.Backing

/-!
# Mapped slices and their pins: results
-/

namespace MoCoLinux.Cogpu.Backing

variable {s s' : Backing} {resId : Nat} {b : Build} {own grows : Bool} {entries : List (Nat × Nat)} {a : Answers}

def Covers (s : Backing) (resId : Nat) : Prop := ∀ id ∈ s.held resId, ∃ r ∈ s.pinSets, r.resId = resId ∧ id ∈ r.slices

structure Sound (s : Backing) : Prop where
  inv : s.Inv
  covers : ∀ resId, s.Covers resId

theorem Sound.kept (h : s.Sound) : s.Kept where
  iovecs := by
    intro resId id hid
    obtain ⟨r, hr, -, hmem⟩ := h.covers resId id hid
    exact h.inv.setsMapped r hr id hmem
  tokens := h.inv.tokensMapped
  pins := h.inv.pins

theorem Sound.congr (h : s.Sound) (hinv : s'.Inv) (hheld : s'.held = s.held) (hpins : s'.resPins = s.resPins) :
    s'.Sound := by
  refine ⟨hinv, fun resId id hid => ?_⟩
  rw [hheld] at hid
  rw [pinSets, hpins]
  exact h.covers resId id hid

theorem Sound.looked (h : s.Sound) (hext : s.Extends s') : s'.Sound := h.congr hext.inv hext.held hext.resPins

theorem Sound.resPinsDrop (h : s.Sound) (hheld : s.held resId = []) : (s.resPinsDrop resId).Sound := by
  obtain ⟨hinv, hsets⟩ := h.inv.resPinsDrop resId
  refine ⟨hinv, fun resId' id hid => ?_⟩
  rw [(s.resPinsDrop_frame resId).2.2] at hid
  have hne : resId' ≠ resId := by
    rintro rfl
    simp [hheld] at hid
  obtain ⟨r, hr, heq, hmem⟩ := h.covers resId' id hid
  exact ⟨r, (hsets r).mpr ⟨hr, heq ▸ hne⟩, heq, hmem⟩

theorem hold_held (s : Backing) (resId : Nat) (iov : List Target) (resId' : Nat) :
    (s.hold resId iov).held resId' = if resId' = resId then sliceIds iov else s.held resId' :=
  Function.update_apply ..

theorem Sound.holdNothing (h : s.Sound) (resId : Nat) : (s.hold resId []).Sound := by
  refine ⟨{ h.inv with }, fun resId' id hid => ?_⟩
  rw [hold_held] at hid
  split at hid
  · cases hid
  · exact h.covers resId' id hid

theorem Built.committed (hb : Built s b) (h : s.Sound)
    (hc : b.s.resPinsCommit own grows resId b.pins = (true, s')) :
    (s'.hold resId b.iov).Sound ∧ (s.held resId = [] → (s'.resPinsDrop resId).Sound) := by
  have hlooked := h.looked hb.extended
  rcases hb.extended.inv.resPinsCommit hb.nodup hb.mapped own grows resId with
    hc' | ⟨-, hc'⟩ | ⟨t, hc', hfits, hinv, hheld, hkept, hnew⟩ <;> rw [hc] at hc'
  · cases hc'
  · cases hc'
  · obtain ⟨-, rfl⟩ := Prod.mk.inj hc'
    have hother : ∀ resId', resId' ≠ resId → s'.Covers resId' := by
      intro resId' hne id hid
      obtain ⟨r, hr, heq, hmem⟩ := hlooked.covers resId' id (hheld ▸ hid)
      exact ⟨r, hkept r hr (heq ▸ hne), heq, hmem⟩
    constructor
    · refine ⟨{ hinv with }, fun resId' id hid => ?_⟩
      rw [hold_held] at hid
      split at hid
      · rename_i heq
        obtain ⟨r, hr, hres, hmem⟩ := hnew id (hb.covered hfits id hid)
        exact ⟨r, hr, hres.trans heq.symm, hmem⟩
      · exact hother resId' ‹_› id hid
    · intro hnone
      have hnone : s'.held resId = [] := by rw [hheld, hb.extended.held, hnone]
      refine Sound.resPinsDrop ⟨hinv, fun resId' => ?_⟩ hnone
      by_cases heq : resId' = resId
      · intro id hid
        simp [heq, hnone] at hid
      · exact hother resId' heq

theorem Built.refused (hb : Built s b) (h : s.Sound)
    (hc : b.s.resPinsCommit own grows resId b.pins = (false, s'))
    (hok : s.held resId = [] ∨ own = true ∧ grows = true) : s'.Sound := by
  have hlooked := h.looked hb.extended
  rcases hb.extended.inv.resPinsCommit hb.nodup hb.mapped own grows resId with
    hc' | ⟨hno, hc'⟩ | ⟨t, hc', -⟩ <;> rw [hc] at hc'
  · exact (Prod.mk.inj hc').2 ▸ hlooked
  · rw [(Prod.mk.inj hc').2]
    rcases hok with hnone | ⟨rfl, rfl⟩
    · exact hlooked.resPinsDrop (by rw [hb.extended.held, hnone])
    · cases hno
  · cases hc'

theorem Sound.attachBacking (h : s.Sound) (hlen : ∀ e ∈ entries, e.2 < 2 ^ 32)
    (hok : s.held resId = [] ∨ a.own = true ∧ a.grows = true ∧ a.accepts = true ∧ ∃ e ∈ entries, e.2 ≠ 0) :
    (s.attachBacking resId entries a).Sound := by
  have hb := h.inv.build hlen a.kmap
  rw [Backing.attachBacking]
  split
  · exact h
  · dsimp only
    split
    · exact h.looked hb.extended
    · rename_i hbad
      split
      · exact hb.refused h ‹_› (hok.imp_right fun hok => ⟨hok.1, hok.2.1⟩)
      · rename_i hc
        split
        · rename_i hno
          refine (hb.committed h hc).2 (hok.resolve_right ?_)
          rintro ⟨-, -, haccepts, hsome⟩
          rcases buildEntries_some a.kmap (b := ⟨s, ⟨[], false⟩, [], false⟩) (.inl hsome) with hbad' | hiov
          · exact hbad hbad'
          · rcases hno with hnil | hno
            · exact hiov hnil
            · rw [haccepts] at hno
              cases hno
        · exact (hb.committed h hc).1

theorem Sound.createBlob (h : s.Sound) (hlen : ∀ e ∈ entries, e.2 < 2 ^ 32)
    (hok : s.held resId = [] ∨ a.own = true ∧ a.grows = true ∧ a.accepts = true) :
    (s.createBlob resId entries a).Sound := by
  have hb := h.inv.build hlen a.kmap
  rw [Backing.createBlob]
  split
  · exact h
  · dsimp only
    split
    · exact h.looked hb.extended
    · split
      · split
        · exact (h.looked hb.extended).holdNothing resId
        · exact h.looked hb.extended
      · split
        · exact hb.refused h ‹_› (hok.imp_right fun hok => ⟨hok.1, hok.2.1⟩)
        · rename_i hc
          split
          · exact (hb.committed h hc).1
          · rename_i hno
            exact (hb.committed h hc).2 (hok.resolve_right fun hok => hno hok.2.2)

/-- A request that names a resource the renderer holds iovecs of describes some bytes, and neither an allocation nor the
renderer refuses it. -/
def Completes (s : Backing) : Request → Prop
  | .attachBacking resId entries a =>
    s.held resId = [] ∨ a.own = true ∧ a.grows = true ∧ a.accepts = true ∧ ∃ e ∈ entries, e.2 ≠ 0
  | .createBlob resId _ a => s.held resId = [] ∨ a.own = true ∧ a.grows = true ∧ a.accepts = true
  | _ => True

theorem Sound.step (h : s.Sound) {request : Request} (hl : s.Legal request) (hc : s.Completes request) :
    (s.step request).Sound := by
  cases request with
  | attachBacking resId entries a => exact h.attachBacking hl hc
  | createBlob resId entries a => exact h.createBlob hl hc
  | detachBacking resId => exact (h.holdNothing resId).resPinsDrop (Function.update_self ..)
  | unref resId => exact (h.holdNothing resId).resPinsDrop (Function.update_self ..)
  | resolve kmap gpa len => exact h.looked (h.inv.resolveGpa kmap gpa (Nat.lt_trans hl (by decide))).1
  | resolvePinned kmap gpa len =>
    obtain ⟨hinv, hheld, hpins⟩ := h.inv.resolveGpaPinned kmap gpa len
    exact h.congr hinv hheld hpins
  | unpin token => exact h.congr (h.inv.unpin hl) rfl rfl
  | evict raised =>
    have hclock : Inv { s with clock := s.clock + 1 } := { h.inv with }
    obtain ⟨hinv, hheld, hpins⟩ := hclock.slicesEvict raised
    exact h.congr hinv hheld hpins

theorem Start.sound (h : s.Start) : s.Sound := by
  have hsets : s.pinSets = [] := by
    rw [pinSets, h.resPins]
    rfl
  refine ⟨?_, fun resId id hid => by simp [h.held resId] at hid⟩
  constructor <;> simp [h.slices, h.lastHit, hsets, h.tokens]

theorem Reachable.step {ok : Backing → Request → Prop} (h : Reachable ok s) (request : Request)
    (hl : s.Legal request) (hok : ok s request) : Reachable ok (s.step request) := .next h ⟨hl, hok, rfl⟩

/-- In every run whose requests complete where they name a resource the renderer holds iovecs of: no slice goes that
an iovec of the renderer or a token points into, and the pins are those of the pin sets and the tokens. -/
theorem slices_kept (s : Backing) (h : Reachable Completes s) : s.Kept := by
  refine (Runs.Reach.invariant (P := Sound) (fun s hs => hs.sound) (fun s request s' hsound hs => ?_) h).kept
  obtain ⟨hl, hc, rfl⟩ := hs
  exact hsound.step hl hc

def started : Backing where
  slices := []
  lastHit := none
  pins := fun _ => 0
  lastUse := fun _ => 0
  clock := 0
  sliceBytes := 0
  capBytes := 192 * 2 ^ 20
  hardBytes := 256 * 2 ^ 20
  ramView := none
  windowBase := 2 ^ 30
  resPins := []
  mapped := 0
  held := fun _ => []
  tokens := []

theorem started_start : started.Start := ⟨rfl, rfl, rfl, fun _ => rfl, rfl⟩

/-- The driver maps slices of full size, and everybody else answers well but perhaps the renderer. -/
def fullSlices (accepts : Bool) : Answers :=
  ⟨true, fun gpa => some (gpa / sliceLimit * sliceLimit, sliceLimit), true, true, accepts⟩

def sixteenPages : List (Nat × Nat) := (List.range 16).map fun i => (i * sliceLimit, 4096)

theorem sixteenPages_length : ∀ e ∈ sixteenPages, e.2 < 2 ^ 32 := by decide

def attachedOnce : Backing := started.step (.attachBacking 7 sixteenPages (fullSlices true))

theorem slices_kept_attached :
    (attachedOnce.step (.evict none)).Kept ∧ (attachedOnce.step (.evict none)).held 7 = List.range 16 := by
  have hstart : Reachable Completes started := .start started_start
  have hattached : Reachable Completes attachedOnce :=
    hstart.step (.attachBacking 7 sixteenPages (fullSlices true)) sixteenPages_length (.inl rfl)
  exact ⟨slices_kept _ (hattached.step (.evict none) trivial trivial), by decide +kernel⟩

/-- The renderer refuses to attach a second backing while it holds the first, whose pins are dropped. -/
theorem reattach_unpins_held : ∃ s, Reachable (fun _ _ => True) s ∧ 15 ∈ s.held 7 ∧ ¬ s.Mapped 15 := by
  have hstart : Reachable (fun _ _ => True) started := .start started_start
  have hattached : Reachable (fun _ _ => True) attachedOnce :=
    hstart.step (.attachBacking 7 sixteenPages (fullSlices true)) sixteenPages_length trivial
  have hrefused := hattached.step (.attachBacking 7 sixteenPages (fullSlices false)) sixteenPages_length trivial
  exact ⟨_, hrefused.step (.evict none) trivial trivial, by decide +kernel, by decide +kernel⟩

end MoCoLinux.Cogpu.Backing
