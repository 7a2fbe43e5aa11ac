import MoCoLinux.Arch.Lemmas.Lookup

/-!
# Guest address spaces: results
-/

namespace MoCoLinux.Arch

variable {τ τ' : Type} {h : SpaceHost τ}

/-- After any sequence of `co_arch_guest_map` calls on a new space, which may fail anywhere, lookups on its root
answer as the finite map of the successful calls, and one more call that fails changes no answer. `hl` is the host of
the lookups, which reaches every table. -/
theorem guest_space_is_finite_map (hl : SpaceHost τ') (F : FrameSource h) (hmap : ∀ u pfn, (hl.map u pfn).1 = true)
    {mallocOk t₀ m₀ space₀ t₁ m₁} (hinv : F.Inv t₀)
    (hcreate : guestSpaceCreate h mallocOk t₀ m₀ = (.ok space₀, t₁, m₁))
    {calls : List MapCall} (hcalls : ∀ c ∈ calls, c.WellFormed) {rcs space t m}
    (hrun : guestMapAll h calls space₀ t₁ m₁ = (rcs, space, t, m)) :
    (∀ va, vaCanonical va = true → ∀ u, (guestLookupRoot hl space.pml4Pfn va u m).1.Finds
        (lastMapped (calls.zip rcs) (fun _ => none) (va / 4096))) ∧
    ∀ c : MapCall, c.WellFormed → ∀ rc space' t' m',
      guestMap h space c.va c.pa c.flags t m = (rc, space', t', m') → rc ≠ .ok → ∀ va u,
        (guestLookupRoot hl space'.pml4Pfn va u m').1.rc = (guestLookupRoot hl space.pml4Pfn va u m).1.rc ∧
        (guestLookupRoot hl space'.pml4Pfn va u m').1.pa
          = (guestLookupRoot hl space.pml4Pfn va u m).1.pa := by
  have H := (holds_create hinv hcreate).guestMapAll hcalls hrun
  refine ⟨fun va hva u => H.finds hmap hva u, fun c hc rc space' t' m' hm hrc va u => ?_⟩
  have H' := H.guestMap hc hm
  rw [if_neg hrc] at H'
  by_cases hva : vaCanonical va = true
  · have hbefore := H.finds hmap hva u
    have hafter := H'.finds hmap hva u
    revert hbefore hafter
    cases lastMapped (calls.zip rcs) (fun _ => none) (va / 4096) with
    | none => intro hbefore hafter; exact ⟨hafter.1.trans hbefore.1.symm, hafter.2.trans hbefore.2.symm⟩
    | some page =>
      intro hbefore hafter
      exact ⟨hafter.1.trans hbefore.1.symm, hafter.2.trans hbefore.2.symm⟩
  · simp [guestLookupRoot, hva]

/-- A host whose page allocator counts up; the state is the next frame and where it ends. -/
def bumpHost (limit : Nat) : SpaceHost Nat where
  frameSource := none
  getPage t := if t < limit then (.ok t, t + 1) else (.error .outOfMemory, t)
  putPage t _ := t
  map t _ := (true, t)

theorem newTable_bumpHost (limit t : Nat) (m : Mem) : newTable (bumpHost limit) t m =
    if t < limit then (.ok t, t + 1, m.zero t) else (.error .outOfMemory, t, m) := by
  unfold newTable bumpHost
  by_cases ht : t < limit <;> simp [ht]

def bumpSource (limit : Nat) (hlimit : limit ≤ 2 ^ 40) : FrameSource (bumpHost limit) where
  Inv _ := True
  used t q := q < t
  newTable_ok {t m pfn t' m'} _ hnew := by
    rw [newTable_bumpHost] at hnew
    split at hnew
    · simp only [Prod.mk.injEq, Except.ok.injEq] at hnew
      obtain ⟨rfl, rfl, rfl⟩ := hnew
      refine ⟨trivial, by omega, by omega, by omega, fun i => by simp [Mem.zero], fun q hq => ⟨by omega, ?_⟩⟩
      exact Function.update_of_ne (by omega) _ _
    · simp at hnew
  newTable_error {t m rc t' m'} _ hnew := by
    rw [newTable_bumpHost] at hnew
    split at hnew
    · simp at hnew
    · simp only [Prod.mk.injEq, Except.error.injEq] at hnew
      obtain ⟨rfl, rfl, rfl⟩ := hnew
      exact ⟨trivial, by decide, fun q hq => ⟨hq, rfl⟩⟩
  map_inv _ _ := trivial
  map_used _ hq := hq
  putPage_inv _ _ := trivial
  putPage_used hq _ := hq

def twoCalls : List MapCall := [⟨0xffff888000001000, 0x5000, 0x63⟩, ⟨0xffffffff80000000, 0x6000, 0x63⟩]

/-- On a source of five frames the second call fails half way. -/
theorem guest_space_two_calls :
    (guestMapAll (bumpHost 5) twoCalls ⟨0, 1⟩ 1 (Mem.zero (fun _ _ => 7) 0)).1 = [.ok, .outOfMemory] ∧
    (guestLookupRoot (bumpHost 5) 0 0xffff888000001234 0
      (guestMapAll (bumpHost 5) twoCalls ⟨0, 1⟩ 1 (Mem.zero (fun _ _ => 7) 0)).2.2.2).1.Finds
        (some 0x5000) := by
  have hcreate : guestSpaceCreate (bumpHost 5) true 0 (fun _ _ => 7)
      = (.ok ⟨0, 1⟩, 1, Mem.zero (fun _ _ => 7) 0) := rfl
  have hcalls : ∀ c ∈ twoCalls, c.WellFormed := by
    simp only [twoCalls, List.mem_cons, List.not_mem_nil, or_false, forall_eq_or_imp, forall_eq]
    exact ⟨⟨rfl, rfl, by decide⟩, ⟨rfl, rfl, by decide⟩⟩
  exact ⟨rfl, (guest_space_is_finite_map (bumpHost 5) (bumpSource 5 (by decide)) (fun _ _ => rfl) trivial
    hcreate hcalls rfl).1 0xffff888000001234 rfl 0⟩

end MoCoLinux.Arch
