import MoCoLinux.Arch.Extable

/-!
# The guest's exception table: results
-/

namespace MoCoLinux.Arch.Extable

open Function

variable {t : Table} {rip vector : BitVec 64} {i j : Nat} {e : Entry} {h : Handler} {frame : Frame} {r : Fin 16}

namespace Table

theorem sorted_step (hs : t.sorted = true) (hi : i + 1 < t.count) : t.insnAddr i ≤ t.insnAddr (i + 1) := by
  have hnot := List.all_eq_true.mp hs i (List.mem_range.mpr (by omega))
  simpa using hnot

theorem sorted_le (hs : t.sorted = true) (hij : i ≤ j) (hj : j < t.count) : t.insnAddr i ≤ t.insnAddr j := by
  induction j, hij using Nat.le_induction with
  | base => exact BitVec.le_refl _
  | succ j hij ih => exact BitVec.le_trans (ih (by omega)) (sorted_step hs hj)

theorem probe_eq : t.probe rip i = .eq ↔ t.insnAddr i = rip := by
  rw [probe]
  split
  · simp [*]
  · split <;> simp [*]

theorem probe_gt : t.probe rip i = .gt ↔ t.insnAddr i < rip := by
  rw [probe]
  split
  · rename_i heq
    simp [heq]
  · split <;> simp [*]

theorem probe_lt : t.probe rip i = .lt ↔ rip < t.insnAddr i := by
  rw [probe]
  split
  · rename_i heq
    simp [heq]
  · rename_i hne
    split
    · rename_i hlt
      simp only [reduceCtorEq, false_iff, BitVec.not_lt]
      exact BitVec.le_of_lt hlt
    · rename_i hge
      simp only [true_iff]
      have hle : rip.toNat ≤ (t.insnAddr i).toNat := BitVec.le_def.mp (BitVec.not_lt.mp hge)
      have hne : rip.toNat ≠ (t.insnAddr i).toNat := fun heq => hne (BitVec.eq_of_toNat_eq heq).symm
      exact BitVec.lt_def.mpr (Nat.lt_of_le_of_ne hle hne)

theorem find_spec (hf : t.find rip = some i) : i < t.count ∧ t.insnAddr i = rip := by
  rw [find] at hf
  split at hf
  · obtain ⟨-, hlt, heq⟩ := BinarySearch.search_spec hf
    exact ⟨hlt, probe_eq.mp heq⟩
  · exact ⟨List.mem_range.mp (List.mem_of_find?_eq_some hf), of_decide_eq_true (List.find?_some hf :)⟩

theorem find_isSome (hi : i < t.count) (heq : t.insnAddr i = rip) : (t.find rip).isSome := by
  rw [find]
  split
  · rename_i hs
    refine BinarySearch.search_isSome (n := t.count) (fun k l hkl hl hgt => ?_) (fun k l hkl hl hlt => ?_)
      (probe_eq.mpr heq) (Nat.zero_le i) hi (Nat.le_refl _) (Nat.le_refl _)
    · have hle := BitVec.le_def.mp (sorted_le hs hkl hl)
      exact probe_gt.mpr (BitVec.lt_def.mpr (Nat.lt_of_le_of_lt hle (BitVec.lt_def.mp (probe_gt.mp hgt))))
    · have hle := BitVec.le_def.mp (sorted_le hs hkl hl)
      exact probe_lt.mpr (BitVec.lt_def.mpr (Nat.lt_of_lt_of_le (BitVec.lt_def.mp (probe_lt.mp hlt)) hle))
  · exact List.find?_isSome.mpr ⟨i, List.mem_range.mpr hi, decide_eq_true heq⟩

theorem find_eq_some (hdistinct : ∀ i < t.count, ∀ j < t.count, t.insnAddr i = t.insnAddr j → i = j)
    (hi : i < t.count) (heq : t.insnAddr i = rip) : t.find rip = some i := by
  obtain ⟨j, hj⟩ := Option.isSome_iff_exists.mp (find_isSome hi heq)
  obtain ⟨hlt, hat⟩ := find_spec hj
  rw [hj, hdistinct j hlt i hi (hat.trans heq.symm)]

end Table

theorem slot_inj {r r' : Fin 16} : slot r = slot r' ↔ r = r' := by
  revert r r'
  decide

theorem slot_ne_rip (r : Fin 16) : slot r ≠ ripSlot := by
  revert r
  decide

@[simp] theorem regs_update (frame : Frame) (r : Fin 16) (v : BitVec 64) :
    Frame.regs (update frame (slot r) v) = (Frame.regs frame).set r v := by
  have hgp : (fun r' => update frame (slot r) v (slot r')) =
      update (fun r' => frame (slot r')) r v := by
    funext r'
    simp only [update_apply, slot_inj]
  rw [Frame.regs, Frame.regs, Regs.set, hgp, update_of_ne (slot_ne_rip r).symm]

theorem regs_update_rip (frame : Frame) (v : BitVec 64) :
    Frame.regs (update frame ripSlot v) = { Frame.regs frame with ip := v } := by
  have hgp : (fun r => update frame ripSlot v (slot r)) = fun r => frame (slot r) := by
    funext r
    exact update_of_ne (slot_ne_rip r) ..
  rw [Frame.regs, Frame.regs, hgp, update_self]

/-! ## Decoding -/

theorem type_eq (e : Entry) : e.type.toNat = e.data.toNat % 2 ^ 8 := by
  simp [Entry.type]

theorem reg_eq (e : Entry) : e.reg = Fin.ofNat 16 (e.data.toNat / 2 ^ 8) := by
  apply Fin.ext
  simp [Entry.reg, Nat.shiftRight_eq_div_pow]

theorem imm_eq (e : Entry) : e.imm = BitVec.ofInt 64 (e.data.toInt / 0x10000) := by
  have hlt := e.data.isLt
  rw [Entry.imm, BitVec.signExtend]
  congr 1
  simp only [BitVec.toInt_eq_toNat_cond, BitVec.extractLsb'_toNat, Nat.shiftRight_eq_div_pow]
  omega

theorem clearsAx_eq (e : Entry) : e.clearsAx = e.data.getLsbD 12 := by
  simp [Entry.clearsAx, Entry.flags]

theorem clearsDx_eq (e : Entry) : e.clearsDx = e.data.getLsbD 13 := by
  simp [Entry.clearsDx, Entry.flags]

theorem regs_clearFlags (e : Entry) (frame : Frame) (v : BitVec 64) :
    Frame.regs (update (clearFlags e frame) ripSlot v) = (Frame.regs frame).exDefault e.data v := by
  rw [regs_update_rip, clearFlags, Regs.exDefault, clearsAx_eq, clearsDx_eq]
  dsimp only
  split <;> split <;> simp

theorem fixupException_eq (e : Entry) (vector v : BitVec 64) (frame : Frame) :
    fixupException e.data v vector (Frame.regs frame) =
      e.handler.map fun h => Frame.regs (update (clearFlags e (h.apply e vector frame)) ripSlot v) := by
  have hrsp : (Fin.ofNat 22 (0xa0 / 8)) = slot 4 := by decide
  rw [fixupException, ← reg_eq, ← imm_eq, ← type_eq, Entry.handler]
  generalize e.type.toNat = type
  split <;> simp_all only [Option.map_some, Option.map_none, regs_clearFlags, Handler.apply, regs_update] <;> rfl

/-! ## Other words -/

theorem update_slot {f : Frame} {k : Fin 22} {v : BitVec 64} (hk : ∀ r, k ≠ slot r) (r : Fin 16) :
    update f (slot r) v k = f k :=
  update_of_ne (hk r) ..

theorem apply_other {k : Fin 22} (hk : ∀ r, k ≠ slot r) : h.apply e vector frame k = frame k := by
  have hrsp : (Fin.ofNat 22 (0xa0 / 8)) = slot 4 := by decide
  cases h <;> simp only [Handler.apply, hrsp, update_slot hk]

theorem clearFlags_other {k : Fin 22} (hk : ∀ r, k ≠ slot r) : clearFlags e frame k = frame k := by
  rw [clearFlags]
  split <;> split <;> simp only [update_slot hk]

/-! ## Fixups -/

theorem fixup_fixed (hf : t.find (frame ripSlot) = some i) (hh : (t.entry i).handler = some h) :
    fixup t frame vector =
      ⟨true, update (clearFlags (t.entry i) (h.apply (t.entry i) vector frame)) ripSlot (t.fixupAddr i),
        (t.entry i).type⟩ := by
  rw [fixup, hf]
  dsimp only
  rw [hh]

theorem fixup_refused (hno : ∀ i, t.find (frame ripSlot) = some i → (t.entry i).handler = none) :
    (fixup t frame vector).fixed = false ∧ (fixup t frame vector).frame = frame := by
  rw [fixup]
  split
  · exact ⟨rfl, rfl⟩
  · rename_i i hf
    dsimp only
    rw [hno i hf]
    exact ⟨rfl, rfl⟩

theorem load_holds {start stop : BitVec 64} {alloc : Bool} {words : Nat → BitVec 32}
    (hl : load start stop alloc (.ok words) = (.ok, some t)) : t.Holds start stop words := by
  unfold load at hl
  split at hl
  · cases hl
  dsimp only at hl
  split_ifs at hl with hbytes
  · cases hl
  · cases hl
  obtain rfl := Option.some.inj (Prod.mk.inj hl).2
  refine ⟨rfl, ?_, fun i hi => ?_⟩
  · rw [Table.count, List.length_map, List.length_range]
    exact Nat.div_mul_cancel (Nat.dvd_of_mod_eq_zero (not_not.mp hbytes))
  · rw [Table.count, List.length_map, List.length_range] at hi
    rw [Table.entry, List.getD_eq_getElem?_getD, List.getElem?_map, List.getElem?_range hi]
    rfl

/-- For every table that was loaded, every frame and every vector: a fixup selects an entry for the address of the fault
if there is one, succeeds exactly when its type is implemented, and then leaves what the guest's handler would, and
otherwise the frame as it was. -/
theorem fixup_fixes {start stop : BitVec 64} {alloc : Bool} {words : Nat → BitVec 32}
    (hl : load start stop alloc (.ok words) = (.ok, some t)) (frame : Frame) (vector : BitVec 64) :
    t.Holds start stop words ∧ Fixes t frame vector (fixup t frame vector) := by
  have hcases : (∃ i h, t.find (frame ripSlot) = some i ∧ (t.entry i).handler = some h) ∨
      ∀ i, t.find (frame ripSlot) = some i → (t.entry i).handler = none := by
    by_cases hsome : ∃ i h, t.find (frame ripSlot) = some i ∧ (t.entry i).handler = some h
    · exact .inl hsome
    · refine .inr fun i hf => Option.eq_none_iff_forall_ne_some.mpr fun h hh => hsome ⟨i, h, hf, hh⟩
  refine ⟨load_holds hl, ?_⟩
  constructor
  case selected => exact fun i hf => Table.find_spec hf
  case complete => exact fun i hi heq => Table.find_isSome hi heq
  case distinct => exact fun hdistinct i hi heq => Table.find_eq_some hdistinct hi heq
  case succeeds =>
    rcases hcases with ⟨i, h, hf, hh⟩ | hno
    · rw [fixup_fixed hf hh]
      refine ⟨fun _ => ⟨i, hf, ?_⟩, fun _ => rfl⟩
      rw [fixupException_eq, hh]
      rfl
    · rw [(fixup_refused hno).1]
      refine ⟨fun hfalse => (by cases hfalse), ?_⟩
      rintro ⟨i, hf, hh⟩
      rw [fixupException_eq, hno i hf] at hh
      cases hh
  case refused =>
    intro hfalse
    rcases hcases with ⟨i, h, hf, hh⟩ | hno
    · rw [fixup_fixed hf hh] at hfalse
      cases hfalse
    · exact (fixup_refused hno).2
  case fixed =>
    intro htrue
    rcases hcases with ⟨i, h, hf, hh⟩ | hno
    · rw [fixup_fixed hf hh]
      refine ⟨i, hf, ?_, ?_, fun k hk hregs => ?_⟩
      · dsimp only
        rw [update_self]
      · rw [fixupException_eq, hh]
        rfl
      · dsimp only
        rw [update_of_ne hk, clearFlags_other hregs, apply_other hregs]
    · rw [(fixup_refused hno).1] at htrue
      cases htrue

/-- The words of one entry: the instruction 4096 bytes on, the fixup at its own place, type 17 with register 1 and
immediate -1. -/
def oneEntry (i : Nat) : BitVec 32 := if i = 0 then 4096 else if i = 2 then 0xffff0111 else 0

def faultAt (rip : BitVec 64) : Frame := fun k => if k = ripSlot then rip else 0

theorem fixup_fixes_oneEntry : ∃ t, load 4096 4108 true (.ok oneEntry) = (.ok, some t) ∧
    (fixup t (faultAt 8192) 13).fixed = true ∧ (fixup t (faultAt 8192) 13).frame (slot 1) = -1 ∧
    t.Holds 4096 4108 oneEntry ∧ Fixes t (faultAt 8192) 13 (fixup t (faultAt 8192) 13) := by
  have hl : load 4096 4108 true (.ok oneEntry) = (.ok, some ⟨4096, [⟨4096, 0, 0xffff0111⟩]⟩) := by decide
  exact ⟨_, hl, by decide +kernel, by decide +kernel, fixup_fixes hl _ _⟩

end MoCoLinux.Arch.Extable
