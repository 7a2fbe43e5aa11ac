import MoCoLinux.Cogpu.Hints

/-!
# Readbacks in a command stream: results
-/

namespace MoCoLinux.Cogpu

open Recency (Kept)

section Packet

variable {command : Nat → Option UInt32} {word : Nat → UInt32}

theorem readsBack_eq (h : ∀ i ≤ packetLength (word 0), command i = some (word i)) :
    readsBack command (packetOpcode (word 0)) (packetLength (word 0)) = some (isReadback word) := by
  rw [readsBack, isReadback]
  split
  · rename_i htransfer
    rw [h 13 htransfer.2, htransfer.1]
    simp [htransfer.2, ccmdTransfer3d, ccmdCopyTransfer3d]
  · rename_i htransfer
    split
    · rename_i hcopy
      rw [h 14 (Nat.le_of_eq hcopy.2.symm), hcopy.1]
      simp [hcopy.2, ccmdTransfer3d, ccmdCopyTransfer3d]
    · rename_i hcopy
      grind

theorem length_of_isReadback (h : isReadback word) : 13 ≤ packetLength (word 0) := by
  simp only [isReadback, Bool.or_eq_true, Bool.and_eq_true, decide_eq_true_eq, beq_iff_eq] at h
  rcases h with ⟨⟨-, h⟩, -⟩ | ⟨⟨-, h⟩, -⟩
  · exact h
  · exact h ▸ by decide

theorem visit_eq {header : UInt32} (hints : List Hint) (h : ∀ i ≤ packetLength header, command i = some (word i))
    (hheader : word 0 = header) : visit command header hints =
      some (if isReadback word then Recency.insert Hint.resourceId maxPresentHints hints (hintOf word) else hints) := by
  subst hheader
  rw [visit, readsBack_eq h, Option.bind_some]
  by_cases hback : isReadback word
  · have hlength := length_of_isReadback hback
    rw [if_pos hback, if_pos hback, addPresentHint, h 1 (by omega), h 2 (by omega), h 6 (by omega), h 7 (by omega),
      h 9 (by omega), h 10 (by omega)]
    rfl
  · rw [if_neg hback, if_neg hback]

end Packet

theorem readbacks_cons {header : UInt32} {rest : List UInt32} (h : packetLength header ≤ rest.length) :
    readbacks (header :: rest) =
      (if isReadback ((header :: rest.take (packetLength header)).getD · 0) then
        [hintOf ((header :: rest.take (packetLength header)).getD · 0)] else []) ++
      readbacks (rest.drop (packetLength header)) := by
  rw [readbacks, packets, if_pos h, List.map_cons, List.filter_cons]
  split <;> rfl

theorem Kept.visit {seen hints : List Hint} (h : Kept Hint.resourceId maxPresentHints seen hints) (word : Nat → UInt32) :
    Kept Hint.resourceId maxPresentHints (seen ++ if isReadback word then [hintOf word] else [])
      (if isReadback word then Recency.insert Hint.resourceId maxPresentHints hints (hintOf word) else hints) := by
  split
  · exact h.insert (by decide) _
  · rwa [List.append_nil]

theorem hintLoop_kept {stream : List UInt32} (hsize : stream.length < 2 ^ 32) (fuel : Nat) :
    ∀ {offset : Nat} {seen hints : List Hint}, offset ≤ stream.length → stream.length - offset < fuel →
      Kept Hint.resourceId maxPresentHints seen hints →
      ∃ hints', hintLoop stream fuel offset hints = some hints' ∧
        Kept Hint.resourceId maxPresentHints (seen ++ readbacks (stream.drop offset)) hints' := by
  induction fuel with
  | zero => intro offset seen hints _ hfuel; omega
  | succ fuel ih =>
    intro offset seen hints hle hfuel h
    rw [hintLoop]
    by_cases hlt : offset < stream.length
    · have hdrop := List.drop_eq_getElem_cons hlt
      have hrest : (stream.drop (offset + 1)).length = u32Sub (u32Sub stream.length offset) 1 := by
        simp only [List.length_drop, u32Sub]
        omega
      rw [if_pos hlt, List.getElem?_eq_getElem hlt, Option.bind_some, ← hrest, hdrop]
      by_cases hlong : (stream.drop (offset + 1)).length < packetLength stream[offset]
      · refine ⟨hints, if_pos hlong, ?_⟩
        rw [readbacks, packets, if_neg (by omega)]
        simpa using h
      · rw [if_neg hlong, readbacks_cons (by omega), ← List.append_assoc]
        have hword : ∀ i ≤ packetLength stream[offset], stream[offset + i]? =
            some ((stream[offset] :: (stream.drop (offset + 1)).take (packetLength stream[offset])).getD i 0) := by
          intro i hi
          rw [List.length_drop] at hlong
          cases i with
          | zero => simp [List.getElem?_eq_getElem hlt]
          | succ i =>
            rw [List.getD_cons_succ, List.getD_eq_getElem?_getD, List.getElem?_take_of_lt (by omega),
              List.getElem?_drop, Nat.add_right_comm, Nat.add_assoc offset, List.getElem?_eq_getElem (by omega),
              Option.getD_some]
        rw [List.length_drop] at hlong
        have hnext : u32 (offset + (packetLength stream[offset] + 1)) = offset + (packetLength stream[offset] + 1) :=
          Nat.mod_eq_of_lt (by omega)
        rw [visit_eq hints hword rfl, Option.bind_some, hnext, List.drop_drop]
        have hsum : offset + 1 + packetLength stream[offset] = offset + (packetLength stream[offset] + 1) := by omega
        rw [hsum]
        exact ih (by omega) (by omega) (Kept.visit h _)
    · rw [if_neg hlt, List.drop_eq_nil_of_le (by omega), readbacks, packets]
      exact ⟨hints, rfl, by simpa using h⟩

/-- For every stream the function ends without a read outside of it, and leaves at most eight hints with distinct
resources, each of the last readback of its resource in the well-formed prefix; the last readback of all is among
them. -/
theorem findPresentHints_kept (stream : List UInt32) (hsize : stream.length < 2 ^ 32) :
    ∃ hints, findPresentHints stream = some hints ∧
      Kept Hint.resourceId maxPresentHints (readbacks stream) hints :=
  hintLoop_kept hsize _ (Nat.zero_le _) (Nat.lt_succ_self _) .nil

/-- Two readbacks of resource 5, one of resource 6 between them, and a packet that is cut off. -/
def twoResources : List UInt32 :=
  [0x000d002b, 5, 0, 0, 0, 0, 1, 2, 0, 3, 4, 0, 0, 2] ++ [0x000e002d, 6, 1, 0, 0, 0, 0, 0, 0, 8, 8, 0, 0, 0, 2] ++
  [0x000d002b, 5, 0, 0, 0, 0, 7, 7, 0, 9, 9, 0, 0, 2] ++ [0x000d002b, 6]

theorem findPresentHints_kept_twoResources :
    findPresentHints twoResources = some [⟨5, 0, 7, 7, 9, 9⟩, ⟨6, 1, 0, 0, 8, 8⟩] ∧
    ∃ hints, findPresentHints twoResources = some hints ∧
      Kept Hint.resourceId maxPresentHints (readbacks twoResources) hints :=
  ⟨by decide +kernel, findPresentHints_kept twoResources (by decide)⟩

end MoCoLinux.Cogpu
