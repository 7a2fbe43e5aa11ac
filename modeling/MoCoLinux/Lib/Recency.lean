import Mathlib.Data.List.Nodup

/-!
# Lists of the latest values

A list of at most `cap` values with distinct keys. A value takes the place of the one with its key; otherwise it comes
to the end, and the first value of a full list goes.
-/

namespace Recency

variable {α κ : Type} [DecidableEq κ] (key : α → κ)

def insert (cap : Nat) (l : List α) (x : α) : List α :=
  let i := l.findIdx fun y => key y = key x
  if i = cap then l.tail ++ [x]
  else if i = l.length then l ++ [x]
  else l.set i x

/-- The last value with key `k`. -/
def last (seen : List α) (k : κ) : Option α := (seen.filter fun y => key y = k).getLast?

/-- What such a list has of the values seen: each value is the last with its key, and the last of all is there. -/
structure Kept (cap : Nat) (seen l : List α) : Prop where
  length_le : l.length ≤ cap
  nodup : (l.map key).Nodup
  latest : ∀ y ∈ l, last key seen (key y) = some y
  newest : ∀ x, seen.getLast? = some x → x ∈ l

variable {key} {cap : Nat} {seen l : List α}

theorem Kept.nil : Kept key cap [] [] := ⟨Nat.zero_le _, List.nodup_nil, by simp, by simp⟩

theorem last_append_self (x : α) : last key (seen ++ [x]) (key x) = some x := by
  simp [last, List.filter_append]

theorem last_append_of_ne {x : α} {k : κ} (h : k ≠ key x) : last key (seen ++ [x]) k = last key seen k := by
  simp [last, List.filter_append, Ne.symm h]

theorem insert_cases (key : α → κ) (hle : l.length ≤ cap) (x : α) :
    (∃ a y b, l = a ++ y :: b ∧ key y = key x ∧ insert key cap l x = a ++ x :: b) ∨
    (∀ y ∈ l, key y ≠ key x) ∧ (insert key cap l x = l.tail ++ [x] ∨ l.length < cap ∧ insert key cap l x = l ++ [x]) := by
  rw [insert]
  by_cases hlt : l.findIdx (fun y => key y = key x) < l.length
  · left
    have hkey := of_decide_eq_true (List.findIdx_getElem (w := hlt))
    generalize l.findIdx (fun y => key y = key x) = i at hlt hkey ⊢
    refine ⟨l.take i, l[i], l.drop (i + 1), ?_, hkey, ?_⟩
    · rw [← List.drop_eq_getElem_cons hlt, List.take_append_drop]
    · rw [if_neg (by omega), if_neg (by omega), List.set_eq_take_append_cons_drop, if_pos hlt]
  · right
    have hnone : ∀ y ∈ l, key y ≠ key x := by
      simpa [List.findIdx_lt_length] using hlt
    have heq : l.findIdx (fun y => key y = key x) = l.length := Nat.le_antisymm List.findIdx_le_length (by omega)
    refine ⟨hnone, ?_⟩
    rw [heq]
    by_cases hfull : l.length = cap
    · exact .inl (if_pos hfull)
    · exact .inr ⟨by omega, by rw [if_neg hfull, if_pos rfl]⟩

/-- What is in the list afterwards. -/
theorem insert_mem (hle : l.length ≤ cap) (hnodup : (l.map key).Nodup) (x : α) :
    x ∈ insert key cap l x ∧ ∀ y ∈ insert key cap l x, y = x ∨ y ∈ l ∧ key y ≠ key x := by
  rcases insert_cases key hle x with ⟨a, z, b, rfl, hz, heq⟩ | ⟨hne, heq | ⟨-, heq⟩⟩
  · rw [heq]
    rw [List.map_append, List.map_cons, List.nodup_middle, List.nodup_cons, hz, List.mem_append] at hnodup
    simp only [List.mem_append, List.mem_cons]
    refine ⟨by simp, ?_⟩
    rintro y (hy | rfl | hy)
    · exact .inr ⟨.inl hy, fun h => hnodup.1 (.inl (h ▸ List.mem_map_of_mem hy))⟩
    · exact .inl rfl
    · exact .inr ⟨.inr (.inr hy), fun h => hnodup.1 (.inr (h ▸ List.mem_map_of_mem hy))⟩
  · rw [heq]
    refine ⟨by simp, fun y hy => ?_⟩
    rcases List.mem_append.mp hy with hy | hy
    · exact .inr ⟨List.mem_of_mem_tail hy, hne y (List.mem_of_mem_tail hy)⟩
    · exact .inl (List.mem_singleton.mp hy)
  · rw [heq]
    refine ⟨by simp, fun y hy => ?_⟩
    rcases List.mem_append.mp hy with hy | hy
    · exact .inr ⟨hy, hne y hy⟩
    · exact .inl (List.mem_singleton.mp hy)

theorem insert_nodup (hle : l.length ≤ cap) (hnodup : (l.map key).Nodup) (hcap : 0 < cap) (x : α) :
    ((insert key cap l x).map key).Nodup ∧ (insert key cap l x).length ≤ cap := by
  have happend : ∀ {m : List α}, (m.map key).Nodup → (∀ y ∈ m, key y ≠ key x) → ((m ++ [x]).map key).Nodup := by
    intro m hm hne
    rw [List.map_append, List.map_singleton, ← List.concat_eq_append, List.nodup_concat]
    refine ⟨fun hx => ?_, hm⟩
    obtain ⟨y, hy, hkey⟩ := List.mem_map.mp hx
    exact hne y hy hkey
  rcases insert_cases key hle x with ⟨a, z, b, rfl, hz, heq⟩ | ⟨hne, heq | ⟨hlt, heq⟩⟩
  · rw [heq]
    refine ⟨by simpa [hz] using hnodup, by simpa using hle⟩
  · rw [heq]
    refine ⟨happend ?_ fun y hy => hne y (List.mem_of_mem_tail hy), ?_⟩
    · exact hnodup.sublist ((List.tail_sublist l).map key)
    · simp only [List.length_append, List.length_tail, List.length_singleton]
      omega
  · rw [heq]
    exact ⟨happend hnodup hne, by simpa using Nat.succ_le_of_lt hlt⟩

theorem Kept.insert (h : Kept key cap seen l) (hcap : 0 < cap) (x : α) :
    Kept key cap (seen ++ [x]) (insert key cap l x) := by
  obtain ⟨hnodup, hlength⟩ := insert_nodup h.length_le h.nodup hcap x
  obtain ⟨hself, hmem⟩ := insert_mem h.length_le h.nodup x
  refine ⟨hlength, hnodup, fun y hy => ?_, fun y hy => ?_⟩
  · rcases hmem y hy with rfl | ⟨hy, hne⟩
    · exact last_append_self y
    · rw [last_append_of_ne hne, h.latest y hy]
  · rw [List.getLast?_concat, Option.some.injEq] at hy
    exact hy ▸ hself

end Recency
