import Mathlib.Data.List.Perm.Basic

/-!
# Tables with free slots

A table is a list of entries, some of which are free. An entry is put into the first free slot, and the first entry
with a property can be freed. What counts is the list of the entries in use.
-/

namespace SlotTable

variable {α : Type*} (free : α → Bool) {e : α} {t t' : List α}

def used (t : List α) : List α := t.filter fun b => !free b

def place (e : α) : List α → Option (List α)
  | [] => none
  | b :: t => if free b then some (e :: t) else (place e t).map (b :: ·)

def modifyFirst (p : α → Bool) (f : α → α) : List α → List α
  | [] => []
  | b :: t => if p b then f b :: t else b :: modifyFirst p f t

variable {free}

theorem used_replicate {b : α} (hb : free b = true) (n : Nat) : used free (List.replicate n b) = [] := by
  simp [used, hb]

theorem used_append (t u : List α) : used free (t ++ u) = used free t ++ used free u := List.filter_append ..

theorem used_cons (b : α) (t : List α) : used free (b :: t) = if free b then used free t else b :: used free t := by
  cases hb : free b <;> simp [used, hb]

theorem mem_used {b : α} : b ∈ used free t ↔ b ∈ t ∧ free b = false := by simp [used]

theorem place_perm (he : free e = false) (h : place free e t = some t') : (used free t').Perm (e :: used free t) := by
  induction t generalizing t' with
  | nil => cases h
  | cons b t ih =>
    rw [place] at h
    cases hb : free b with
    | true =>
      simp only [hb, if_true, Option.some.injEq] at h
      subst h
      simp [used_cons, hb, he]
    | false =>
      simp only [hb, Bool.false_eq_true, if_false, Option.map_eq_some_iff] at h
      obtain ⟨t₁, h₁, rfl⟩ := h
      simp only [used_cons, hb, Bool.false_eq_true, if_false]
      exact ((ih h₁).cons b).trans (List.Perm.swap e b _)

theorem place_none (h : place free e t = none) : used free t = t := by
  induction t with
  | nil => rfl
  | cons b t ih =>
    rw [place] at h
    cases hb : free b with
    | true => simp [hb] at h
    | false =>
      simp only [hb, Bool.false_eq_true, if_false, Option.map_eq_none_iff] at h
      simp only [used_cons, hb, Bool.false_eq_true, if_false, ih h]

theorem place_length (h : place free e t = some t') : t'.length = t.length := by
  induction t generalizing t' with
  | nil => cases h
  | cons b t ih =>
    rw [place] at h
    split at h
    · cases h
      rfl
    · obtain ⟨t₁, h₁, rfl⟩ := Option.map_eq_some_iff.mp h
      simp [ih h₁]

theorem used_modifyFirst {p : α → Bool} {f : α → α} (hp : ∀ b, p b = true → free b = false)
    (hf : ∀ b, free (f b) = true) (t : List α) : used free (modifyFirst p f t) = (used free t).eraseP p := by
  induction t with
  | nil => rfl
  | cons b t ih =>
    rw [modifyFirst]
    cases hpb : p b with
    | true => simp [used_cons, hf, hp b hpb, hpb]
    | false =>
      simp only [Bool.false_eq_true, if_false, used_cons, ih]
      split
      · rfl
      · rw [List.eraseP_cons_of_neg (by simp [hpb])]

theorem used_perm_modifyFirst {p : α → Bool} {f : α → α} {b : α} (hp : ∀ b, p b = true → free b = false)
    (hf : ∀ b, free (f b) = true) (h : t.find? p = some b) :
    (used free t).Perm (b :: used free (modifyFirst p f t)) := by
  induction t with
  | nil => cases h
  | cons c t ih =>
    rw [modifyFirst]
    cases hpc : p c with
    | true =>
      obtain rfl : c = b := by simpa [hpc] using h
      simp [used_cons, hf, hp c hpc]
    | false =>
      have ih := ih (by simpa [hpc] using h)
      simp only [Bool.false_eq_true, if_false, used_cons]
      split
      · exact ih
      · exact (ih.cons c).trans (List.Perm.swap b c _)

end SlotTable
