import Mathlib.Data.List.Basic
import Mathlib.Data.List.Count
import Mathlib.Logic.Function.Basic
import Mathlib.Tactic.Common

/-!
# Linked lists in an array of nodes

The link of a node is kept in the node. `Chain next p l` says that the links from `p` on run through `l`, and
`Queue` adds a pointer to the last node.
-/

namespace LinkedList

variable {α ι : Type*} {next next' : α → Option α} {p t : Option α} {l : List α} {a : α}

def Chain (next : α → Option α) : Option α → List α → Prop
  | p, [] => p = none
  | p, a :: l => p = some a ∧ Chain next (next a) l

theorem Chain.congr (h : Chain next p l) (hn : ∀ a ∈ l, next' a = next a) : Chain next' p l := by
  induction l generalizing p with
  | nil => exact h
  | cons b l ih =>
    refine ⟨h.1, ?_⟩
    rw [hn b List.mem_cons_self]
    exact ih h.2 fun a ha => hn a (List.mem_cons_of_mem b ha)

theorem Chain.eq_nil (h : Chain next none l) : l = [] := by
  cases l with
  | nil => rfl
  | cons b l => cases h.1

theorem Chain.eq_cons (h : Chain next (some a) l) : l = a :: l.tail ∧ Chain next (next a) l.tail := by
  cases l with
  | nil => cases h
  | cons b l =>
    cases h.1
    exact ⟨rfl, h.2⟩

structure Queue (next : α → Option α) (p t : Option α) (l : List α) : Prop where
  chain : Chain next p l
  last : t = l.getLast?

theorem Queue.empty : Queue next none none ([] : List α) := ⟨rfl, rfl⟩

theorem Queue.dequeue (h : Queue next (some a) t l) :
    l = a :: l.tail ∧ Queue next (next a) (if (next a).isNone then none else t) l.tail := by
  obtain ⟨hl, hchain⟩ := h.chain.eq_cons
  refine ⟨hl, hchain, ?_⟩
  rw [h.last]
  generalize l.tail = k at hl hchain ⊢
  cases k with
  | nil =>
    rw [hchain]
    rfl
  | cons b k =>
    rw [hchain.1, hl]
    rfl

section Update

variable [DecidableEq α]

theorem Chain.update (h : Chain next p l) (ha : a ∉ l) (v : Option α) : Chain (Function.update next a v) p l :=
  h.congr fun b hb => Function.update_of_ne (fun he : b = a => ha (he ▸ hb)) _ _

theorem Chain.cons (h : Chain next p l) (ha : a ∉ l) : Chain (Function.update next a p) (some a) (a :: l) := by
  refine ⟨rfl, ?_⟩
  rw [Function.update_self]
  exact h.update ha p

theorem Chain.snoc {b : α} : ∀ {l : List α} {p : Option α}, Chain next p (l ++ [b]) → (l ++ [b]).Nodup →
    a ∉ l ++ [b] → next a = none → Chain (Function.update next b (some a)) p (l ++ [b] ++ [a])
  | [], p, h, _, ha, hn => by
    have hab : a ≠ b := by simpa using ha
    refine ⟨h.1, Function.update_self .., ?_⟩
    rw [Function.update_of_ne hab]
    exact hn
  | c :: l, p, h, hd, ha, hn => by
    have hd' := List.nodup_cons.mp hd
    have hcb : c ≠ b := fun he => hd'.1 (by simp [he])
    refine ⟨h.1, ?_⟩
    rw [Function.update_of_ne hcb]
    exact Chain.snoc h.2 hd'.2 (fun hm => ha (List.mem_cons_of_mem c hm)) hn

/-- The link of the last node, if there is one, to a new node. -/
def link (next : α → Option α) (t : Option α) (a : α) : α → Option α :=
  match t with
  | none => next
  | some b => Function.update next b (some a)

/-- The first node, when `a` becomes the last one. -/
def front (p t : Option α) (a : α) : Option α :=
  match t with
  | none => some a
  | some _ => p

theorem Queue.update (h : Queue next p t l) (ha : a ∉ l) (v : Option α) : Queue (Function.update next a v) p t l :=
  ⟨h.chain.update ha v, h.last⟩

theorem Queue.enqueue (h : Queue next p t l) (hd : l.Nodup) (ha : a ∉ l) :
    Queue (link (Function.update next a none) t a) (front p t a) (some a) (l ++ [a]) := by
  have hchain := h.chain.update ha none
  rw [h.last]
  rcases List.eq_nil_or_concat l with rfl | ⟨k, b, rfl⟩
  · exact ⟨⟨rfl, Function.update_self ..⟩, rfl⟩
  · rw [List.concat_eq_append] at *
    rw [List.getLast?_concat]
    refine ⟨Chain.snoc hchain hd ha (Function.update_self ..), ?_⟩
    rw [List.getLast?_concat]

theorem Chain.link {k : List α} (h : Chain next p k) (ht : ∀ b, t = some b → b ∉ k) :
    Chain (link next t a) p k := by
  cases t with
  | none => exact h
  | some b => exact h.update (ht b rfl) _

theorem Queue.link {k : List α} {b : Option α} (h : Queue next p b k) (ht : ∀ b, t = some b → b ∉ k) :
    Queue (link next t a) p b k := ⟨h.chain.link ht, h.last⟩

end Update

variable [DecidableEq ι] [DecidableEq α]

theorem count_flatMap_update {is : List ι} (hd : is.Nodup) {i : ι} (hi : i ∈ is) (q : ι → List α) (l : List α) (a : α) :
    (is.flatMap (Function.update q i l)).count a + (q i).count a = (is.flatMap q).count a + l.count a := by
  induction is with
  | nil => cases hi
  | cons j is ih =>
    obtain ⟨hj, hd⟩ := List.nodup_cons.mp hd
    rw [List.flatMap_cons, List.flatMap_cons, List.count_append, List.count_append]
    by_cases hij : j = i
    · subst hij
      have hrest : is.flatMap (Function.update q j l) = is.flatMap q :=
        List.flatMap_congr fun k hk => Function.update_of_ne (fun he : k = j => hj (he ▸ hk)) _ _
      rw [hrest, Function.update_self]
      omega
    · have hmem : i ∈ is := (List.mem_cons.mp hi).resolve_left (Ne.symm hij)
      have := ih hd hmem
      rw [Function.update_of_ne hij]
      omega

end LinkedList
