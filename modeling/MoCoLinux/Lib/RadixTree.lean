import Mathlib.Data.Finset.Card
import Mathlib.Logic.Function.Basic

/-!
# Radix trees stored in a word memory

A tree of tables, each an array of words. A word of an inner table is either absent or a link to the
table one level below; a word of a table at the last level is a leaf. A node is named by the path of
indices that leads to it, innermost index first, so that `i :: p` is the child `i` of the node `p`.
-/

namespace RadixTree

open Function

variable {ι A W : Type*}

/-- How a word names a table. `link` is only required to be readable for the addresses in `valid`. -/
structure Codec (A W : Type*) where
  present : W → Bool
  link : A → W
  target : W → A
  valid : A → Prop
  present_link : ∀ a, valid a → present (link a) = true
  target_link : ∀ a, valid a → target (link a) = a

/-- The nodes of a tree and the address of each node's table. -/
structure Shape (ι A : Type*) where
  nodes : Finset (List ι)
  addr : List ι → A

/-- The memory `m` holds a tree of shape `S` below `root`; the leaves are in the tables at `depth`. -/
structure Rep (C : Codec A W) (depth : Nat) (root : A) (m : A → ι → W) (S : Shape ι A) : Prop where
  root_mem : [] ∈ S.nodes
  root_addr : S.addr [] = root
  inj : ∀ p ∈ S.nodes, ∀ q ∈ S.nodes, S.addr p = S.addr q → p = q
  valid : ∀ p ∈ S.nodes, C.valid (S.addr p)
  parent : ∀ i p, i :: p ∈ S.nodes → p ∈ S.nodes ∧ p.length < depth
  child : ∀ p ∈ S.nodes, p.length < depth → ∀ i, C.present (m (S.addr p) i) = true → i :: p ∈ S.nodes
  linked : ∀ i p, i :: p ∈ S.nodes → m (S.addr p) i = C.link (S.addr (i :: p))

namespace Shape

def insert [DecidableEq ι] (S : Shape ι A) (p : List ι) (a : A) : Shape ι A :=
  ⟨Insert.insert p S.nodes, update S.addr p a⟩

variable [DecidableEq ι] {S : Shape ι A} {p q : List ι} {a : A}

@[simp] theorem mem_insert_nodes : q ∈ (S.insert p a).nodes ↔ q = p ∨ q ∈ S.nodes := by
  simp [insert]

@[simp] theorem insert_addr_self : (S.insert p a).addr p = a := by simp [insert]

theorem insert_addr_of_ne (h : q ≠ p) : (S.insert p a).addr q = S.addr q := by
  simp [insert, update_of_ne h]

/-- The leaf word at index `i` of the table of `p`, if that table exists and the word is present. -/
def get (S : Shape ι A) (C : Codec A W) (m : A → ι → W) (p : List ι) (i : ι) : Option W :=
  if p ∈ S.nodes ∧ C.present (m (S.addr p) i) = true then some (m (S.addr p) i) else none

end Shape

variable {C : Codec A W} {depth : Nat} {root : A} {m m' : A → ι → W} {S : Shape ι A}

theorem Rep.single (hv : C.valid root) (h0 : ∀ i, C.present (m root i) = false) :
    Rep C depth root m ⟨{[]}, fun _ => root⟩ where
  root_mem := by simp
  root_addr := rfl
  inj := by simp
  valid := by simpa using hv
  parent := by simp
  child := by simp [h0]
  linked := by simp

theorem Rep.present_iff (h : Rep C depth root m S) {p : List ι} (hp : p ∈ S.nodes) (hd : p.length < depth)
    (i : ι) : C.present (m (S.addr p) i) = true ↔ i :: p ∈ S.nodes := by
  refine ⟨h.child p hp hd i, fun hi => ?_⟩
  rw [h.linked i p hi]
  exact C.present_link _ (h.valid _ hi)

theorem Rep.target_eq (h : Rep C depth root m S) {p : List ι} {i : ι} (hi : i :: p ∈ S.nodes) :
    C.target (m (S.addr p) i) = S.addr (i :: p) := by
  rw [h.linked i p hi]
  exact C.target_link _ (h.valid _ hi)

theorem Rep.length_le (h : Rep C depth root m S) : ∀ {p}, p ∈ S.nodes → p.length ≤ depth
  | [], _ => Nat.zero_le _
  | i :: p, hp => (h.parent i p hp).2

theorem Rep.mem_of_append (h : Rep C depth root m S) {p : List ι} : ∀ {l}, l ++ p ∈ S.nodes → p ∈ S.nodes
  | [], hp => hp
  | _ :: _, hp => h.mem_of_append (h.parent _ _ hp).1

/-- Only the tables of the nodes matter. -/
theorem Rep.congr (h : Rep C depth root m S) (hm : ∀ p ∈ S.nodes, m' (S.addr p) = m (S.addr p)) :
    Rep C depth root m' S where
  root_mem := h.root_mem
  root_addr := h.root_addr
  inj := h.inj
  valid := h.valid
  parent := h.parent
  child p hp hd i hi := h.child p hp hd i (by rwa [hm p hp] at hi)
  linked i p hi := by rw [hm p (h.parent i p hi).1]; exact h.linked i p hi

section Extend

variable [DecidableEq ι] {p : List ι} {i : ι} {a : A}

theorem Shape.get_congr (hm : ∀ p ∈ S.nodes, m' (S.addr p) = m (S.addr p)) (p : List ι) (i : ι) :
    S.get C m' p i = S.get C m p i := by
  unfold Shape.get
  by_cases hp : p ∈ S.nodes
  · simp [hp, hm p hp]
  · simp [hp]

/-- Linking the table `a` as child `i` of `p`: the new table is empty, the word at index `i` of the table of `p`
becomes the link, and no other word of a node changes. -/
structure Linked (C : Codec A W) (S : Shape ι A) (p : List ι) (i : ι) (a : A) (m m' : A → ι → W) :
    Prop where
  empty : ∀ j, C.present (m' a j) = false
  link : m' (S.addr p) i = C.link a
  other : ∀ q ∈ S.nodes, ∀ j, (q ≠ p ∨ j ≠ i) → m' (S.addr q) j = m (S.addr q) j

theorem Rep.extend (h : Rep C depth root m S) (hp : p ∈ S.nodes) (hd : p.length < depth)
    (hi : i :: p ∉ S.nodes) (hv : C.valid a) (hfresh : ∀ q ∈ S.nodes, S.addr q ≠ a)
    (hl : Linked C S p i a m m') : Rep C depth root m' (S.insert (i :: p) a) := by
  have hold : ∀ {q}, q ∈ S.nodes → (S.insert (i :: p) a).addr q = S.addr q := fun hq =>
    Shape.insert_addr_of_ne (fun he => hi (he ▸ hq))
  refine ⟨by simp [h.root_mem], by rw [hold h.root_mem, h.root_addr], ?_, ?_, ?_, ?_, ?_⟩
  · intro q hq r hr he
    rcases Shape.mem_insert_nodes.mp hq with rfl | hq <;> rcases Shape.mem_insert_nodes.mp hr with rfl | hr
    · rfl
    · rw [Shape.insert_addr_self, hold hr] at he
      exact absurd he.symm (hfresh r hr)
    · rw [Shape.insert_addr_self, hold hq] at he
      exact absurd he (hfresh q hq)
    · rw [hold hq, hold hr] at he
      exact h.inj q hq r hr he
  · intro q hq
    rcases Shape.mem_insert_nodes.mp hq with rfl | hq
    · rwa [Shape.insert_addr_self]
    · rw [hold hq]; exact h.valid q hq
  · intro j q hq
    rcases Shape.mem_insert_nodes.mp hq with he | hq
    · cases he; exact ⟨by simp [hp], hd⟩
    · exact ⟨by simp [(h.parent j q hq).1], (h.parent j q hq).2⟩
  · intro q hq hqd j hj
    rcases Shape.mem_insert_nodes.mp hq with rfl | hq
    · rw [Shape.insert_addr_self, hl.empty] at hj; cases hj
    · rw [hold hq] at hj
      by_cases hqp : q = p ∧ j = i
      · obtain ⟨rfl, rfl⟩ := hqp; simp
      · rw [hl.other q hq j (by tauto)] at hj
        simp [h.child q hq hqd j hj]
  · intro j q hq
    rcases Shape.mem_insert_nodes.mp hq with he | hq
    · cases he
      rw [Shape.insert_addr_self, hold hp, hl.link]
    · have hqn := (h.parent j q hq).1
      have hne : q ≠ p ∨ j ≠ i := by
        by_contra hcon
        push Not at hcon
        exact hi (hcon.1 ▸ hcon.2 ▸ hq)
      rw [hold hq, hold hqn, hl.other q hqn j hne]
      exact h.linked j q hq

/-- A new table has no leaves, so linking it changes no leaf. -/
theorem Linked.get_insert (hl : Linked C S p i a m m') (hd : p.length < depth) (hi : i :: p ∉ S.nodes)
    {q : List ι} (hq : q.length = depth) (j : ι) :
    (S.insert (i :: p) a).get C m' q j = S.get C m q j := by
  unfold Shape.get
  by_cases hqe : q = i :: p
  · subst hqe
    simp [hl.empty, hi]
  · by_cases hqn : q ∈ S.nodes
    · have hne : q ≠ p := by rintro rfl; omega
      simp [hqn, Shape.insert_addr_of_ne hqe, hl.other q hqn j (Or.inl hne)]
    · simp [hqn, hqe]

theorem Shape.card_insert (hi : p ∉ S.nodes) : (S.insert p a).nodes.card = S.nodes.card + 1 := by
  simp [Shape.insert, hi]

theorem Shape.image_insert [DecidableEq A] (hi : p ∉ S.nodes) :
    (S.insert p a).nodes.image (S.insert p a).addr = Insert.insert a (S.nodes.image S.addr) := by
  rw [show (S.insert p a).nodes = Insert.insert p S.nodes from rfl, Finset.image_insert, insert_addr_self]
  refine congrArg _ (Finset.image_congr fun q hq => insert_addr_of_ne ?_)
  rintro rfl
  exact hi hq

end Extend

section Write

variable [DecidableEq ι] [DecidableEq A] {p : List ι} {i : ι} {w : W}

def write (m : A → ι → W) (a : A) (i : ι) (w : W) : A → ι → W :=
  update m a (update (m a) i w)

@[simp] theorem write_self (m : A → ι → W) (a : A) (i : ι) (w : W) : write m a i w a i = w := by
  simp [write]

theorem write_at (m : A → ι → W) (a : A) (i j : ι) (w : W) : write m a i w a j = if j = i then w else m a j := by
  simp [write, update_apply]

theorem write_of_addr_ne (m : A → ι → W) {a b : A} (i j : ι) (w : W) (h : b ≠ a) :
    write m a i w b j = m b j := by
  simp [write, update_of_ne h]

theorem write_of_index_ne (m : A → ι → W) (a b : A) {i j : ι} (w : W) (h : j ≠ i) :
    write m a i w b j = m b j := by
  by_cases hb : b = a
  · subst hb; simp [write, update_of_ne h]
  · exact write_of_addr_ne m i j w hb

theorem Rep.write (h : Rep C depth root m S) (hp : p ∈ S.nodes) (hd : p.length = depth) :
    Rep C depth root (write m (S.addr p) i w) S where
  root_mem := h.root_mem
  root_addr := h.root_addr
  inj := h.inj
  valid := h.valid
  parent := h.parent
  child q hq hqd j hj := by
    have hne : S.addr q ≠ S.addr p := fun he => by
      have := h.inj q hq p hp he; subst this; omega
    rw [write_of_addr_ne _ _ _ _ hne] at hj
    exact h.child q hq hqd j hj
  linked j q hq := by
    have hqn := h.parent j q hq
    have hne : S.addr q ≠ S.addr p := fun he => by
      have := h.inj q hqn.1 p hp he; subst this; omega
    rw [write_of_addr_ne _ _ _ _ hne]
    exact h.linked j q hq

theorem Rep.get_write (h : Rep C depth root m S) (hp : p ∈ S.nodes) (hw : C.present w = true)
    (q : List ι) (j : ι) :
    S.get C (RadixTree.write m (S.addr p) i w) q j
      = if q = p ∧ j = i then some w else S.get C m q j := by
  unfold Shape.get
  by_cases hqj : q = p ∧ j = i
  · obtain ⟨rfl, rfl⟩ := hqj; simp [hp, hw]
  · rw [if_neg hqj]
    by_cases hqn : q ∈ S.nodes
    · have hsame : RadixTree.write m (S.addr p) i w (S.addr q) j = m (S.addr q) j := by
        by_cases hj : j = i
        · refine write_of_addr_ne _ _ _ _ fun he => hqj ⟨h.inj q hqn p hp he, hj⟩
        · exact write_of_index_ne _ _ _ _ hj
      simp [hqn, hsame]
    · simp [hqn]

end Write

section Postorder

variable [DecidableEq ι] {idx : List ι} {q : List ι}

/-- The nodes from `p` on, `n` levels deep, where `idx` are the indices of a table. -/
def Shape.postorder (S : Shape ι A) (idx : List ι) : Nat → List ι → List (List ι)
  | 0, p => [p]
  | n + 1, p => (idx.filter (· :: p ∈ S.nodes)).flatMap (fun i => S.postorder idx n (i :: p)) ++ [p]

theorem Shape.suffix_of_mem_postorder (n : Nat) : ∀ {p}, q ∈ S.postorder idx n p → p <:+ q := by
  induction n with
  | zero =>
    intro p hq
    rw [List.mem_singleton.mp hq]
  | succ n ih =>
    intro p hq
    rcases List.mem_append.mp hq with hq | hq
    · obtain ⟨i, -, hq⟩ := List.mem_flatMap.mp hq
      exact (List.suffix_cons i p).trans (ih hq)
    · rw [List.mem_singleton.mp hq]

theorem Shape.nodup_postorder (hidx : idx.Nodup) (n : Nat) : ∀ p, (S.postorder idx n p).Nodup := by
  induction n with
  | zero => exact fun p => List.nodup_singleton p
  | succ n ih =>
    intro p
    refine List.nodup_append'.mpr ⟨List.nodup_flatMap.mpr ⟨fun i _ => ih _, ?_⟩, List.nodup_singleton p, ?_⟩
    · refine (hidx.filter _).imp fun hij q hi hj => hij ?_
      have hsuffix := List.suffix_of_suffix_length_le (suffix_of_mem_postorder n hi) (suffix_of_mem_postorder n hj)
        (Nat.le_refl _)
      exact (List.cons.inj (hsuffix.eq_of_length rfl)).1
    · intro q hq hp
      obtain ⟨i, -, hq⟩ := List.mem_flatMap.mp hq
      rw [List.mem_singleton.mp hp] at hq
      have hle := (suffix_of_mem_postorder n hq).length_le
      exact absurd hle (by simp)

theorem Rep.mem_postorder (h : Rep C depth root m S) (hidx : ∀ i p, i :: p ∈ S.nodes → i ∈ idx) (n : Nat) :
    ∀ {p}, p ∈ S.nodes → n + p.length = depth → (q ∈ S.postorder idx n p ↔ q ∈ S.nodes ∧ p <:+ q) := by
  induction n with
  | zero =>
    intro p hp hn
    refine ⟨fun hq => ?_, fun hq => ?_⟩
    · rw [List.mem_singleton.mp hq]
      exact ⟨hp, List.suffix_rfl⟩
    · have hle := h.length_le hq.1
      exact List.mem_singleton.mpr (hq.2.eq_of_length_le (by omega)).symm
  | succ n ih =>
    intro p hp hn
    refine ⟨fun hq => ⟨?_, Shape.suffix_of_mem_postorder (n + 1) hq⟩, fun ⟨hq, l, hl⟩ => ?_⟩
    · rcases List.mem_append.mp hq with hq | hq
      · obtain ⟨i, hi, hq⟩ := List.mem_flatMap.mp hq
        have hi := of_decide_eq_true (List.mem_filter.mp hi).2
        exact ((ih hi (by simp; omega)).mp hq).1
      · rwa [List.mem_singleton.mp hq]
    · subst hl
      rcases List.eq_nil_or_concat' l with rfl | ⟨l, i, rfl⟩
      · exact List.mem_append_right _ (List.mem_singleton.mpr rfl)
      · have hi : i :: p ∈ S.nodes := h.mem_of_append (List.append_assoc l [i] p ▸ hq)
        refine List.mem_append_left _ (List.mem_flatMap.mpr ⟨i, ?_, ?_⟩)
        · exact List.mem_filter.mpr ⟨hidx i p hi, decide_eq_true hi⟩
        · exact (ih hi (by simp; omega)).mpr ⟨hq, l, (List.append_assoc l [i] p).symm⟩

theorem Rep.toFinset_postorder (h : Rep C depth root m S) (hidx : ∀ i p, i :: p ∈ S.nodes → i ∈ idx) :
    (S.postorder idx depth []).toFinset = S.nodes := by
  ext q
  rw [List.mem_toFinset, h.mem_postorder hidx depth h.root_mem rfl]
  exact and_iff_left List.nil_suffix

end Postorder

end RadixTree
