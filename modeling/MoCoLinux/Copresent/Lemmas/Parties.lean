import MoCoLinux.Copresent.Lemmas.Handles

/-!
# The broker: invariant and contracts
-/

namespace MoCoLinux.Broker

open Threads (Contract Prog)

/-- What is to be shown of a run: what becomes of the handles, or of the waits. -/
inductive Aim where
  | handles
  | waits
  deriving DecidableEq

structure WaitInv (s : Broker) : Prop where
  few : ∀ i, s.cleaning i = true → s.flight.length ≤ 65
  cleans : ∀ i, s.writing i = true → (s.clients i).stateLock = some .client → s.cleaning i = true

structure Inv (aim : Aim) (s : Broker) : Prop where
  empty : ∀ i, s.count ≤ i → (s.clients i).stateLock = none ∧ ∀ k, ((s.clients i).buffers k).active = false
  handles : aim = .handles → HandleInv s
  waits : aim = .waits → WaitInv s

structure Allowed (aim : Aim) (s s' : Broker) : Prop where
  careful : aim = .handles → Careful s s'
  roomy : aim = .waits → Roomy s s'

variable {aim : Aim} {i j : Nat} {s s' s'' : Broker}

structure Rely (aim : Aim) (i : Nat) (s s' : Broker) : Prop where
  count : s.count ≤ s'.count
  connection : ∀ j < s.count, (s'.clients j).connection = (s.clients j).connection
  lock : (s'.clients i).stateLock = some .client ↔ (s.clients i).stateLock = some .client
  owned : (s.clients i).stateLock = some .client → (s'.clients i).buffers = (s.clients i).buffers
  clears : ∀ k, ((s'.clients i).buffers k).active = true → (s'.clients i).buffers k = (s.clients i).buffers k
  writing : s'.writing i = s.writing i
  cleaning : s'.cleaning i = s.cleaning i
  imports : s.imports <+: s'.imports
  bound : ∀ t, s.bound t = true → s'.bound t = true
  mine : aim = .handles → ∀ t m, s.imports[t]? = some m → m.client = i →
    s'.bound t = s.bound t ∧ (s.bound t = false → s'.closes t = s.closes t)

structure ClientGuar (aim : Aim) (i : Nat) (s s' : Broker) : Prop where
  inv : Inv aim s'
  count : s'.count = s.count
  connection : ∀ j, (s'.clients j).connection = (s.clients j).connection
  others : ∀ j, j ≠ i → s'.clients j = s.clients j
  lock : (s'.clients i).stateLock = some .response ↔ (s.clients i).stateLock = some .response
  writing : ∀ j, j ≠ i → s'.writing j = s.writing j
  cleaning : ∀ j, j ≠ i → s'.cleaning j = s.cleaning j
  imports : s.imports <+: s'.imports
  bound : ∀ t, s.bound t = true → s'.bound t = true
  theirs : aim = .handles → ∀ t m, s.imports[t]? = some m → m.client ≠ i →
    s'.bound t = s.bound t ∧ s'.closes t = s.closes t
  hand : s'.hand = s.hand
  serving : s'.serving = s.serving

structure ResponseRely (s s' : Broker) : Prop where
  count : s.count ≤ s'.count
  connection : ∀ j < s.count, (s'.clients j).connection = (s.clients j).connection
  lock : ∀ j, (s'.clients j).stateLock = some .response ↔ (s.clients j).stateLock = some .response
  hand : s'.hand = s.hand

structure ResponseGuar (aim : Aim) (s s' : Broker) : Prop where
  inv : Inv aim s'
  rely : ∀ i, Rely aim i s s'
  serving : s'.serving = s.serving

structure HostGuar (aim : Aim) (s s' : Broker) : Prop where
  inv : Inv aim s'
  rely : ∀ i, Rely aim i s s'
  response : ResponseRely s s'

structure MainGuar (aim : Aim) (s s' : Broker) : Prop where
  inv : Inv aim s'
  rely : ∀ i, Rely aim i s s'
  response : ResponseRely s s'
  serving : s'.serving = s.serving

/-- Where the thread of a client is: it holds its lock, cleans up, is in `ring_write`. -/
structure At (i : Nat) (locked cleaning writing : Bool) (s : Broker) : Prop where
  client : i < s.count
  lock : (s.clients i).stateLock = some .client ↔ locked = true
  cleaning : s.cleaning i = cleaning
  writing : s.writing i = writing

structure Rests (i : Nat) (s : Broker) : Prop where
  lock : (s.clients i).stateLock ≠ some .client
  cleaning : s.cleaning i = false
  writing : s.writing i = false

def contract (aim : Aim) : Party → Contract Broker
  | .client i => ⟨Rely aim i, ClientGuar aim i, Rests i⟩
  | .response => ⟨ResponseRely, ResponseGuar aim, fun _ => True⟩
  | .host => ⟨fun s s' => s'.serving = s.serving, HostGuar aim, fun _ => True⟩
  | .main => ⟨fun _ _ => True, MainGuar aim, fun _ => True⟩

theorem Rely.refl (s : Broker) : Rely aim i s s :=
  ⟨Nat.le_refl _, fun _ _ => rfl, Iff.rfl, fun _ => rfl, fun _ _ => rfl, rfl, rfl, List.prefix_rfl, fun _ h => h,
    fun _ _ _ _ _ => ⟨rfl, fun _ => rfl⟩⟩

theorem Rely.trans (h : Rely aim i s s') (h' : Rely aim i s' s'') : Rely aim i s s'' where
  count := Nat.le_trans h.count h'.count
  connection j hj := (h'.connection j (Nat.lt_of_lt_of_le hj h.count)).trans (h.connection j hj)
  lock := h'.lock.trans h.lock
  owned hl := (h'.owned (h.lock.mpr hl)).trans (h.owned hl)
  clears k hk := by
    have hsame := h'.clears k hk
    rw [hsame] at hk
    exact hsame.trans (h.clears k hk)
  writing := h'.writing.trans h.writing
  cleaning := h'.cleaning.trans h.cleaning
  imports := h.imports.trans h'.imports
  bound t ht := h'.bound t (h.bound t ht)
  mine ha t m hm hc := by
    obtain ⟨hb, hcl⟩ := h.mine ha t m hm hc
    obtain ⟨hb', hcl'⟩ := h'.mine ha t m (Runs.getElem?_of_grown h.imports hm) hc
    exact ⟨hb'.trans hb, fun hf => (hcl' (hb.trans hf)).trans (hcl hf)⟩

theorem ResponseRely.refl (s : Broker) : ResponseRely s s :=
  ⟨Nat.le_refl _, fun _ _ => rfl, fun _ => Iff.rfl, rfl⟩

theorem ResponseRely.trans (h : ResponseRely s s') (h' : ResponseRely s' s'') : ResponseRely s s'' :=
  ⟨Nat.le_trans h.count h'.count,
    fun j hj => (h'.connection j (Nat.lt_of_lt_of_le hj h.count)).trans (h.connection j hj),
    fun j => (h'.lock j).trans (h.lock j), h'.hand.trans h.hand⟩

theorem ClientGuar.refl (h : Inv aim s) : ClientGuar aim i s s :=
  ⟨h, rfl, fun _ => rfl, fun _ _ => rfl, Iff.rfl, fun _ _ => rfl, fun _ _ => rfl, List.prefix_rfl, fun _ h => h,
    fun _ _ _ _ _ => ⟨rfl, rfl⟩, rfl, rfl⟩

theorem Rests.stable (h : Rests i s) (hr : Rely aim i s s') : Rests i s' :=
  ⟨fun hl => h.lock (hr.lock.mp hl), hr.cleaning.trans h.cleaning, hr.writing.trans h.writing⟩

theorem contract_lawful (aim : Aim) (p : Party) : (contract aim p).Lawful (Inv aim) := by
  cases p with
  | client i =>
    exact {
      refl := Rely.refl
      trans := Rely.trans
      still := ClientGuar.refl
      keeps := fun _ h => h.inv
      idle := fun h hr _ => h.stable hr }
  | response =>
    exact {
      refl := ResponseRely.refl
      trans := ResponseRely.trans
      still := fun h => ⟨h, fun _ => .refl _, rfl⟩
      keeps := fun _ h => h.inv
      idle := fun _ _ _ => trivial }
  | host =>
    exact {
      refl := fun _ => rfl
      trans := fun h h' => h'.trans h
      still := fun h => ⟨h, fun _ => .refl _, .refl _⟩
      keeps := fun _ h => h.inv
      idle := fun _ _ _ => trivial }
  | main =>
    exact {
      refl := fun _ => trivial
      trans := fun _ _ => trivial
      still := fun h => ⟨h, fun _ => .refl _, .refl _, rfl⟩
      keeps := fun _ h => h.inv
      idle := fun _ _ _ => trivial }

theorem ClientGuar.rely (h : ClientGuar aim i s s') (hj : j ≠ i) : Rely aim j s s' where
  count := Nat.le_of_eq h.count.symm
  connection k _ := h.connection k
  lock := by rw [h.others j hj]
  owned _ := by rw [h.others j hj]
  clears k _ := by rw [h.others j hj]
  writing := h.writing j hj
  cleaning := h.cleaning j hj
  imports := h.imports
  bound := h.bound
  mine ha t m hm hc := by
    obtain ⟨hb, hcl⟩ := h.theirs ha t m hm (by rw [hc]; exact hj)
    exact ⟨hb, fun _ => hcl⟩

theorem ClientGuar.responseRely (h : ClientGuar aim i s s') : ResponseRely s s' := by
  refine ⟨Nat.le_of_eq h.count.symm, fun j _ => h.connection j, fun j => ?_, h.hand⟩
  by_cases hj : j = i
  · rw [hj]
    exact h.lock
  · rw [h.others j hj]

theorem contract_fits {p q : Party} (hpq : p ≠ q) (h : (contract aim p).guar s s') : (contract aim q).rely s s' := by
  cases q with
  | client j =>
    cases p with
    | client i => exact ClientGuar.rely h fun he => hpq (by rw [he])
    | response => exact ResponseGuar.rely h j
    | host => exact HostGuar.rely h j
    | main => exact MainGuar.rely h j
  | response =>
    cases p with
    | client i => exact ClientGuar.responseRely h
    | response => exact absurd rfl hpq
    | host => exact HostGuar.response h
    | main => exact MainGuar.response h
  | host =>
    cases p with
    | client i => exact ClientGuar.serving h
    | response => exact ResponseGuar.serving h
    | host => exact absurd rfl hpq
    | main => exact MainGuar.serving h
  | main => trivial

theorem At.stable {l c w : Bool} (h : At i l c w s) (hr : Rely aim i s s') : At i l c w s' :=
  ⟨Nat.lt_of_lt_of_le h.client hr.count, hr.lock.trans h.lock, hr.cleaning.trans h.cleaning, hr.writing.trans h.writing⟩

theorem At.rests (h : At i false false false s) : Rests i s :=
  ⟨fun hl => (by cases h.lock.mp hl), h.cleaning, h.writing⟩

theorem Rests.place (h : Rests i s) (hi : i < s.count) : At i false false false s :=
  ⟨hi, ⟨fun hl => absurd hl h.lock, fun hf => (by cases hf)⟩, h.cleaning, h.writing⟩

theorem WaitInv.same (h : WaitInv s) (hw : s'.writing = s.writing) (hc : s'.cleaning = s.cleaning)
    (hl : ∀ i, (s'.clients i).stateLock = some .client → (s.clients i).stateLock = some .client)
    (hf : s'.flight.length ≤ s.flight.length) : WaitInv s' := by
  refine ⟨fun i hi => ?_, fun i hi hli => ?_⟩
  · rw [hc] at hi
    exact Nat.le_trans hf (h.few i hi)
  · rw [hw] at hi
    rw [hc]
    exact h.cleans i hi (hl i hli)

end MoCoLinux.Broker
