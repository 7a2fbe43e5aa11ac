import MoCoLinux.Copresent.Broker

/-!
# The handles of the broker
-/

namespace MoCoLinux

open Function
open Copresent

/-! ## Searches -/

variable {c : BrokerClient}

theorem BrokerClient.findBuffer_some {id k : Nat} (h : c.findBuffer id = some k) :
    k < brokerMaxBuffers ∧ (c.buffers k).active = true ∧ (c.buffers k).id = id := by
  have hmem := List.mem_of_find?_eq_some h
  have hprop := List.find?_some h
  simp only [Bool.and_eq_true, beq_iff_eq] at hprop
  exact ⟨List.mem_range.mp hmem, hprop⟩

theorem BrokerClient.findBuffer_none {id k : Nat} (h : c.findBuffer id = none)
    (hk : k < brokerMaxBuffers) (hactive : (c.buffers k).active = true) : (c.buffers k).id ≠ id := by
  have hall := List.find?_eq_none.mp h k (List.mem_range.mpr hk)
  simpa [hactive] using hall

theorem BrokerClient.allocBuffer_some {k : Nat} (h : c.allocBuffer = some k) :
    k < brokerMaxBuffers ∧ (c.buffers k).active = false := by
  have hmem := List.mem_of_find?_eq_some h
  have hprop := List.find?_some h
  exact ⟨List.mem_range.mp hmem, by simpa using hprop⟩

namespace Broker

variable {s s' : Broker} {i j k t : Nat} {e : Entry}

theorem findClient_some {c : Nat} (h : s.findClient c = some j) : j < s.count ∧ (s.clients j).connection = c := by
  have hmem := List.mem_of_find?_eq_some h
  have hprop := List.find?_some h
  exact ⟨List.mem_range.mp (List.mem_reverse.mp hmem), by simpa using hprop⟩

theorem findClient_none {c : Nat} (h : s.findClient c = none) (hi : i < s.count) : (s.clients i).connection ≠ c := by
  have hall := List.find?_eq_none.mp h i (List.mem_reverse.mpr (List.mem_range.mpr hi))
  simpa using hall

variable {c : BrokerClient} {record : Record}

theorem bindSlot_some {fd : Option Nat} {d : Nat}
    (h : bindSlot c record fd = some (k, d)) :
    c.findBuffer record.buffer = none ∧ k < brokerMaxBuffers ∧ (c.buffers k).active = false := by
  rw [bindSlot] at h
  split at h
  case isTrue => cases h
  case isFalse hchecks =>
    simp only [Option.bind_eq_some_iff, Option.map_eq_some_iff, Prod.mk.injEq] at h
    obtain ⟨k', halloc, d', -, rfl, rfl⟩ := h
    simp only [not_or, ne_eq, Decidable.not_not] at hchecks
    exact ⟨hchecks.2.2.2, BrokerClient.allocBuffer_some halloc⟩

theorem prepareRecord_some (h : prepareRecord c record = some (k, e)) :
    c.findBuffer record.buffer = some k ∧ e.mark = (c.buffers k).mark ∧ e.record.buffer = record.buffer ∧
      e.record.connection = record.connection ∧ e.record.opcode = record.opcode := by
  rw [prepareRecord] at h
  cases hfind : c.findBuffer record.buffer with
  | none =>
    rw [hfind] at h
    cases h
  | some k' =>
    rw [hfind] at h
    dsimp only at h
    split at h
    · cases h
    · cases h
      exact ⟨rfl, rfl, rfl, rfl, rfl⟩

theorem aboutBinding_answer {r : Record} {g status m : Nat}
    (h : (⟨r.answer g status, m⟩ : Entry).aboutBinding = true) : (⟨r, m⟩ : Entry).aboutBinding = true := by
  rw [Record.answer] at h
  split at h
  · revert h
    simp [Entry.aboutBinding, opError, opBind, opUnbind, opBound, opUnbound]
  split at h
  case isTrue hop => simp [Entry.aboutBinding, hop]
  split at h
  case isTrue =>
    revert h
    simp [Entry.aboutBinding, opRelease, opBind, opUnbind, opBound, opUnbound]
  split at h
  case isTrue hop => simp [Entry.aboutBinding, hop]
  revert h
  simp [Entry.aboutBinding, opError, opBind, opUnbind, opBound, opUnbound]

theorem answer_connection (r : Record) (g status : Nat) :
    (r.answer g status).connection = r.connection ∧ (r.answer g status).buffer = r.buffer := by
  rw [Record.answer]
  split
  · exact ⟨rfl, rfl⟩
  split
  · exact ⟨rfl, rfl⟩
  split
  · exact ⟨rfl, rfl⟩
  split <;> exact ⟨rfl, rfl⟩

theorem closing_about (h : e.closing = true) : e.aboutBinding = true := by
  simp only [Entry.closing, Bool.or_eq_true, Bool.and_eq_true, decide_eq_true_eq] at h
  simp only [Entry.aboutBinding, Bool.or_eq_true, decide_eq_true_eq]
  rcases h with h | ⟨h, -⟩
  · exact .inr h
  · exact .inl (.inr h)

/-! ## The invariant -/

/-- The buffer is in use, and is from an import whose handle was not closed. -/
structure Slot (s : Broker) (i k : Nat) (m : Import) : Prop where
  client : i < s.count
  index : k < brokerMaxBuffers
  imported : s.imports[((s.clients i).buffers k).mark]? = some m
  owner : m.client = i
  id : m.id = ((s.clients i).buffers k).id
  handle : m.handle = ((s.clients i).buffers k).gemHandle ∧ m.handle ≠ 0
  bound : s.bound ((s.clients i).buffers k).mark = true
  unclosed : s.closes ((s.clients i).buffers k).mark = 0

structure About (s : Broker) (e : Entry) (m : Import) : Prop where
  imported : s.imports[e.mark]? = some m
  bound : s.bound e.mark = true
  id : m.id = e.record.buffer
  client : m.client < s.count
  connection : (s.clients m.client).connection = e.record.connection

structure HandleInv (s : Broker) : Prop where
  connections : ∀ i < s.count, ∀ j < s.count, (s.clients i).connection = (s.clients j).connection → i = j
  slots : ∀ i k, ((s.clients i).buffers k).active = true → ∃ m, s.Slot i k m
  ids : ∀ i k l, ((s.clients i).buffers k).active = true → ((s.clients i).buffers l).active = true →
    ((s.clients i).buffers k).id = ((s.clients i).buffers l).id → k = l
  opened : ∀ t m, s.imports[t]? = some m → s.closes t = 0 → ∃ p ∈ s.handles, p.1 = m.handle
  owned : ∀ t u m n, s.imports[t]? = some m → s.imports[u]? = some n → s.closes t = 0 → s.closes u = 0 →
    m.handle = n.handle → t = u
  beyond : ∀ t, s.imports.length ≤ t → s.bound t = false ∧ s.closes t = 0
  flying : ∀ e ∈ s.flight, e.aboutBinding = true → ∃ m, s.About e m
  named : ∀ e ∈ s.flight, e.aboutBinding = true → ∀ i k, ((s.clients i).buffers k).active = true →
    (s.clients i).connection = e.record.connection → ((s.clients i).buffers k).id = e.record.buffer →
      ((s.clients i).buffers k).mark = e.mark
  held : ∀ t, s.bound t = true → s.settled t = false →
    ∃ i k, ((s.clients i).buffers k).active = true ∧ ((s.clients i).buffers k).mark = t
  settled : ∀ t, s.settled t = true → s.bound t = true ∧ s.closes t = 1
  published : ∀ t, s.published t = true → s.bound t = true

namespace HandleInv

theorem unclosed (h : HandleInv s) (hb : s.bound t = true) (hs : s.settled t = false) : s.closes t = 0 := by
  obtain ⟨i, k, hactive, rfl⟩ := h.held t hb hs
  obtain ⟨m, hm⟩ := h.slots i k hactive
  exact hm.unclosed

theorem kept (h : HandleInv s) (t : Nat) : s.Kept t := by
  intro hp
  have hb := h.published t hp
  refine ⟨fun hs => ⟨h.unclosed hb hs, ?_⟩, fun hs => (h.settled t hs).2⟩
  have hlt : t < s.imports.length := by
    refine Nat.lt_of_not_le fun hle => ?_
    rw [(h.beyond t hle).1] at hb
    cases hb
  obtain ⟨p, hp, hpm⟩ := h.opened t _ (List.getElem?_eq_getElem hlt) (h.unclosed hb hs)
  exact ⟨_, p, List.getElem?_eq_getElem hlt, hp, hpm⟩

end HandleInv

structure SameTables (s s' : Broker) : Prop where
  count : s'.count = s.count
  connection : ∀ i, (s'.clients i).connection = (s.clients i).connection
  active : ∀ i k, ((s'.clients i).buffers k).active = ((s.clients i).buffers k).active
  id : ∀ i k, ((s'.clients i).buffers k).id = ((s.clients i).buffers k).id
  gemHandle : ∀ i k, ((s'.clients i).buffers k).gemHandle = ((s.clients i).buffers k).gemHandle
  mark : ∀ i k, ((s'.clients i).buffers k).mark = ((s.clients i).buffers k).mark
  handles : s'.handles = s.handles
  imports : s'.imports = s.imports
  bound : s'.bound = s.bound
  closes : s'.closes = s.closes
  settled : s'.settled = s.settled

variable {m : Import}

theorem Slot.same (hs : SameTables s s') (h : s.Slot i k m) : s'.Slot i k m := by
  refine ⟨?_, h.index, ?_, h.owner, ?_, ?_, ?_, ?_⟩
  · rw [hs.count]
    exact h.client
  · rw [hs.imports, hs.mark]
    exact h.imported
  · rw [hs.id]
    exact h.id
  · rw [hs.gemHandle]
    exact h.handle
  · rw [hs.bound, hs.mark]
    exact h.bound
  · rw [hs.closes, hs.mark]
    exact h.unclosed

theorem About.same (hs : SameTables s s') (h : s.About e m) : s'.About e m := by
  refine ⟨?_, ?_, h.id, ?_, ?_⟩
  · rw [hs.imports]
    exact h.imported
  · rw [hs.bound]
    exact h.bound
  · rw [hs.count]
    exact h.client
  · rw [hs.connection]
    exact h.connection

theorem HandleInv.fly (h : HandleInv s) (hs : SameTables s s')
    (hpublished : ∀ t, s'.published t = true → s.bound t = true)
    (hflying : ∀ e ∈ s'.flight, e.aboutBinding = true → ∃ m, s.About e m)
    (hnamed : ∀ e ∈ s'.flight, e.aboutBinding = true → ∀ i k, ((s.clients i).buffers k).active = true →
      (s.clients i).connection = e.record.connection → ((s.clients i).buffers k).id = e.record.buffer →
        ((s.clients i).buffers k).mark = e.mark) : HandleInv s' := by
  refine ⟨?_, fun i k ha => ?_, fun i k l hk hl hid => ?_, ?_, ?_, ?_, fun e he hab => ?_,
    fun e he hab i k ha hc hid => ?_, fun t hb hst => ?_, ?_, fun t hp => ?_⟩
  · rw [hs.count]
    intro i hi j hj hij
    rw [hs.connection, hs.connection] at hij
    exact h.connections i hi j hj hij
  · rw [hs.active] at ha
    obtain ⟨m, hm⟩ := h.slots i k ha
    exact ⟨m, hm.same hs⟩
  · rw [hs.active] at hk hl
    rw [hs.id, hs.id] at hid
    exact h.ids i k l hk hl hid
  · rw [hs.imports, hs.closes, hs.handles]
    exact h.opened
  · rw [hs.imports, hs.closes]
    exact h.owned
  · rw [hs.imports, hs.bound, hs.closes]
    exact h.beyond
  · obtain ⟨m, hm⟩ := hflying e he hab
    exact ⟨m, hm.same hs⟩
  · rw [hs.active] at ha
    rw [hs.connection] at hc
    rw [hs.id] at hid
    rw [hs.mark]
    exact hnamed e he hab i k ha hc hid
  · rw [hs.bound] at hb
    rw [hs.settled] at hst
    obtain ⟨i, k, ha, hm⟩ := h.held t hb hst
    exact ⟨i, k, by rw [hs.active]; exact ha, by rw [hs.mark]; exact hm⟩
  · rw [hs.settled, hs.bound, hs.closes]
    exact h.settled
  · rw [hs.bound]
    exact hpublished t hp

theorem HandleInv.same (h : HandleInv s) (hs : SameTables s s') (hpublished : s'.published = s.published)
    (hflight : ∀ e ∈ s'.flight, e ∈ s.flight) : HandleInv s' :=
  h.fly hs (by rw [hpublished]; exact h.published) (fun e he => h.flying e (hflight e he))
    fun e he => h.named e (hflight e he)

/-! ## Operations -/

theorem setClient_buffers (hc : c.buffers = (s.clients i).buffers) (j : Nat) :
    ((s.setClient i c).clients j).buffers = (s.clients j).buffers := by
  by_cases hj : j = i
  · subst hj
    simp [setClient, hc]
  · simp [setClient, hj]

theorem setClient_connection (hc : c.connection = (s.clients i).connection) (j : Nat) :
    ((s.setClient i c).clients j).connection = (s.clients j).connection := by
  by_cases hj : j = i
  · subst hj
    simp [setClient, hc]
  · simp [setClient, hj]

theorem SameTables.setClient (hb : c.buffers = (s.clients i).buffers)
    (hc : c.connection = (s.clients i).connection) : SameTables s (s.setClient i c) :=
  ⟨rfl, setClient_connection hc, fun j k => by rw [setClient_buffers hb], fun j k => by rw [setClient_buffers hb],
    fun j k => by rw [setClient_buffers hb], fun j k => by rw [setClient_buffers hb], rfl, rfl, rfl, rfl, rfl⟩

theorem SameTables.refl (s : Broker) : SameTables s s :=
  ⟨rfl, fun _ => rfl, fun _ _ => rfl, fun _ _ => rfl, fun _ _ => rfl, fun _ _ => rfl, rfl, rfl, rfl, rfl, rfl⟩

theorem setBuffer_eq (b : BrokerBuffer) (j l : Nat) :
    ((s.setBuffer i k b).clients j).buffers l = if j = i ∧ l = k then b else (s.clients j).buffers l := by
  by_cases hj : j = i
  · subst hj
    by_cases hl : l = k
    · subst hl
      simp [setBuffer, setClient]
    · simp [setBuffer, setClient, hl]
  · simp [setBuffer, setClient, hj]

theorem setBuffer_connection (b : BrokerBuffer) (j : Nat) :
    ((s.setBuffer i k b).clients j).connection = (s.clients j).connection := by
  refine setClient_connection (c := { s.clients i with buffers := update (s.clients i).buffers k b }) ?_ j
  rfl

theorem SameTables.setPending (s : Broker) (i k : Nat) : SameTables s (s.setPending i k) := by
  refine ⟨rfl, setBuffer_connection _, fun j l => ?_, fun j l => ?_, fun j l => ?_, fun j l => ?_, rfl, rfl, rfl, rfl,
    rfl⟩ <;>
  · rw [Broker.setPending, setBuffer_eq]
    split
    case isTrue h =>
      obtain ⟨rfl, rfl⟩ := h
      rfl
    case isFalse => rfl

theorem HandleInv.addImport (h : HandleInv s) (hfresh : ∀ p ∈ s.handles, p.1 ≠ m.handle) :
    HandleInv (s.addImport m) := by
  have hnot : m.handle ∉ s.handles.map Prod.fst := by
    intro hmem
    obtain ⟨p, hp, heq⟩ := List.mem_map.mp hmem
    exact hfresh p hp heq
  have hhandles : (s.addImport m).handles = (m.handle, m.dmaBuf) :: s.handles := if_neg hnot
  have hold : ∀ {t : Nat} {n}, s.imports[t]? = some n → (s.addImport m).imports[t]? = some n := by
    intro t n hn
    show (s.imports ++ [m])[t]? = some n
    rw [List.getElem?_append_left (List.getElem?_eq_some_iff.mp hn).1]
    exact hn
  -- An import is an old one or the new one.
  have hcases : ∀ {t : Nat} {n}, (s.addImport m).imports[t]? = some n → s.imports[t]? = some n ∨
      t = s.imports.length ∧ n = m := by
    intro t n hn
    rcases Nat.lt_trichotomy t s.imports.length with hlt | rfl | hgt
    · rw [show (s.addImport m).imports = s.imports ++ [m] from rfl, List.getElem?_append_left hlt] at hn
      exact .inl hn
    · rw [show (s.addImport m).imports = s.imports ++ [m] from rfl, List.getElem?_concat_length] at hn
      exact .inr ⟨rfl, (Option.some.inj hn).symm⟩
    · rw [show (s.addImport m).imports = s.imports ++ [m] from rfl, List.getElem?_eq_none] at hn
      · cases hn
      · rw [List.length_append, List.length_singleton]
        omega
  refine { h with slots := fun i k ha => ?_, opened := fun t n hn hc => ?_, owned := ?_, beyond := fun t ht => ?_,
                  flying := fun e he hab => ?_ }
  · obtain ⟨n, hn⟩ := h.slots i k ha
    exact ⟨n, { hn with imported := hold hn.imported }⟩
  · rw [hhandles]
    rcases hcases hn with hn | ⟨-, rfl⟩
    · obtain ⟨p, hp, hpn⟩ := h.opened t n hn hc
      exact ⟨p, List.mem_cons_of_mem _ hp, hpn⟩
    · exact ⟨_, List.mem_cons_self, rfl⟩
  · intro t u n o hn ho ht hu heq
    rcases hcases hn with hn' | ⟨ht', hnm⟩ <;> rcases hcases ho with ho' | ⟨hu', hom⟩
    · exact h.owned t u n o hn' ho' ht hu heq
    · obtain ⟨p, hp, hpn⟩ := h.opened t n hn' ht
      exact absurd (hpn.trans (heq.trans (congrArg Import.handle hom))) (hfresh p hp)
    · obtain ⟨p, hp, hpo⟩ := h.opened u o ho' hu
      exact absurd (hpo.trans (heq.symm.trans (congrArg Import.handle hnm))) (hfresh p hp)
    · rw [ht', hu']
  · have hlen : (s.addImport m).imports.length = s.imports.length + 1 := by simp [Broker.addImport]
    exact h.beyond t (by omega)
  · obtain ⟨n, hn⟩ := h.flying e he hab
    exact ⟨n, { hn with imported := hold hn.imported }⟩

theorem HandleInv.gemClose (h : HandleInv s) (hm : s.imports[t]? = some m) (hb : s.bound t = false)
    (hc : s.closes t = 0) : HandleInv (s.gemClose m.handle t) := by
  have hne : ∀ {u}, s.bound u = true → u ≠ t := by
    rintro u hu rfl
    rw [hb] at hu
    cases hu
  have hcloses : ∀ {u}, u ≠ t → (s.gemClose m.handle t).closes u = s.closes u :=
    fun hu => update_of_ne hu _ _
  have hzero : ∀ {u}, (s.gemClose m.handle t).closes u = 0 → u ≠ t ∧ s.closes u = 0 := by
    intro u hu
    by_cases hut : u = t
    · subst hut
      simp [Broker.gemClose] at hu
    · exact ⟨hut, by rwa [hcloses hut] at hu⟩
  have hlt : t < s.imports.length := (List.getElem?_eq_some_iff.mp hm).1
  refine { h with slots := fun i k ha => ?_, opened := fun u n hn hu => ?_, owned := ?_, beyond := fun u hu => ?_,
                  flying := fun e he hab => ?_, settled := fun u hu => ?_ }
  · obtain ⟨n, hn⟩ := h.slots i k ha
    exact ⟨n, { hn with unclosed := (hcloses (hne hn.bound)).trans hn.unclosed }⟩
  · obtain ⟨hut, hu⟩ := hzero hu
    obtain ⟨p, hp, hpn⟩ := h.opened u n hn hu
    refine ⟨p, List.mem_filter.mpr ⟨hp, ?_⟩, hpn⟩
    have : p.1 ≠ m.handle := fun heq => hut (h.owned u t n m hn hm hu hc (hpn.symm.trans heq))
    simpa using this
  · intro u v n o hn ho hu hv heq
    exact h.owned u v n o hn ho (hzero hu).2 (hzero hv).2 heq
  · have hut : u ≠ t := by
      rintro rfl
      exact absurd hlt (Nat.not_lt.mpr hu)
    exact ⟨(h.beyond u hu).1, (hcloses hut).trans (h.beyond u hu).2⟩
  · obtain ⟨n, hn⟩ := h.flying e he hab
    exact ⟨n, { hn with }⟩
  · obtain ⟨hbound, hone⟩ := h.settled u hu
    exact ⟨hbound, (hcloses (hne hbound)).trans hone⟩

theorem HandleInv.fillBuffer (h : HandleInv s) {fd : Option Nat} {d handle resource : Nat}
    (hi : i < s.count) (hslot : bindSlot (s.clients i) record fd = some (k, d)) (hm : s.imports[t]? = some m)
    (hclient : m.client = i) (hid : m.id = record.buffer) (hhandle : m.handle = handle ∧ m.handle ≠ 0)
    (hb : s.bound t = false) (hc : s.closes t = 0)
    (hquiet : ∀ e ∈ s.flight, e.aboutBinding = true → e.record.connection = (s.clients i).connection →
      e.record.buffer ≠ record.buffer) : HandleInv (s.fillBuffer i k record handle resource t) := by
  obtain ⟨hnone, hk, hfree⟩ := bindSlot_some hslot
  have hbuffer : ∀ j l, ((s.fillBuffer i k record handle resource t).clients j).buffers l =
      if j = i ∧ l = k then ⟨true, false, record.buffer, handle, resource, record.xid, record.width, record.height, t⟩
      else (s.clients j).buffers l := fun j l => setBuffer_eq _ j l
  have hconn : ∀ j, ((s.fillBuffer i k record handle resource t).clients j).connection = (s.clients j).connection :=
    setBuffer_connection _
  have hbound : ∀ {u}, s.bound u = true → (s.fillBuffer i k record handle resource t).bound u = true := by
    intro u hu
    by_cases hut : u = t
    · rw [hut]
      exact update_self _ _ _
    · exact (update_of_ne hut _ _).trans hu
  have hother : ∀ {u}, (s.fillBuffer i k record handle resource t).bound u = true → u ≠ t → s.bound u = true :=
    fun hu hut => (update_of_ne hut _ _).symm.trans hu
  -- No buffer of the client in use has the number.
  have hnew : ∀ {l}, ((s.clients i).buffers l).active = true → ((s.clients i).buffers l).id ≠ record.buffer := by
    intro l hl
    obtain ⟨n, hn⟩ := h.slots i l hl
    exact BrokerClient.findBuffer_none hnone hn.index hl
  have hslots : ∀ j l, ((s.clients j).buffers l).active = true → ¬(j = i ∧ l = k) := by
    rintro j l hl ⟨rfl, rfl⟩
    rw [hfree] at hl
    cases hl
  refine ⟨?_, fun j l ha => ?_, fun j l l' ha ha' heq => ?_, h.opened, h.owned, fun u hu => ?_, fun e he hab => ?_,
    fun e he hab j l ha hcj hidj => ?_, fun u hu hst => ?_, fun u hu => ?_, fun u hu => hbound (h.published u hu)⟩
  · intro j hj j' hj' heq
    rw [hconn, hconn] at heq
    exact h.connections j hj j' hj' heq
  · rw [hbuffer] at ha
    split at ha
    case isTrue hjl =>
      obtain ⟨rfl, rfl⟩ := hjl
      have hb' := hbuffer j l
      rw [if_pos ⟨rfl, rfl⟩] at hb'
      refine ⟨m, hi, hk, ?_, hclient, ?_, ?_, ?_, ?_⟩ <;> rw [hb']
      · exact hm
      · exact hid
      · exact hhandle
      · exact update_self _ _ _
      · exact hc
    case isFalse hjl =>
      obtain ⟨n, hn⟩ := h.slots j l ha
      have hb' := hbuffer j l
      rw [if_neg hjl] at hb'
      refine ⟨n, hn.client, hn.index, ?_, hn.owner, ?_, ?_, ?_, ?_⟩ <;> rw [hb']
      · exact hn.imported
      · exact hn.id
      · exact hn.handle
      · exact hbound hn.bound
      · exact hn.unclosed
  · rw [hbuffer] at ha ha' heq
    rw [hbuffer] at heq
    by_cases hjl : j = i ∧ l = k
    · by_cases hjl' : j = i ∧ l' = k
      · rw [hjl.2, hjl'.2]
      · obtain ⟨rfl, rfl⟩ := hjl
        rw [if_neg hjl'] at ha'
        rw [if_pos ⟨rfl, rfl⟩, if_neg hjl'] at heq
        exact absurd heq.symm (hnew ha')
    · by_cases hjl' : j = i ∧ l' = k
      · obtain ⟨rfl, rfl⟩ := hjl'
        rw [if_neg hjl] at ha
        rw [if_neg hjl, if_pos ⟨rfl, rfl⟩] at heq
        exact absurd heq (hnew ha)
      · rw [if_neg hjl] at ha
        rw [if_neg hjl'] at ha'
        rw [if_neg hjl, if_neg hjl'] at heq
        exact h.ids j l l' ha ha' heq
  · have hut : u ≠ t := by
      rintro rfl
      exact absurd (List.getElem?_eq_some_iff.mp hm).1 (Nat.not_lt.mpr hu)
    exact ⟨(update_of_ne hut _ _).trans (h.beyond u hu).1, (h.beyond u hu).2⟩
  · obtain ⟨n, hn⟩ := h.flying e he hab
    exact ⟨n, hn.imported, hbound hn.bound, hn.id, hn.client, (hconn _).trans hn.connection⟩
  · rw [hconn] at hcj
    rw [hbuffer] at ha hidj ⊢
    by_cases hjl : j = i ∧ l = k
    · rw [if_pos hjl] at hidj
      rw [hjl.1] at hcj
      exact absurd hidj.symm (hquiet e he hab hcj.symm)
    · rw [if_neg hjl] at ha hidj ⊢
      exact h.named e he hab j l ha hcj hidj
  · by_cases hut : u = t
    · refine ⟨i, k, ?_, ?_⟩ <;> rw [hbuffer, if_pos ⟨rfl, rfl⟩]
      exact hut.symm
    · obtain ⟨j, l, ha, hmark⟩ := h.held u (hother hu hut) hst
      refine ⟨j, l, ?_, ?_⟩ <;> rw [hbuffer, if_neg (hslots j l ha)]
      · exact ha
      · exact hmark
  · exact ⟨hbound (h.settled u hu).1, (h.settled u hu).2⟩

theorem HandleInv.addClient (h : HandleInv s) {connection : Nat}
    (hempty : ∀ k, ((s.clients s.count).buffers k).active = false)
    (hfresh : ∀ i < s.count, (s.clients i).connection ≠ connection) :
    HandleInv { s.setClient s.count ⟨connection, fun _ => .empty, none, false⟩ with count := s.count + 1 } := by
  have hself : (s.setClient s.count ⟨connection, fun _ => .empty, none, false⟩).clients s.count =
      ⟨connection, fun _ => .empty, none, false⟩ := update_self _ _ _
  have hother : ∀ {j}, j ≠ s.count →
      (s.setClient s.count ⟨connection, fun _ => .empty, none, false⟩).clients j = s.clients j :=
    fun hj => update_of_ne hj _ _
  -- The new client has no buffer in use.
  have hactive : ∀ {j l}, (((s.setClient s.count ⟨connection, fun _ => .empty, none, false⟩).clients j).buffers
      l).active = true → j ≠ s.count := by
    rintro j l ha rfl
    rw [hself] at ha
    cases ha
  refine ⟨?_, fun j l ha => ?_, fun j l l' ha ha' heq => ?_, h.opened, h.owned, h.beyond, fun e he hab => ?_,
    fun e he hab j l ha hc hid => ?_, fun t hb hs => ?_, h.settled, h.published⟩
  · intro i hi j hj heq
    dsimp only at hi hj heq
    by_cases hic : i = s.count <;> by_cases hjc : j = s.count
    · rw [hic, hjc]
    · rw [hic, hself, hother hjc] at heq
      exact absurd heq.symm (hfresh j (by omega))
    · rw [hjc, hself, hother hic] at heq
      exact absurd heq (hfresh i (by omega))
    · rw [hother hic, hother hjc] at heq
      exact h.connections i (by omega) j (by omega) heq
  · have hj := hactive ha
    dsimp only at ha
    rw [hother hj] at ha
    obtain ⟨m, hm⟩ := h.slots j l ha
    refine ⟨m, Nat.lt_succ_of_lt hm.client, hm.index, ?_, hm.owner, ?_, ?_, ?_, ?_⟩ <;> dsimp only <;>
      rw [hother hj]
    · exact hm.imported
    · exact hm.id
    · exact hm.handle
    · exact hm.bound
    · exact hm.unclosed
  · have hj := hactive ha
    dsimp only at ha ha' heq
    rw [hother hj] at ha ha' heq
    exact h.ids j l l' ha ha' heq
  · obtain ⟨m, hm⟩ := h.flying e he hab
    refine ⟨m, hm.imported, hm.bound, hm.id, Nat.lt_succ_of_lt hm.client, ?_⟩
    dsimp only
    rw [hother (Nat.ne_of_lt hm.client)]
    exact hm.connection
  · have hj := hactive ha
    dsimp only at ha hc hid ⊢
    rw [hother hj] at ha hc hid ⊢
    exact h.named e he hab j l ha hc hid
  · obtain ⟨j, l, ha, hm⟩ := h.held t hb hs
    have hj : j ≠ s.count := by
      rintro rfl
      rw [hempty l] at ha
      cases ha
    refine ⟨j, l, ?_, ?_⟩ <;> dsimp only <;> rw [hother hj]
    · exact ha
    · exact hm

/-! ## An answer -/

theorem HandleInv.closeSlot (h : HandleInv s) (hactive : ((s.clients i).buffers k).active = true) :
    HandleInv { s.closeGem i k with
      settled := update s.settled ((s.clients i).buffers k).mark true } := by
  obtain ⟨m, hm⟩ := h.slots i k hactive
  generalize ht : ((s.clients i).buffers k).mark = t
  generalize hh : ((s.clients i).buffers k).gemHandle = handle
  have himported := hm.imported
  have hunclosed := hm.unclosed
  have hbound := hm.bound
  have hhandle := hm.handle
  rw [ht] at himported hunclosed hbound
  rw [hh] at hhandle
  have hnz : handle ≠ 0 := hhandle.1 ▸ hhandle.2
  have hclose : s.closeGem i k = (s.gemClose handle t).setBuffer i k .empty := by
    rw [closeGem, hh, if_neg hnz, ht]
  rw [hclose]
  have hbuffer : ∀ j l, (((s.gemClose handle t).setBuffer i k .empty).clients j).buffers l =
      if j = i ∧ l = k then .empty else (s.clients j).buffers l := fun j l => setBuffer_eq _ j l
  have hconn : ∀ j, (((s.gemClose handle t).setBuffer i k .empty).clients j).connection = (s.clients j).connection :=
    setBuffer_connection _
  -- A buffer still in use is another one, from another import.
  have hrest : ∀ {j l}, (((((s.gemClose handle t).setBuffer i k .empty).clients j).buffers l).active = true) →
      ¬(j = i ∧ l = k) ∧ ((s.clients j).buffers l).active = true ∧ ((s.clients j).buffers l).mark ≠ t := by
    intro j l ha
    rw [hbuffer] at ha
    split at ha
    case isTrue => cases ha
    case isFalse hjl =>
      refine ⟨hjl, ha, fun hmark => ?_⟩
      obtain ⟨n, hn⟩ := h.slots j l ha
      have hnm : n = m := by
        have himp := hn.imported
        rw [hmark, himported] at himp
        exact (Option.some.inj himp).symm
      have hji : j = i := by rw [← hn.owner, hnm, hm.owner]
      subst hji
      refine hjl ⟨rfl, h.ids j l k ha hactive ?_⟩
      rw [← hn.id, hnm, hm.id]
  have hcloses : ∀ {u}, u ≠ t → ((s.gemClose handle t).setBuffer i k .empty).closes u = s.closes u :=
    fun hu => update_of_ne hu _ _
  have hone : ((s.gemClose handle t).setBuffer i k .empty).closes t = 1 := by
    show update s.closes t (s.closes t + 1) t = 1
    rw [update_self, hunclosed]
  have hzero : ∀ {u}, ((s.gemClose handle t).setBuffer i k .empty).closes u = 0 → u ≠ t ∧ s.closes u = 0 := by
    intro u hu
    by_cases hut : u = t
    · rw [hut, hone] at hu
      cases hu
    · exact ⟨hut, by rwa [hcloses hut] at hu⟩
  have hlt : t < s.imports.length := (List.getElem?_eq_some_iff.mp himported).1
  refine ⟨?_, fun j l ha => ?_, fun j l l' ha ha' heq => ?_, fun u n hn hu => ?_, ?_, fun u hu => ?_,
    fun e he hab => ?_, fun e he hab j l ha hc hid => ?_, fun u hu hst => ?_, fun u hu => ?_, h.published⟩
  · intro j hj j' hj' heq
    dsimp only at heq
    rw [hconn, hconn] at heq
    exact h.connections j hj j' hj' heq
  · obtain ⟨hjl, ha, hmark⟩ := hrest ha
    obtain ⟨n, hn⟩ := h.slots j l ha
    refine ⟨n, hn.client, hn.index, ?_, hn.owner, ?_, ?_, ?_, ?_⟩ <;> dsimp only <;> rw [hbuffer, if_neg hjl]
    · exact hn.imported
    · exact hn.id
    · exact hn.handle
    · exact hn.bound
    · exact (hcloses hmark).trans hn.unclosed
  · obtain ⟨hjl, ha, -⟩ := hrest ha
    obtain ⟨hjl', ha', -⟩ := hrest ha'
    dsimp only at heq
    rw [hbuffer, hbuffer, if_neg hjl, if_neg hjl'] at heq
    exact h.ids j l l' ha ha' heq
  · obtain ⟨hut, hu⟩ := hzero hu
    obtain ⟨p, hp, hpn⟩ := h.opened u n hn hu
    refine ⟨p, List.mem_filter.mpr ⟨hp, ?_⟩, hpn⟩
    have : p.1 ≠ handle := fun heq =>
      hut (h.owned u t n m hn himported hu hunclosed (hpn.symm.trans (heq.trans hhandle.1.symm)))
    simpa using this
  · intro u v n o hn ho hu hv heq
    exact h.owned u v n o hn ho (hzero hu).2 (hzero hv).2 heq
  · have hut : u ≠ t := by
      rintro rfl
      exact absurd hlt (Nat.not_lt.mpr hu)
    exact ⟨(h.beyond u hu).1, (hcloses hut).trans (h.beyond u hu).2⟩
  · obtain ⟨n, hn⟩ := h.flying e he hab
    exact ⟨n, hn.imported, hn.bound, hn.id, hn.client, (hconn _).trans hn.connection⟩
  · obtain ⟨hjl, ha, -⟩ := hrest ha
    dsimp only at hc hid ⊢
    rw [hconn] at hc
    rw [hbuffer, if_neg hjl] at hid ⊢
    exact h.named e he hab j l ha hc hid
  · have hut : u ≠ t := by
      rintro rfl
      simp at hst
    have hst' : s.settled u = false := (update_of_ne hut _ _).symm.trans hst
    obtain ⟨j, l, ha, hmark⟩ := h.held u hu hst'
    have hjl : ¬(j = i ∧ l = k) := by
      rintro ⟨rfl, rfl⟩
      exact hut (hmark.symm.trans ht)
    refine ⟨j, l, ?_, ?_⟩ <;> dsimp only <;> rw [hbuffer, if_neg hjl]
    · exact ha
    · exact hmark
  · by_cases hut : u = t
    · rw [hut]
      exact ⟨hbound, hone⟩
    · have hu' : s.settled u = true := (update_of_ne hut _ _).symm.trans hu
      exact ⟨(h.settled u hu').1, (hcloses hut).trans (h.settled u hu').2⟩

theorem HandleInv.process (h : HandleInv s) (he : e ∈ s.flight) (hj : j < s.count)
    (hc : (s.clients j).connection = e.record.connection) : HandleInv (s.process j e) := by
  rw [Broker.process]
  split
  case isFalse => exact h
  case isTrue hclosing =>
    have hab := closing_about hclosing
    obtain ⟨m, hm⟩ := h.flying e he hab
    have hmj : m.client = j := h.connections _ hm.client _ hj (hm.connection.trans hc.symm)
    cases hfind : (s.clients j).findBuffer e.record.buffer with
    | some k =>
      obtain ⟨-, hactive, hid⟩ := BrokerClient.findBuffer_some hfind
      have hmark := h.named e he hab j k hactive hc hid
      have hset := h.closeSlot hactive
      rw [hmark] at hset
      have hsettled : (s.closeGem j k).settled = s.settled := by
        rw [closeGem]
        split <;> rfl
      dsimp only
      rw [arrive, if_pos hclosing, hsettled]
      exact hset
    | none =>
      -- Without a buffer the import was settled before.
      have hdone : s.settled e.mark = true := by
        cases hs : s.settled e.mark with
        | true => rfl
        | false =>
          obtain ⟨i, k, ha, hmark⟩ := h.held e.mark hm.bound hs
          obtain ⟨n, hn⟩ := h.slots i k ha
          have hnm : n = m := by
            have himp := hn.imported
            rw [hmark, hm.imported] at himp
            exact (Option.some.inj himp).symm
          have hij : i = j := by rw [← hn.owner, hnm, hmj]
          subst hij
          refine absurd ?_ (BrokerClient.findBuffer_none hfind hn.index ha)
          rw [← hn.id, hnm, hm.id]
      dsimp only
      rw [arrive, if_pos hclosing]
      have hsame : update s.settled e.mark true = s.settled := by
        rw [← hdone, Function.update_eq_self]
      rw [hsame]
      exact h

end Broker

end MoCoLinux
