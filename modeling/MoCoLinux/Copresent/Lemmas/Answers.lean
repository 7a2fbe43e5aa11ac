import MoCoLinux.Copresent.Lemmas.Requests

/-!
# `response_thread`, the host and the acceptor
-/

namespace MoCoLinux.Broker

open Function
open Copresent
open Threads (Prog)
open Threads.Prog (Safe)

variable {aim : Aim} {i j k : Nat} {s s' : Broker} {e : Entry} {ok : Broker → Broker → Prop}

/-! ## Steps that leave clients and imports alone -/

structure Quiet (s s' : Broker) : Prop where
  count : s'.count = s.count
  clients : s'.clients = s.clients
  writing : s'.writing = s.writing
  cleaning : s'.cleaning = s.cleaning
  handles : s'.handles = s.handles
  imports : s'.imports = s.imports
  bound : s'.bound = s.bound
  published : s'.published = s.published
  closes : s'.closes = s.closes
  settled : s'.settled = s.settled

namespace Quiet

theorem refl (s : Broker) : Quiet s s := ⟨rfl, rfl, rfl, rfl, rfl, rfl, rfl, rfl, rfl, rfl⟩

theorem tables (h : Quiet s s') : SameTables s s' :=
  ⟨h.count, fun _ => by rw [h.clients], fun _ _ => by rw [h.clients], fun _ _ => by rw [h.clients],
    fun _ _ => by rw [h.clients], fun _ _ => by rw [h.clients], h.handles, h.imports, h.bound, h.closes, h.settled⟩

theorem rely (h : Quiet s s') (i : Nat) : Rely aim i s s' where
  count := Nat.le_of_eq h.count.symm
  connection _ _ := by rw [h.clients]
  lock := by rw [h.clients]
  owned _ := by rw [h.clients]
  clears _ _ := by rw [h.clients]
  writing := by rw [h.writing]
  cleaning := by rw [h.cleaning]
  imports := h.imports ▸ List.prefix_rfl
  bound _ hb := by rwa [h.bound]
  mine _ _ _ _ _ := ⟨by rw [h.bound], fun _ => by rw [h.closes]⟩

theorem response (h : Quiet s s') (hhand : s'.hand = s.hand) : ResponseRely s s' :=
  ⟨Nat.le_of_eq h.count.symm, fun _ _ => by rw [h.clients], fun _ => by rw [h.clients], hhand⟩

theorem inv (h : Quiet s s') (hi : Inv aim s) (hhandles : aim = .handles → HandleInv s')
    (hlen : s'.flight.length ≤ s.flight.length) : Inv aim s' := by
  refine ⟨fun j hj => ?_, hhandles, fun haim => (hi.waits haim).same h.writing h.cleaning (fun j hl => ?_) hlen⟩
  · rw [h.count] at hj
    rw [h.clients]
    exact hi.empty j hj
  · rwa [h.clients] at hl

theorem inv_same (h : Quiet s s') (hi : Inv aim s) (hflight : s'.flight.Sublist s.flight) : Inv aim s' :=
  h.inv hi (fun haim => (hi.handles haim).same h.tables h.published fun _ he => hflight.subset he) hflight.length_le

end Quiet

/-! ## `response_thread` -/

structure Answering (e : Entry) (j : Nat) (s : Broker) : Prop where
  hand : s.hand = some e
  client : j < s.count
  connection : (s.clients j).connection = e.record.connection

theorem Answering.stable (h : Answering e j s) (hr : ResponseRely s s') : Answering e j s' :=
  ⟨hr.hand.trans h.hand, Nat.lt_of_lt_of_le h.client hr.count, (hr.connection j h.client).trans h.connection⟩

theorem mem_flight_of_hand (h : s.hand = some e) : e ∈ s.flight := by
  simp [flight, h]

theorem setLock_responseGuar (hi : Inv aim s) (hj : j < s.count) (hns : (s.clients j).stateLock ≠ some .client)
    {h : Option BrokerHolder} (hh : h ≠ some .client) : ResponseGuar aim s (s.setLock j h) := by
  have hothers : ∀ {i}, i ≠ j → (s.setLock j h).clients i = s.clients i := fun hij => update_of_ne hij _ _
  have hself : (s.setLock j h).clients j = { s.clients j with stateLock := h } := update_self _ _ _
  have htables : SameTables s (s.setLock j h) := .setClient rfl rfl
  have hlock : ∀ i, ((s.setLock j h).clients i).stateLock = some .client ↔
      (s.clients i).stateLock = some .client := by
    intro i
    by_cases hij : i = j
    · rw [hij, hself]
      exact ⟨fun h => absurd h hh, fun h => absurd h hns⟩
    · rw [hothers hij]
  have hbuffers : ∀ i, ((s.setLock j h).clients i).buffers = (s.clients i).buffers := setClient_buffers rfl
  refine ⟨⟨fun i hic => ?_, fun haim => ?_, fun haim => ?_⟩, fun i => ?_, rfl⟩
  · have hij : i ≠ j := by
      rintro rfl
      exact absurd hj (Nat.not_lt.mpr hic)
    rw [hothers hij]
    exact hi.empty i hic
  · exact (hi.handles haim).same htables rfl fun _ he => he
  · exact (hi.waits haim).same rfl rfl (fun i hl => (hlock i).mp hl) (Nat.le_refl _)
  · exact ⟨Nat.le_refl _, fun i _ => htables.connection i, hlock i, fun _ => hbuffers i, fun k _ => by rw [hbuffers],
      rfl, rfl, List.prefix_rfl, fun _ h => h, fun _ _ _ _ _ => ⟨rfl, fun _ => rfl⟩⟩

theorem process_cases (s : Broker) (j : Nat) (e : Entry) :
    ∃ s₁ f, s.process j e = { s₁ with settled := f } ∧
      (s₁ = s ∨ ∃ k, ((s.clients j).buffers k).active = true ∧
        s₁ = (s.gemClose ((s.clients j).buffers k).gemHandle ((s.clients j).buffers k).mark).setBuffer j k .empty) := by
  have harrive : ∀ s₁ : Broker, ∃ f, s₁.arrive e = { s₁ with settled := f } := by
    intro s₁
    rw [arrive]
    split
    · exact ⟨_, rfl⟩
    · exact ⟨s₁.settled, rfl⟩
  rw [process]
  split
  case isFalse => exact ⟨s, s.settled, rfl, .inl rfl⟩
  case isTrue =>
    cases hfind : (s.clients j).findBuffer e.record.buffer with
    | none =>
      obtain ⟨f, hf⟩ := harrive s
      exact ⟨s, f, hf, .inl rfl⟩
    | some k =>
      obtain ⟨f, hf⟩ := harrive (s.closeGem j k)
      refine ⟨_, f, hf, ?_⟩
      rw [closeGem]
      split
      · exact .inl rfl
      · exact .inr ⟨k, (BrokerClient.findBuffer_some hfind).2.1, rfl⟩

theorem process_guar (hi : Inv aim s) (ha : Answering e j s) (hlock : (s.clients j).stateLock = some .response) :
    ResponseGuar aim s (s.process j e) ∧ Answering e j (s.process j e) ∧
      ((s.process j e).clients j).stateLock = some .response := by
  have hhandles : aim = .handles → HandleInv (s.process j e) := fun haim =>
    (hi.handles haim).process (mem_flight_of_hand ha.hand) ha.client ha.connection
  obtain ⟨s₁, f, hprocess, hcases⟩ := process_cases s j e
  rw [hprocess] at hhandles ⊢
  rcases hcases with rfl | ⟨k, hactive, rfl⟩
  · have hwaits : aim = .waits → WaitInv { s₁ with settled := f } := fun haim =>
      (hi.waits haim).same rfl rfl (fun _ h => h) (Nat.le_refl _)
    exact ⟨⟨⟨hi.empty, hhandles, hwaits⟩, fun i => { Rely.refl s₁ with }, rfl⟩,
      { ha with }, hlock⟩
  generalize hh : ((s.clients j).buffers k).gemHandle = handle at *
  generalize ht : ((s.clients j).buffers k).mark = t at *
  have hothers : ∀ {i}, i ≠ j → ((s.gemClose handle t).setBuffer j k .empty).clients i = s.clients i :=
    fun hij => setBuffer_others _ hij
  have hlocks : ∀ i, (((s.gemClose handle t).setBuffer j k .empty).clients i).stateLock = (s.clients i).stateLock := by
    intro i
    by_cases hij : i = j
    · rw [hij]
      exact setBuffer_stateLock _
    · rw [hothers hij]
  have hconn : ∀ i, (((s.gemClose handle t).setBuffer j k .empty).clients i).connection = (s.clients i).connection :=
    setBuffer_connection _
  refine ⟨⟨⟨fun i hic => ?_, hhandles, fun haim => ?_⟩, fun i => ?_, rfl⟩,
    ⟨ha.hand, ha.client, (hconn j).trans ha.connection⟩, (hlocks j).trans hlock⟩
  · have hij : i ≠ j := by
      rintro rfl
      exact absurd ha.client (Nat.not_lt.mpr hic)
    rw [show ({ (s.gemClose handle t).setBuffer j k .empty with settled := f } : Broker).clients i = s.clients i from
      hothers hij]
    exact hi.empty i hic
  · exact (hi.waits haim).same rfl rfl (fun i h => (hlocks i).symm.trans h) (Nat.le_refl _)
  · refine ⟨Nat.le_refl _, fun i _ => hconn i, by rw [← hlocks i], fun hl => ?_, fun l hl => ?_, rfl, rfl,
      List.prefix_rfl, fun _ h => h, fun haim u m hm _ => ⟨rfl, fun hu => ?_⟩⟩
    · have hij : i ≠ j := by
        rintro rfl
        rw [hlock] at hl
        cases hl
      exact congrArg BrokerClient.buffers (hothers hij)
    · change (((s.gemClose handle t).setBuffer j k .empty).clients i).buffers l = (s.clients i).buffers l
      change ((((s.gemClose handle t).setBuffer j k .empty).clients i).buffers l).active = true at hl
      rw [setBuffer_eq] at hl ⊢
      split at hl
      case isTrue => cases hl
      case isFalse hil => rw [if_neg hil]; rfl
    · -- The import of a buffer in use is bound.
      have hut : u ≠ t := by
        rintro rfl
        obtain ⟨n, hn⟩ := (hi.handles haim).slots j k hactive
        have hbound := hn.bound
        rw [ht, hu] at hbound
        cases hbound
      exact update_of_ne hut _ _

theorem arrive_guar (hi : Inv aim s) (hnot : aim = .handles → e.closing = false) :
    ResponseGuar aim s (s.arrive e) := by
  rw [arrive]
  split
  case isFalse => exact ⟨hi, fun i => .refl s, rfl⟩
  case isTrue hclosing =>
    refine ⟨⟨hi.empty, fun haim => ?_, fun haim => ?_⟩, fun i => { Rely.refl s with }, rfl⟩
    · rw [hnot haim] at hclosing
      cases hclosing
    · exact (hi.waits haim).same rfl rfl (fun _ h => h) (Nat.le_refl _)

theorem responseTurn_safe :
    responseTurn.Safe (Inv aim) (contract aim .response) ok (fun _ _ => True) s := by
  have L := contract_lawful aim .response
  refine Safe.act Safe.always (fun s b s' _ hi hf _ => ?_) trivial
  cases hrx : s.rx with
  | nil =>
    rw [hrx] at hf
    cases hf
    exact ⟨L.still hi, fun _ _ _ => trivial⟩
  | cons e rest =>
    rw [hrx] at hf
    cases hf
    have hquiet : Quiet s { s with rx := rest, hand := some e } := { Quiet.refl s with }
    have hflight : ({ s with rx := rest, hand := some e } : Broker).flight.Sublist s.flight := by
      simp [flight, hrx]
    refine ⟨⟨hquiet.inv_same hi hflight, hquiet.rely, rfl⟩, ?_⟩
    -- The answer is done with.
    have hdone : ∀ s, (Prog.write fun s : Broker => { s with clientsLocked := false, hand := none }).Safe (Inv aim)
        (contract aim .response) ok (fun _ _ => True) s := by
      intro s
      refine Safe.writeLast Safe.always (fun s _ hi _ => ?_) trivial
      have hquiet : Quiet s { s with clientsLocked := false, hand := none } := { Quiet.refl s with }
      exact ⟨⟨hquiet.inv_same hi (by simp [flight]), hquiet.rely, rfl⟩, fun _ _ _ => trivial⟩
    refine Safe.await (P := fun s => s.hand = some e) (fun h hr _ => hr.hand.trans h) (fun s h hi _ _ => ?_) rfl
    have hquiet : Quiet s { s with clientsLocked := true } := { Quiet.refl s with }
    refine ⟨⟨hquiet.inv_same hi (List.Sublist.refl _), hquiet.rely, rfl⟩, ?_⟩
    refine Safe.read L (P := fun s => s.hand = some e) (fun h hr _ => hr.hand.trans h) (fun s h hi => ?_) h
    cases hfind : s.findClient e.record.connection with
    | none =>
      -- What is on its way about binding is about a client there is.
      have hnot : aim = .handles → e.closing = false := by
        intro haim
        refine Bool.eq_false_iff.mpr fun hclosing => ?_
        obtain ⟨m, hm⟩ := (hi.handles haim).flying e (mem_flight_of_hand h) (closing_about hclosing)
        exact findClient_none hfind hm.client hm.connection
      refine Safe.write Safe.always (fun s _ hi _ => ?_) trivial
      exact ⟨arrive_guar hi hnot, hdone _⟩
    | some j =>
      obtain ⟨hj, hconn⟩ := findClient_some hfind
      refine Safe.await (Safe.stays Answering.stable) (fun s ha hi hfree _ => ?_)
        ⟨h, hj, hconn⟩
      have hnone : (s.clients j).stateLock = none := by simpa using hfree
      have hself : ((s.setLock j (some .response)).clients j) = { s.clients j with stateLock := some .response } :=
        update_self _ _ _
      refine ⟨setLock_responseGuar hi ha.client (by rw [hnone]; exact fun h => (by cases h))
        (fun h => by cases h), ?_⟩
      have hlocked : ∀ {s s'}, (Answering e j s ∧ (s.clients j).stateLock = some .response) → ResponseRely s s' →
          Inv aim s' → Answering e j s' ∧ (s'.clients j).stateLock = some .response :=
        fun h hr _ => ⟨h.1.stable hr, (hr.lock j).mpr h.2⟩
      refine Safe.write (P := fun s => Answering e j s ∧ (s.clients j).stateLock = some .response) hlocked
        (fun s h hi _ => ?_) ⟨⟨ha.hand, ha.client, by rw [hself]; exact ha.connection⟩, by rw [hself]⟩
      obtain ⟨hguar, hthen⟩ := process_guar hi h.1 h.2
      refine ⟨hguar, Safe.write (P := fun s => Answering e j s ∧ (s.clients j).stateLock = some .response)
        hlocked (fun s h hi _ => ?_) hthen⟩
      exact ⟨setLock_responseGuar hi h.1.client (by rw [h.2]; exact fun h => (by cases h))
        (fun h => by cases h), hdone _⟩

/-! ## The host -/

theorem answer_guar {a : Entry} (hi : Inv aim s) (hserving : s.serving = some e)
    (habout : a.aboutBinding = true → e.aboutBinding = true) (hmark : e.mark = a.mark)
    (hconn : e.record.connection = a.record.connection) (hbuffer : e.record.buffer = a.record.buffer) :
    HostGuar aim s { s with rx := s.rx ++ [a], serving := none } := by
  have hquiet : Quiet s { s with rx := s.rx ++ [a], serving := none } := { Quiet.refl s with }
  have hold : e ∈ s.flight := by simp [flight, hserving]
  have hcases : ∀ {d}, d ∈ ({ s with rx := s.rx ++ [a], serving := none } : Broker).flight → d.aboutBinding = true →
      ∃ r ∈ s.flight, r.aboutBinding = true ∧ r.mark = d.mark ∧ r.record.connection = d.record.connection ∧
        r.record.buffer = d.record.buffer := by
    intro d hd hab
    have hd' : d ∈ s.flight ∨ d = a := by
      simp only [flight, List.mem_append, List.mem_singleton, Option.toList_none, List.not_mem_nil, or_false] at hd ⊢
      rcases hd with (hd | hd | hd) | hd
      · exact .inl (.inl (.inl (.inl hd)))
      · exact .inl (.inl (.inl (.inr hd)))
      · exact .inr hd
      · exact .inl (.inr hd)
    rcases hd' with hd' | rfl
    · exact ⟨d, hd', hab, rfl, rfl, rfl⟩
    · exact ⟨e, hold, habout hab, hmark, hconn, hbuffer⟩
  refine ⟨hquiet.inv hi (fun haim => ?_) ?_, hquiet.rely, hquiet.response rfl⟩
  · have hh := hi.handles haim
    refine hh.fly hquiet.tables hh.published (fun d hd hab => ?_) (fun d hd hab i k ha hc hid => ?_)
    · obtain ⟨r, hr, hrab, hmark, hrc, hrb⟩ := hcases hd hab
      obtain ⟨m, hm⟩ := hh.flying r hr hrab
      exact ⟨m, hmark ▸ hm.imported, hmark ▸ hm.bound, hm.id.trans hrb, hm.client, hm.connection.trans hrc⟩
    · obtain ⟨r, hr, hrab, hmark, hrc, hrb⟩ := hcases hd hab
      exact (hh.named r hr hrab i k ha (hc.trans hrc.symm) (hid.trans hrb.symm)).trans hmark
  · simp [flight, hserving]

theorem hostTurn_safe : hostTurn.Safe (Inv aim) (contract aim .host) ok (fun _ _ => True) s := by
  have L := contract_lawful aim .host
  refine Safe.act Safe.always (fun s b s' _ hi hf _ => ?_) trivial
  cases htx : s.tx with
  | nil =>
    rw [htx] at hf
    cases hf
    exact ⟨L.still hi, fun _ _ _ => trivial⟩
  | cons e rest =>
    rw [htx] at hf
    cases hf
    have hquiet : Quiet s { s with tx := rest, serving := some e } := { Quiet.refl s with }
    have hflight : ({ s with tx := rest, serving := some e } : Broker).flight.Sublist s.flight := by
      simp [flight, htx]
    refine ⟨⟨hquiet.inv_same hi hflight, hquiet.rely, hquiet.response rfl⟩, Safe.pick fun status => ?_⟩
    refine Safe.await (P := fun s => s.serving = some e) (fun h hr _ => hr.trans h) (fun s h hi _ _ => ?_) rfl
    obtain ⟨hconn, hbuffer⟩ := answer_connection e.record s.generation status
    exact ⟨answer_guar hi h aboutBinding_answer rfl hconn.symm hbuffer.symm, fun _ _ _ => trivial⟩

/-! ## The acceptor -/

theorem addClient_guar {connection : Nat} (hi : Inv aim s)
    (hok : Allowed aim s { s.setClient s.count ⟨connection, fun _ => .empty, none, false⟩ with count := s.count + 1 }) :
    MainGuar aim s { s.setClient s.count ⟨connection, fun _ => .empty, none, false⟩ with count := s.count + 1 } := by
  have hself : (s.setClient s.count ⟨connection, fun _ => .empty, none, false⟩).clients s.count =
      ⟨connection, fun _ => .empty, none, false⟩ := update_self _ _ _
  have hother : ∀ {j}, j ≠ s.count →
      (s.setClient s.count ⟨connection, fun _ => .empty, none, false⟩).clients j = s.clients j :=
    fun hj => update_of_ne hj _ _
  obtain ⟨hfree, hempty⟩ := hi.empty s.count (Nat.le_refl _)
  have hlock : ∀ j, ((s.setClient s.count ⟨connection, fun _ => .empty, none, false⟩).clients j).stateLock =
      (s.clients j).stateLock := by
    intro j
    by_cases hj : j = s.count
    · rw [hj, hself, hfree]
    · rw [hother hj]
  have hconn : ∀ j < s.count, ((s.setClient s.count ⟨connection, fun _ => .empty, none, false⟩).clients j).connection =
      (s.clients j).connection := fun j hj => by rw [hother (Nat.ne_of_lt hj)]
  refine ⟨⟨fun j hj => ?_, fun haim => ?_, fun haim => ?_⟩, fun i => ?_, ?_, rfl⟩
  · have hjc : j ≠ s.count := Nat.ne_of_gt hj
    dsimp only
    rw [hother hjc]
    exact hi.empty j (Nat.le_of_succ_le hj)
  · refine (hi.handles haim).addClient hempty fun j hj => ?_
    have hnew := (hok.careful haim).connected (Nat.succ_ne_self _) j hj
    dsimp only at hnew
    rwa [hself] at hnew
  · exact (hi.waits haim).same rfl rfl (fun j hl => (hlock j).symm.trans hl) (Nat.le_refl _)
  · refine ⟨Nat.le_succ _, hconn, by rw [← hlock i], fun hl => ?_, fun k hk => ?_, rfl, rfl,
      List.prefix_rfl, fun _ h => h, fun _ _ _ _ _ => ⟨rfl, fun _ => rfl⟩⟩
    · have hic : i ≠ s.count := by
        rintro rfl
        rw [hfree] at hl
        cases hl
      dsimp only
      rw [hother hic]
    · have hic : i ≠ s.count := by
        rintro rfl
        dsimp only at hk
        rw [hself] at hk
        cases hk
      dsimp only
      rw [hother hic]
  · exact ⟨Nat.le_succ _, hconn, fun j => by rw [← hlock j], rfl⟩

theorem acceptTurn_safe (hok : ∀ s s', ok s s' → Allowed aim s s') :
    acceptTurn.Safe (Inv aim) (contract aim .main) ok (fun _ _ => True) s := by
  have hstep : ∀ {s s'}, Inv aim s → Quiet s s' → s'.flight = s.flight → s'.hand = s.hand → s'.serving = s.serving →
      MainGuar aim s s' := fun hi hq hf hh hs =>
    ⟨hq.inv_same hi (hf ▸ List.Sublist.refl _), hq.rely, hq.response hh, hs⟩
  refine Safe.act Safe.always (fun s connection s' _ hi hf _ => ?_) trivial
  have hnext : s' = { s with nextConnection := s'.nextConnection } := by
    have heq := Option.some.inj hf
    rw [newConnection] at heq
    split at heq <;> cases heq <;> rfl
  rw [hnext]
  refine ⟨hstep hi { Quiet.refl s with } rfl rfl rfl, ?_⟩
  refine Safe.await Safe.always (fun s _ hi _ _ => ?_) trivial
  refine ⟨hstep hi { Quiet.refl s with } rfl rfl rfl, ?_⟩
  refine Safe.write Safe.always (fun s _ hi hstep' => ?_) trivial
  refine ⟨addClient_guar hi (hok _ _ hstep'), ?_⟩
  refine Safe.writeLast Safe.always (fun s _ hi _ => ?_) trivial
  exact ⟨hstep hi { Quiet.refl s with } rfl rfl rfl, fun _ _ _ => trivial⟩

/-! ## All threads together -/

theorem Start.inv (h : Start s) : Inv aim s := by
  obtain ⟨htx, hserving, hrx, hhand⟩ := h.rings
  have himports := h.imports
  have hflight : s.flight = [] := by simp [flight, htx, hserving, hrx, hhand]
  have hinactive : ∀ i k, ((s.clients i).buffers k).active = false := by
    intro i k
    rw [(h.clients i).2 k]
    rfl
  have hwaits : WaitInv s := by
    refine ⟨fun i _ => by simp [hflight], fun i hi => ?_⟩
    rw [(h.waits i).1] at hi
    cases hi
  refine ⟨fun i _ => ⟨(h.clients i).1, hinactive i⟩, fun _ => ?_, fun _ => hwaits⟩
  refine ⟨fun i hi => ?_, fun i k ha => ?_, fun i k l ha => ?_, fun t m hm => ?_, fun t u m n hm => ?_,
    fun t _ => ⟨(h.flags t).1, (h.flags t).2.2.1⟩, fun e he => ?_, fun e he => ?_, fun t ht => ?_, fun t ht => ?_,
    fun t ht => ?_⟩
  · rw [h.count] at hi
    exact absurd hi (Nat.not_lt_zero i)
  · rw [hinactive] at ha
    cases ha
  · rw [hinactive] at ha
    cases ha
  · simp [himports] at hm
  · simp [himports] at hm
  · simp [hflight] at he
  · simp [hflight] at he
  · rw [(h.flags t).1] at ht
    cases ht
  · rw [(h.flags t).2.2.2] at ht
    cases ht
  · rw [(h.flags t).2.1] at ht
    cases ht

theorem Start.idle (h : Start s) (p : Party) : (contract aim p).idle s := by
  cases p with
  | client i =>
    refine ⟨fun hl => ?_, (h.waits i).2, (h.waits i).1⟩
    rw [(h.clients i).1] at hl
    cases hl
  | response => trivial
  | host => trivial
  | main => trivial

theorem sound (hok : ∀ s s', ok s s' → Allowed aim s s') :
    Threads.Sound Start Calls (fun _ => ok) (Inv aim) (contract aim) where
  lawful := contract_lawful aim
  fits hpq _ h := contract_fits hpq h
  start h := ⟨h.inv, h.idle⟩
  call {p s prog} hi hidle hcall := by
    cases p with
    | client i =>
      obtain ⟨hclient, -, hprog⟩ := hcall
      rcases hprog with ⟨record, fd, rfl⟩ | rfl
      · exact clientTurn_safe hok record fd (Rests.place hidle hclient)
      · exact cleanup_safe hok (Rests.place hidle hclient)
    | response =>
      obtain rfl := hcall
      exact responseTurn_safe
    | host =>
      obtain rfl := hcall
      exact hostTurn_safe
    | main =>
      obtain rfl := hcall
      exact acceptTurn_safe hok

end MoCoLinux.Broker
