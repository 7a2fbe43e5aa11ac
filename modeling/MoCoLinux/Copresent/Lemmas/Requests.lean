import MoCoLinux.Copresent.Lemmas.Parties

/-!
# The threads of the clients
-/

namespace MoCoLinux.Broker

open Function
open Copresent
open Threads (Prog)
open Threads.Prog (Safe)

variable {aim : Aim} {i k t : Nat} {l c w : Bool} {s s' : Broker} {e : Entry} {ok : Broker → Broker → Prop}

/-! ## Steps of a client's thread -/

theorem ClientGuar.own (hi : Inv aim s) (ha : At i l c false s) (hcount : s'.count = s.count)
    (hothers : ∀ j, j ≠ i → s'.clients j = s.clients j)
    (hconn : (s'.clients i).connection = (s.clients i).connection)
    (hlock : (s'.clients i).stateLock = some .response ↔ (s.clients i).stateLock = some .response)
    (hwriting : s'.writing = s.writing) (hcleaning : ∀ j, j ≠ i → s'.cleaning j = s.cleaning j)
    (hfew : aim = .waits → s'.cleaning i = true → s.flight.length ≤ 65) (hflight : s'.flight = s.flight)
    (himports : s.imports <+: s'.imports) (hbound : ∀ u, s.bound u = true → s'.bound u = true)
    (htheirs : aim = .handles → ∀ u m, s.imports[u]? = some m → m.client ≠ i →
      s'.bound u = s.bound u ∧ s'.closes u = s.closes u)
    (hhand : s'.hand = s.hand) (hserving : s'.serving = s.serving) (hhandles : aim = .handles → HandleInv s') :
    ClientGuar aim i s s' := by
  have hinv : Inv aim s' := by
    refine ⟨fun j hj => ?_, hhandles, fun haim => ⟨fun j hj => ?_, fun j hj hl => ?_⟩⟩
    · have hclient := ha.client
      rw [hcount] at hj
      rw [hothers j (by omega)]
      exact hi.empty j hj
    · rw [hflight]
      by_cases hji : j = i
      · exact hfew haim (hji ▸ hj)
      · exact (hi.waits haim).few j (hcleaning j hji ▸ hj)
    · rw [hwriting] at hj
      -- Who is in `ring_write` is not this client.
      have hji : j ≠ i := by
        rintro rfl
        rw [ha.writing] at hj
        cases hj
      rw [hothers j hji] at hl
      rw [hcleaning j hji]
      exact (hi.waits haim).cleans j hj hl
  refine ⟨hinv, hcount, fun j => ?_, hothers, hlock, fun _ _ => by rw [hwriting], hcleaning, himports, hbound, htheirs,
    hhand, hserving⟩
  by_cases hj : j = i
  · rw [hj]
    exact hconn
  · rw [hothers j hj]

theorem setLock_guar (hi : Inv aim s) (ha : At i l c false s) (hns : (s.clients i).stateLock ≠ some .response)
    {h : Option BrokerHolder} (hh : h ≠ some .response) {f : Nat → Bool} (hf : ∀ j, j ≠ i → f j = s.cleaning j)
    (hfew : aim = .waits → f i = true → s.flight.length ≤ 65) :
    ClientGuar aim i s { s.setLock i h with cleaning := f } := by
  have hself : (s.setLock i h).clients i = { s.clients i with stateLock := h } := update_self _ _ _
  have hlocked : SameTables s (s.setLock i h) := .setClient rfl rfl
  have htables : SameTables s { s.setLock i h with cleaning := f } := { hlocked with }
  refine ClientGuar.own hi ha rfl (fun j hj => update_of_ne hj _ _) ?_ ?_ rfl hf hfew rfl List.prefix_rfl
    (fun _ h => h) (fun _ _ _ _ _ => ⟨rfl, rfl⟩) rfl rfl fun haim => (hi.handles haim).same htables rfl fun _ he => he
  · show ((s.setLock i h).clients i).connection = _
    rw [hself]
  · show ((s.setLock i h).clients i).stateLock = _ ↔ _
    rw [hself]
    exact ⟨fun h => absurd h hh, fun h => absurd h hns⟩

theorem lockState_safe (ha : At i false c false s) (hc : c = false)
    {p : Unit → Prog Broker (Option Entry)} {Q : Option Entry → Broker → Prop}
    {P : Broker → Prop} (hst : ∀ {s s'}, P s → Rely aim i s s' → Inv aim s' → P s') (hP : P s)
    (hp : ∀ s, Inv aim (s.setLock i (some .client)) → At i true c false (s.setLock i (some .client)) → P s →
      (p ()).Safe (Inv aim) (contract aim (.client i)) ok Q (s.setLock i (some .client))) :
    (lockState i .client >>= p).Safe (Inv aim) (contract aim (.client i)) ok Q s := by
  subst hc
  refine Safe.await (P := fun s => At i false false false s ∧ P s)
    (fun h hr hi => ⟨h.1.stable hr, hst h.2 hr hi⟩) (fun s h hi hfree _ => ?_) ⟨ha, hP⟩
  obtain ⟨ha, hP⟩ := h
  have hnone : (s.clients i).stateLock = none := by simpa using hfree
  have hguar : ClientGuar aim i s (s.setLock i (some .client)) :=
    setLock_guar (f := s.cleaning) hi ha (by rw [hnone]; exact fun h => (by cases h)) (fun h => by cases h)
      (fun _ _ => rfl) fun haim => (hi.waits haim).few i
  refine ⟨hguar, hp s hguar.inv { ha with lock := ?_ } hP⟩
  simp [setLock, setClient]

theorem unlockState_guar (hi : Inv aim s) (ha : At i true false false s) :
    ClientGuar aim i s (s.setLock i none) ∧ At i false false false (s.setLock i none) := by
  have hlock := ha.lock.mpr rfl
  refine ⟨setLock_guar (f := s.cleaning) hi ha (by rw [hlock]; exact fun h => (by cases h)) (fun h => by cases h)
    (fun _ _ => rfl) fun haim => (hi.waits haim).few i, ha.client, ?_, ha.cleaning, ha.writing⟩
  simp [setLock, setClient]

/-! ## What may be sent -/

/-- A request about binding is about the import the client's buffer of that number is from. -/
structure Fit (i : Nat) (e : Entry) (s : Broker) : Prop where
  connection : e.record.connection = (s.clients i).connection
  bound : s.bound e.mark = true
  imported : ∃ m, s.imports[e.mark]? = some m ∧ m.client = i ∧ m.id = e.record.buffer
  mark : ∀ k, ((s.clients i).buffers k).active = true → ((s.clients i).buffers k).id = e.record.buffer →
    ((s.clients i).buffers k).mark = e.mark

def Sends (aim : Aim) (i : Nat) (e : Entry) (s : Broker) : Prop :=
  aim = .handles → e.aboutBinding = true → Fit i e s

theorem Sends.stable (h : Sends aim i e s) (hi : i < s.count) (hr : Rely aim i s s') : Sends aim i e s' := by
  intro haim hab
  have hf := h haim hab
  obtain ⟨m, hm, hmc, hid⟩ := hf.imported
  refine ⟨hf.connection.trans (hr.connection i hi).symm, hr.bound _ hf.bound,
    ⟨m, Runs.getElem?_of_grown hr.imports hm, hmc, hid⟩, fun k hk hkid => ?_⟩
  have hsame := hr.clears k hk
  rw [hsame] at hk hkid ⊢
  exact hf.mark k hk hkid

theorem Slot.fit {m : Import} (h : HandleInv s) (hs : s.Slot i k m) (hactive : ((s.clients i).buffers k).active = true)
    (hconn : e.record.connection = (s.clients i).connection) (hmark : e.mark = ((s.clients i).buffers k).mark)
    (hid : e.record.buffer = ((s.clients i).buffers k).id) : Fit i e s := by
  refine ⟨hconn, ?_, ⟨m, ?_, hs.owner, hs.id.trans hid.symm⟩, fun l hl hlid => ?_⟩
  · rw [hmark]
    exact hs.bound
  · rw [hmark]
    exact hs.imported
  · have hlk := h.ids i l k hl hactive (hlid.trans hid)
    rw [hlk, hmark]

/-! ## `ring_write` -/

theorem txLock_guar (hi : Inv aim s) (ha : At i l c w s) (txLock : Option Nat) :
    ClientGuar aim i s { s with txLock := txLock } ∧ At i l c w { s with txLock := txLock } := by
  have hinv : Inv aim { s with txLock := txLock } := ⟨hi.empty,
    fun haim => (hi.handles haim).same { SameTables.refl s with } rfl fun _ he => he, fun haim => { hi.waits haim with }⟩
  exact ⟨{ ClientGuar.refl hi with inv := hinv }, { ha with }⟩

theorem writing_guar (hi : Inv aim s) (ha : At i l c w s) {b : Bool} (hlc : b = true → l = true → c = true) :
    ClientGuar aim i s { s with writing := update s.writing i b } ∧
      At i l c b { s with writing := update s.writing i b } := by
  have hother : ∀ j, j ≠ i → update s.writing i b j = s.writing j := fun j hj => update_of_ne hj _ _
  have hinv : Inv aim { s with writing := update s.writing i b } := by
    refine ⟨hi.empty, fun haim => (hi.handles haim).same { SameTables.refl s with } rfl fun _ he => he,
      fun haim => ⟨(hi.waits haim).few, fun j hj hl => ?_⟩⟩
    by_cases hji : j = i
    · subst hji
      have hb : b = true := (update_self j b s.writing).symm.trans hj
      exact ha.cleaning.trans (hlc hb (ha.lock.mp hl))
    · exact (hi.waits haim).cleans j ((hother j hji).symm.trans hj) hl
  exact ⟨{ ClientGuar.refl hi with inv := hinv, writing := hother }, { ha with writing := update_self _ _ _ }⟩

theorem publish_flight (s : Broker) (i : Nat) (e : Entry) : (s.publish i e).flight = s.flight ++ [e] := by
  simp [flight, publish]

theorem HandleInv.publish (h : HandleInv s) (hclient : i < s.count) (he : e.aboutBinding = true → Fit i e s) :
    HandleInv (s.publish i e) := by
  refine h.fly { SameTables.refl s with } (fun u hu => ?_) (fun d hd hab => ?_) (fun d hd hab j l ha hcj hid => ?_)
  · change (if e.record.opcode = opBind then update s.published e.mark true else s.published) u = true at hu
    split at hu
    case isFalse => exact h.published u hu
    case isTrue hop =>
      by_cases hue : u = e.mark
      · rw [hue]
        exact (he (by simp [Entry.aboutBinding, hop])).bound
      · rw [update_of_ne hue] at hu
        exact h.published u hu
  · rw [publish_flight] at hd
    rcases List.mem_append.mp hd with hd | hd
    · exact h.flying d hd hab
    · obtain rfl := List.mem_singleton.mp hd
      have hf := he hab
      obtain ⟨m, hm, hmc, hid⟩ := hf.imported
      exact ⟨m, hm, hf.bound, hid, by rw [hmc]; exact hclient, by rw [hmc]; exact hf.connection.symm⟩
  · rw [publish_flight] at hd
    rcases List.mem_append.mp hd with hd | hd
    · exact h.named d hd hab j l ha hcj hid
    · obtain rfl := List.mem_singleton.mp hd
      have hf := he hab
      obtain ⟨n, hn⟩ := h.slots j l ha
      obtain rfl := h.connections j hn.client i hclient (hcj.trans hf.connection)
      exact hf.mark l ha hid

theorem publish_guar (hi : Inv aim s) (ha : At i l c w s) (hs : Sends aim i e s)
    (hok : Allowed aim s (s.publish i e)) :
    ClientGuar aim i s (s.publish i e) ∧ At i l c false (s.publish i e) := by
  obtain ⟨hguar, hat⟩ := writing_guar (b := false) hi ha fun hf => by cases hf
  have hinv : Inv aim (s.publish i e) := by
    refine ⟨hi.empty, fun haim => (hi.handles haim).publish ha.client (hs haim), fun haim => ⟨fun j hj => ?_,
      (hguar.inv.waits haim).cleans⟩⟩
    have hlen : (s.publish i e).flight.length = s.flight.length + 1 := by
      rw [publish_flight, List.length_append, List.length_singleton]
    rw [hlen]
    exact Nat.succ_le_succ ((hok.roomy haim).publishes j hj (by omega))
  exact ⟨{ hguar with inv := hinv }, { hat with }⟩

theorem ringWrite_safe (hok : ∀ s s', ok s s' → Allowed aim s s') (ha : At i l c false s)
    (hlc : l = true → c = true) (hs : Sends aim i e s) :
    (ringWrite i e).Safe (Inv aim) (contract aim (.client i)) ok (fun _ s => At i l c false s) s := by
  have hstable : ∀ {w s s'}, At i l c w s ∧ Sends aim i e s → Rely aim i s s' → Inv aim s' →
      At i l c w s' ∧ Sends aim i e s' := fun h hr _ => ⟨h.1.stable hr, h.2.stable h.1.client hr⟩
  refine Safe.write (P := fun s => At i l c false s ∧ Sends aim i e s) hstable (fun s h hi _ => ?_) ⟨ha, hs⟩
  obtain ⟨hguar, hat⟩ := writing_guar (b := true) hi h.1 fun _ => hlc
  refine ⟨hguar, Safe.await (P := fun s => At i l c true s ∧ Sends aim i e s) hstable (fun s h hi _ _ => ?_)
    ⟨hat, fun haim hab => { h.2 haim hab with }⟩⟩
  obtain ⟨hguar, hat⟩ := txLock_guar hi h.1 (some i)
  refine ⟨hguar, Safe.pick fun givesUp => ?_⟩
  refine Safe.act (P := fun s => At i l c true s ∧ Sends aim i e s) hstable (fun s b s' h hi hf hstep => ?_)
    ⟨hat, fun haim hab => { h.2 haim hab with }⟩
  -- Either way `tx_lock` is given back.
  have hout : ∀ {s : Broker} (b : Bool), At i l c false s →
      (Prog.write (fun s : Broker => { s with txLock := none }) >>= fun _ => Prog.ret b).Safe (Inv aim)
        (contract aim (.client i)) ok (fun _ s => At i l c false s) s := by
    intro s b ha
    refine Safe.write (Safe.stays At.stable) (fun s ha hi _ => ?_) ha
    obtain ⟨hguar, hat⟩ := txLock_guar hi ha none
    exact ⟨hguar, Safe.done At.stable hat⟩
  split at hf
  · cases hf
    obtain ⟨hguar, hat⟩ := publish_guar hi h.1 h.2 (hok _ _ hstep)
    exact ⟨hguar, hout true hat⟩
  · split at hf
    · cases hf
    · cases hf
      obtain ⟨hguar, hat⟩ := writing_guar (b := false) hi h.1 fun hf => by cases hf
      exact ⟨hguar, hout false hat⟩

/-! ## `bind_buffer` -/

theorem bindSlot_congr {c c' : BrokerClient} (h : c'.buffers = c.buffers) (record : Record) (fd : Option Nat) :
    bindSlot c' record fd = bindSlot c record fd := by
  cases c
  cases c'
  cases h
  rfl

structure Chosen (i k : Nat) (record : Record) (fd : Option Nat) (d : Nat) (s : Broker) : Prop where
  place : At i true false false s
  slot : bindSlot (s.clients i) record fd = some (k, d)
  connection : record.connection = (s.clients i).connection

structure Imported (aim : Aim) (i k : Nat) (record : Record) (fd : Option Nat) (d handle t : Nat) (s : Broker) : Prop
    extends Chosen i k record fd d s where
  imported : aim = .handles → s.imports[t]? = some ⟨i, record.buffer, d, handle⟩ ∧ handle ≠ 0
  unbound : aim = .handles → s.bound t = false ∧ s.closes t = 0

variable {record : Record} {fd : Option Nat} {d : Nat}

theorem Chosen.stable (h : Chosen i k record fd d s)
    (hr : Rely aim i s s') : Chosen i k record fd d s' := by
  refine ⟨h.place.stable hr, ?_, h.connection.trans (hr.connection i h.place.client).symm⟩
  rw [bindSlot_congr (hr.owned (h.place.lock.mpr rfl))]
  exact h.slot

variable {handle : Nat}

theorem Imported.stable (h : Imported aim i k record fd d handle t s) (hr : Rely aim i s s') :
    Imported aim i k record fd d handle t s' := by
  refine ⟨h.toChosen.stable hr, fun haim => ?_, fun haim => ?_⟩
  · exact ⟨Runs.getElem?_of_grown hr.imports (h.imported haim).1, (h.imported haim).2⟩
  · obtain ⟨hb, hc⟩ := hr.mine haim t _ (h.imported haim).1 rfl
    exact ⟨hb.trans (h.unbound haim).1, (hc (h.unbound haim).1).trans (h.unbound haim).2⟩

theorem primeHandle_fresh {proposed : Nat} (h : s.primeHandle d proposed = some handle)
    (hno : ∀ p ∈ s.handles, p.2 ≠ d) : handle ≠ 0 ∧ ∀ p ∈ s.handles, p.1 ≠ handle := by
  have hnone : (s.handles.find? fun p => p.2 = d) = none := by
    rw [List.find?_eq_none]
    intro p hp
    simpa using hno p hp
  rw [primeHandle, hnone] at h
  dsimp only at h
  split at h
  case isTrue hfresh =>
    cases h
    exact hfresh
  case isFalse => cases h

theorem addImport_guar {proposed : Nat} (hi : Inv aim s)
    (hc : Chosen i k record fd d s) (hprime : s.primeHandle d proposed = some handle)
    (hok : Allowed aim s (s.addImport ⟨i, record.buffer, d, handle⟩)) :
    ClientGuar aim i s (s.addImport ⟨i, record.buffer, d, handle⟩) ∧
      Imported aim i k record fd d handle s.imports.length (s.addImport ⟨i, record.buffer, d, handle⟩) := by
  have hfresh : aim = .handles → handle ≠ 0 ∧ ∀ p ∈ s.handles, p.1 ≠ handle := fun haim =>
    primeHandle_fresh hprime ((hok.careful haim).imported ⟨i, record.buffer, d, handle⟩ rfl)
  refine ⟨ClientGuar.own hi hc.place rfl (fun _ _ => rfl) rfl Iff.rfl rfl (fun _ _ => rfl)
    (fun haim => (hi.waits haim).few i) rfl (List.prefix_append _ _) (fun _ h => h) (fun _ _ _ _ _ => ⟨rfl, rfl⟩) rfl rfl ?_,
    ⟨{ hc.place with }, hc.slot, hc.connection⟩,
    fun haim => ⟨?_, (hfresh haim).1⟩, fun haim => (hi.handles haim).beyond _ (Nat.le_refl _)⟩
  · exact fun haim => (hi.handles haim).addImport (hfresh haim).2
  · show (s.imports ++ [_])[s.imports.length]? = _
    rw [List.getElem?_concat_length]

theorem gemClose_guar (hi : Inv aim s)
    (hm : Imported aim i k record fd d handle t s) :
    ClientGuar aim i s (s.gemClose handle t) ∧ At i true false false (s.gemClose handle t) := by
  refine ⟨ClientGuar.own hi hm.place rfl (fun _ _ => rfl) rfl Iff.rfl rfl (fun _ _ => rfl)
    (fun haim => (hi.waits haim).few i) rfl List.prefix_rfl (fun _ h => h) (fun haim u n hn hne => ⟨rfl, ?_⟩) rfl rfl
    fun haim => (hi.handles haim).gemClose (hm.imported haim).1 (hm.unbound haim).1 (hm.unbound haim).2,
    hm.place.client, hm.place.lock, hm.place.cleaning, hm.place.writing⟩
  · have hut : u ≠ t := by
      rintro rfl
      rw [(hm.imported haim).1] at hn
      exact hne (congrArg Import.client (Option.some.inj hn).symm)
    exact update_of_ne hut _ _

theorem setBuffer_others (b : BrokerBuffer) {j : Nat} (hj : j ≠ i) : (s.setBuffer i k b).clients j = s.clients j :=
  update_of_ne hj _ _

theorem setBuffer_stateLock (b : BrokerBuffer) :
    ((s.setBuffer i k b).clients i).stateLock = (s.clients i).stateLock := by
  simp [setBuffer, setClient]

theorem fillBuffer_guar {resource : Nat} (hi : Inv aim s)
    (hm : Imported aim i k record fd d handle t s)
    (hok : Allowed aim s (s.fillBuffer i k record handle resource t)) :
    ClientGuar aim i s (s.fillBuffer i k record handle resource t) ∧
      At i true false false (s.fillBuffer i k record handle resource t) ∧
      Sends aim i ⟨{ record with resourceId := resource }, t⟩ (s.fillBuffer i k record handle resource t) := by
  obtain ⟨-, hk, hfree⟩ := bindSlot_some hm.slot
  have hself : ((s.fillBuffer i k record handle resource t).clients i).buffers k =
      ⟨true, false, record.buffer, handle, resource, record.xid, record.width, record.height, t⟩ :=
    (setBuffer_eq _ i k).trans (if_pos ⟨rfl, rfl⟩)
  have hconn : ((s.fillBuffer i k record handle resource t).clients i).connection = (s.clients i).connection :=
    setBuffer_connection _ i
  have hlock : ((s.fillBuffer i k record handle resource t).clients i).stateLock = (s.clients i).stateLock :=
    setBuffer_stateLock _
  have hinv : aim = .handles → HandleInv (s.fillBuffer i k record handle resource t) := by
    intro haim
    refine (hi.handles haim).fillBuffer hm.place.client hm.slot (hm.imported haim).1 rfl rfl
      ⟨rfl, (hm.imported haim).2⟩ (hm.unbound haim).1 (hm.unbound haim).2 fun d hd hab hcd => ?_
    have hquiet := (hok.careful haim).named i k hfree (by rw [hself]) d hd hab (hcd.trans hconn.symm)
    rwa [hself] at hquiet
  have hbound : ∀ u, s.bound u = true → (s.fillBuffer i k record handle resource t).bound u = true := by
    intro u hu
    by_cases hut : u = t
    · rw [hut]
      exact update_self _ _ _
    · exact (update_of_ne hut _ _).trans hu
  refine ⟨ClientGuar.own hi hm.place rfl (fun j hj => setBuffer_others _ hj) hconn (by rw [hlock]) rfl
    (fun _ _ => rfl) (fun haim => (hi.waits haim).few i) rfl List.prefix_rfl hbound
    (fun haim u n hn hne => ⟨?_, rfl⟩) rfl rfl hinv,
    { hm.place with lock := by rw [hlock]; exact hm.place.lock }, fun haim _ => ?_⟩
  · have hut : u ≠ t := by
      rintro rfl
      rw [(hm.imported haim).1] at hn
      exact hne (congrArg Import.client (Option.some.inj hn).symm)
    exact update_of_ne hut _ _
  · have hactive : (((s.fillBuffer i k record handle resource t).clients i).buffers k).active = true := by rw [hself]
    obtain ⟨n, hn⟩ := (hinv haim).slots i k hactive
    exact hn.fit (hinv haim) hactive (hm.connection.trans hconn.symm) (by rw [hself]) (by rw [hself])

structure Asked (aim : Aim) (i : Nat) (locked : Bool) (r : Option Entry) (s : Broker) : Prop where
  place : At i locked false false s
  sends : ∀ e, r = some e → Sends aim i e s

variable {r : Option Entry}

theorem Asked.stable (h : Asked aim i l r s) (hr : Rely aim i s s') : Asked aim i l r s' :=
  ⟨h.place.stable hr, fun e he => (h.sends e he).stable h.place.client hr⟩

theorem safe_asked (h : Asked aim i l r s) :
    (Prog.ret r).Safe (Inv aim) (contract aim (.client i)) ok (fun r s => Asked aim i l r s) s :=
  Safe.done Asked.stable h

theorem Asked.none (h : At i l false false s) : Asked aim i l none s := ⟨h, fun _ he => by cases he⟩

theorem bindBuffer_safe (hok : ∀ s s', ok s s' → Allowed aim s s') (fd : Option Nat)
    (ha : At i true false false s) (hconn : record.connection = (s.clients i).connection) :
    (bindBuffer i record fd).Safe (Inv aim) (contract aim (.client i)) ok (fun r s => Asked aim i true r s) s := by
  have L := contract_lawful aim (.client i)
  refine Safe.read L (P := fun s => At i true false false s ∧ record.connection = (s.clients i).connection)
    (fun h hr _ => ⟨h.1.stable hr, h.2.trans (hr.connection i h.1.client).symm⟩) (fun s h hi => ?_) ⟨ha, hconn⟩
  cases hslot : bindSlot (s.clients i) record fd with
  | none => exact safe_asked (.none h.1)
  | some p =>
    obtain ⟨k, d⟩ := p
    have hchosen : Chosen i k record fd d s := ⟨h.1, hslot, h.2⟩
    refine Safe.pick fun refused => Safe.pick fun proposed => ?_
    split
    · exact safe_asked (.none h.1)
    refine Safe.act (Safe.stays Chosen.stable) (fun s b s' hc hi hf hstep => ?_)
      hchosen
    obtain ⟨handle, hprime, heq⟩ := Option.map_eq_some_iff.mp hf
    cases heq
    obtain ⟨hguar, himported⟩ := addImport_guar hi hc hprime (hok _ _ hstep)
    refine ⟨hguar, Safe.pick fun resource => ?_⟩
    split
    · refine Safe.write (Safe.stays Imported.stable)
        (fun s hm hi _ => ?_) himported
      obtain ⟨hguar, hat⟩ := gemClose_guar hi hm
      exact ⟨hguar, safe_asked (.none hat)⟩
    · refine Safe.write (Safe.stays Imported.stable)
        (fun s hm hi hstep => ?_) himported
      obtain ⟨hguar, hat, hsends⟩ := fillBuffer_guar hi hm (hok _ _ hstep)
      exact ⟨hguar, safe_asked ⟨hat, fun e he => (by cases he; exact hsends)⟩⟩

/-! ## The cases of `client_thread` -/

theorem unlock_asked (h : Asked aim i true r s) :
    (unlockState i >>= fun _ => Prog.ret r).Safe (Inv aim) (contract aim (.client i)) ok
      (fun r s => Asked aim i false r s) s := by
  refine Safe.write (Safe.stays Asked.stable) (fun s h hi _ => ?_) h
  obtain ⟨hguar, hat⟩ := unlockState_guar hi h.place
  refine ⟨hguar, safe_asked ⟨hat, fun e he haim hab => ?_⟩⟩
  have hf := h.sends e he haim hab
  have hclient : (s.setLock i none).clients i = { s.clients i with stateLock := none } := update_self _ _ _
  refine ⟨?_, hf.bound, hf.imported, ?_⟩
  · rw [hclient]
    exact hf.connection
  · rw [hclient]
    exact hf.mark

theorem connection_stable {n : Nat} (h : i < s.count ∧ n = (s.clients i).connection) (hr : Rely aim i s s') :
    i < s'.count ∧ n = (s'.clients i).connection :=
  ⟨Nat.lt_of_lt_of_le h.1 hr.count, h.2.trans (hr.connection i h.1).symm⟩

theorem setLock_connection (h : Option BrokerHolder) :
    ((s.setLock i h).clients i).connection = (s.clients i).connection := by
  simp [setLock, setClient]

theorem bindRequest_safe (hok : ∀ s s', ok s s' → Allowed aim s s') (fd : Option Nat)
    (ha : At i false false false s) (hconn : record.connection = (s.clients i).connection) :
    (bindRequest i record fd).Safe (Inv aim) (contract aim (.client i)) ok (fun r s => Asked aim i false r s) s := by
  have L := contract_lawful aim (.client i)
  refine lockState_safe (P := fun s => i < s.count ∧ record.connection = (s.clients i).connection) ha rfl
    (fun h hr _ => connection_stable h hr) ⟨ha.client, hconn⟩ (fun s hi ha h => ?_)
  refine Safe.bind L hi ((bindBuffer_safe hok fd ha (h.2.trans (setLock_connection _).symm)).mono
    fun r s _ hr => unlock_asked hr)

theorem prepareRecord_sends (hi : Inv aim s) (hconn : record.connection = (s.clients i).connection)
    (h : prepareRecord (s.clients i) record = some (k, e)) : Sends aim i e s := by
  intro haim _
  obtain ⟨hfind, hmark, hbuffer, hc, -⟩ := prepareRecord_some h
  obtain ⟨-, hactive, hid⟩ := BrokerClient.findBuffer_some hfind
  obtain ⟨m, hm⟩ := (hi.handles haim).slots i k hactive
  exact hm.fit (hi.handles haim) hactive (hc.trans hconn) hmark (hbuffer.trans hid.symm)

theorem presentRequest_safe (fd : Option Nat) (hop : record.opcode = opPresent)
    (ha : At i false false false s) :
    (presentRequest i record fd).Safe (Inv aim) (contract aim (.client i)) ok (fun r s => Asked aim i false r s) s := by
  have L := contract_lawful aim (.client i)
  cases fd with
  | none => exact safe_asked (.none ha)
  | some fence =>
    refine Safe.pick fun late => ?_
    split
    · exact safe_asked (.none ha)
    refine lockState_safe (P := fun _ => True) ha rfl (fun _ _ _ => trivial) trivial (fun s hi ha _ => ?_)
    refine Safe.read L (Safe.stays At.stable) (fun s ha hi => ?_) ha
    refine unlock_asked ⟨ha, fun e he haim hab => ?_⟩
    -- A request to present is not about binding.
    obtain ⟨p, hp, rfl⟩ := Option.map_eq_some_iff.mp he
    have hopcode := (prepareRecord_some (k := p.1) (e := p.2) hp).2.2.2.2
    rw [hop] at hopcode
    simp [Entry.aboutBinding, hopcode, opPresent, opBind, opUnbind, opBound, opUnbound] at hab

theorem setPending_guar (hi : Inv aim s) (ha : At i true c false s) (k : Nat) :
    ClientGuar aim i s (s.setPending i k) ∧ At i true c false (s.setPending i k) := by
  have hlock : ((s.setPending i k).clients i).stateLock = (s.clients i).stateLock := setBuffer_stateLock _
  exact ⟨ClientGuar.own hi ha rfl (fun j hj => setBuffer_others _ hj) (setBuffer_connection _ i) (by rw [hlock]) rfl
    (fun _ _ => rfl) (fun haim => (hi.waits haim).few i) rfl List.prefix_rfl (fun _ h => h)
    (fun _ _ _ _ _ => ⟨rfl, rfl⟩) rfl rfl fun haim => (hi.handles haim).same (.setPending s i k) rfl fun _ he => he,
    ha.client, by rw [hlock]; exact ha.lock, ha.cleaning, ha.writing⟩

theorem setPending_sends (h : Sends aim i e s) : Sends aim i e (s.setPending i k) := by
  intro haim hab
  have hf := h haim hab
  have hsame := SameTables.setPending s i k
  refine ⟨hf.connection.trans (hsame.connection i).symm, hf.bound, hf.imported, fun l hl hid => ?_⟩
  rw [hsame.active] at hl
  rw [hsame.id] at hid
  rw [hsame.mark]
  exact hf.mark l hl hid

theorem unbindRequest_safe (ha : At i false false false s)
    (hconn : record.connection = (s.clients i).connection) :
    (unbindRequest i record).Safe (Inv aim) (contract aim (.client i)) ok (fun r s => Asked aim i false r s) s := by
  refine lockState_safe (P := fun s => i < s.count ∧ record.connection = (s.clients i).connection) ha rfl
    (fun h hr _ => connection_stable h hr) ⟨ha.client, hconn⟩ (fun s hi ha h => ?_)
  refine Safe.act (P := fun s => At i true false false s ∧ record.connection = (s.clients i).connection)
    (fun h hr _ => ⟨h.1.stable hr, h.2.trans (hr.connection i h.1.client).symm⟩) (fun s b s' h hi hf _ => ?_)
    ⟨ha, h.2.trans (setLock_connection _).symm⟩
  cases hprep : prepareRecord (s.clients i) record with
  | none =>
    rw [hprep] at hf
    cases hf
    exact ⟨ClientGuar.refl hi, unlock_asked (.none h.1)⟩
  | some p =>
    obtain ⟨k, e⟩ := p
    rw [hprep] at hf
    cases hf
    obtain ⟨hguar, hat⟩ := setPending_guar hi h.1 k
    refine ⟨hguar, unlock_asked ⟨hat, fun d hd => ?_⟩⟩
    cases hd
    exact setPending_sends (prepareRecord_sends hi h.2 hprep)

theorem request_safe (hok : ∀ s s', ok s s' → Allowed aim s s') (fd : Option Nat)
    (ha : At i false false false s) (hconn : record.connection = (s.clients i).connection) :
    (request i record fd).Safe (Inv aim) (contract aim (.client i)) ok (fun r s => Asked aim i false r s) s := by
  rw [request]
  split
  · exact bindRequest_safe hok fd ha hconn
  split
  case isTrue hop => exact presentRequest_safe fd hop ha
  split
  · exact unbindRequest_safe ha hconn
  · exact safe_asked (.none ha)

theorem safe_rests (h : At i false false false s) :
    (Prog.ret () : Prog Broker Unit).Safe (Inv aim) (contract aim (.client i)) ok (fun _ s => Rests i s) s :=
  Safe.ret (Safe.stays At.stable) (fun _ h _ => h.rests) h

theorem clientTurn_safe (hok : ∀ s s', ok s s' → Allowed aim s s') (record : Record) (fd : Option Nat)
    (ha : At i false false false s) :
    (clientTurn i record fd).Safe (Inv aim) (contract aim (.client i)) ok (fun _ s => Rests i s) s := by
  have L := contract_lawful aim (.client i)
  rw [clientTurn]
  split
  · exact safe_rests ha
  refine Safe.read L (Safe.stays At.stable) (fun s ha hi => ?_) ha
  refine Safe.bind L hi ((request_safe hok fd ha rfl).mono fun r s hi hr => ?_)
  cases r with
  | none => exact safe_rests hr.place
  | some e =>
    refine Safe.bind L hi ((ringWrite_safe hok hr.place (fun h => by cases h) (hr.sends e rfl)).mono
      fun _ s _ ha => safe_rests ha)

/-! ## The clean-up -/

theorem cleanupEntry_sends (hi : Inv aim s) (h : s.cleanupEntry i k = some e) : Sends aim i e s := by
  intro haim _
  rw [cleanupEntry] at h
  split at h
  case isFalse => cases h
  case isTrue hcond =>
    cases h
    rw [Bool.and_eq_true] at hcond
    obtain ⟨m, hm⟩ := (hi.handles haim).slots i k hcond.1
    exact hm.fit (hi.handles haim) hcond.1 rfl rfl rfl

theorem cleanupLoop_safe (hok : ∀ s s', ok s s' → Allowed aim s s') (ks : List Nat) :
    ∀ {s}, At i true true false s →
      (cleanupLoop i ks).Safe (Inv aim) (contract aim (.client i)) ok (fun _ s => At i true true false s) s := by
  have L := contract_lawful aim (.client i)
  induction ks with
  | nil => exact fun ha => Safe.done At.stable ha
  | cons k rest ih =>
    intro s ha
    refine Safe.read L (Safe.stays At.stable) (fun s ha hi => ?_) ha
    cases hentry : s.cleanupEntry i k with
    | none => exact ih ha
    | some e =>
      refine Safe.bind L hi ((ringWrite_safe hok ha (fun _ => rfl) (cleanupEntry_sends hi hentry)).mono
        fun b s _ ha => ?_)
      cases b with
      | false => exact ih ha
      | true =>
        refine Safe.write (Safe.stays At.stable)
          (fun s ha hi _ => ?_) ha
        obtain ⟨hguar, hat⟩ := setPending_guar hi ha k
        exact ⟨hguar, ih hat⟩

theorem cleanup_safe (hok : ∀ s s', ok s s' → Allowed aim s s') (ha : At i false false false s) :
    (cleanup i).Safe (Inv aim) (contract aim (.client i)) ok (fun _ s => Rests i s) s := by
  have L := contract_lawful aim (.client i)
  refine Safe.await (Safe.stays At.stable) (fun s ha hi hfree hstep => ?_) ha
  have hnone : (s.clients i).stateLock = none := by simpa using hfree
  have hguar : ClientGuar aim i s
      { s.setLock i (some .client) with cleaning := update s.cleaning i true } :=
    setLock_guar hi ha (by rw [hnone]; exact fun h => (by cases h)) (fun h => by cases h)
      (fun j hj => update_of_ne hj _ _) fun haim hc => ((hok _ _ hstep).roomy haim).begins i ha.cleaning hc
  have hat : At i true true false
      { s.setLock i (some .client) with cleaning := update s.cleaning i true } :=
    ⟨ha.client, by simp [setLock, setClient], by simp, ha.writing⟩
  refine ⟨hguar, Safe.bind L hguar.inv ((cleanupLoop_safe hok _ hat).mono fun _ s _ ha => ?_)⟩
  refine Safe.write (Safe.stays At.stable) (fun s ha hi _ => ?_) ha
  have hlock := ha.lock.mpr rfl
  refine ⟨setLock_guar hi ha (by rw [hlock]; exact fun h => (by cases h)) (fun h => by cases h)
    (fun j hj => update_of_ne hj _ _) fun _ hc => (by simp at hc), ?_⟩
  have hat : At i false false false
      { s.setLock i none with cleaning := update s.cleaning i false } :=
    ⟨ha.client, by simp [setLock, setClient], by simp, ha.writing⟩
  refine Safe.writeLast (Safe.stays At.stable) (fun s ha hi _ => ?_) hat
  have hself : (s.setClient i { s.clients i with gone := true }).clients i = { s.clients i with gone := true } :=
    update_self _ _ _
  refine ⟨ClientGuar.own hi ha rfl (fun j hj => update_of_ne hj _ _) (by rw [hself]) (by rw [hself]) rfl
    (fun _ _ => rfl) (fun haim => (hi.waits haim).few i) rfl List.prefix_rfl (fun _ h => h)
    (fun _ _ _ _ _ => ⟨rfl, rfl⟩) rfl rfl fun haim => (hi.handles haim).same (.setClient rfl rfl) rfl fun _ he => he,
    fun s' hr _ => ?_⟩
  have hgone : At i false false false (s.setClient i { s.clients i with gone := true }) :=
    { ha with lock := by rw [hself]; exact ha.lock }
  exact (hgone.stable hr).rests

end MoCoLinux.Broker
