import MoCoLinux.Copresent.Lemmas.Slots

/-!
# The presentation channel: invariant and contracts

The holder of `tx_lock` owns the free end of the request ring, the daemon's main thread the other end and the free end
of the answer ring, and `response_thread` the last.
-/

namespace MoCoLinux.Copresent

open Threads (Contract Prog)

structure Inv (g : Pages) (gen : Nat) (s : Channel) : Prop where
  tx : Holds g s.mem .tx s.txHead s.txTail s.written s.handled
  rx : Holds g s.mem .rx s.rxHead s.rxTail s.answers s.consumed
  answered : Answered gen (s.handled.take s.answers.length) s.answers
  answers_le : s.answers.length ≤ s.handled.length
  handled_le : s.handled.length ≤ s.answers.length + 1
  touched : ∀ a ∈ s.touched, g.Inside a
  exited : s.exited = true → s.closed = true

variable {g : Pages} {gen i j : Nat} {d : Dir} {t : HostThread} {s s' s'' : Channel}

def SameSlots (g : Pages) (d : Dir) (s s' : Channel) : Prop :=
  ∀ p, ∀ k < 16, s'.mem (g.cell d p k) = s.mem (g.cell d p k)

structure SameWriter (g : Pages) (s s' : Channel) : Prop where
  txHead : s'.txHead = s.txHead
  written : s'.written = s.written
  slots : SameSlots g .tx s s'

structure SameHost (g : Pages) (s s' : Channel) : Prop where
  txTail : s'.txTail = s.txTail
  handled : s'.handled = s.handled
  rxHead : s'.rxHead = s.rxHead
  answers : s'.answers = s.answers
  due : s'.due = s.due
  slots : SameSlots g .rx s s'

structure SameResponse (s s' : Channel) : Prop where
  rxTail : s'.rxTail = s.rxTail
  consumed : s'.consumed = s.consumed
  exited : s'.exited = s.exited
  seen : s'.seen = s.seen

structure Grows (s s' : Channel) : Prop where
  written : s.written <+: s'.written
  handled : s.handled <+: s'.handled
  answers : s.answers <+: s'.answers
  consumed : s.consumed <+: s'.consumed
  current : s'.current = true → s.current = true

structure Daemon (t : HostThread) (s s' : Channel) : Prop where
  lock : s'.channelLock = some t ↔ s.channelLock = some t
  current : s.channelLock = some t → s'.current = s.current

structure WriterRely (g : Pages) (i : Nat) (s s' : Channel) : Prop extends Grows s s' where
  lock : s'.txLock = some i ↔ s.txLock = some i
  owned : s.txLock = some i → SameWriter g s s'

structure WriterGuar (g : Pages) (gen i : Nat) (s s' : Channel) : Prop extends Grows s s' where
  inv : Inv g gen s'
  lock : ∀ j, j ≠ i → (s'.txLock = some j ↔ s.txLock = some j)
  owned : ∀ j, j ≠ i → s.txLock = some j → SameWriter g s s'
  daemon : ∀ t, Daemon t s s'
  host : SameHost g s s'
  response : SameResponse s s'

structure MainRely (g : Pages) (s s' : Channel) : Prop extends Grows s s' where
  host : SameHost g s s'
  daemon : Daemon .main s s'

structure DaemonGuar (g : Pages) (gen : Nat) (t : HostThread) (s s' : Channel) : Prop extends Grows s s' where
  inv : Inv g gen s'
  lock : s'.txLock = s.txLock
  writer : SameWriter g s s'
  response : SameResponse s s'
  daemon : ∀ u, u ≠ t → Daemon u s s'

structure ListenerGuar (g : Pages) (gen : Nat) (s s' : Channel) : Prop extends
    DaemonGuar g gen .listener s s' where
  host : SameHost g s s'

structure ListenerRely (s s' : Channel) : Prop extends Grows s s' where
  daemon : Daemon .listener s s'

structure ResponseRely (s s' : Channel) : Prop extends Grows s s' where
  response : SameResponse s s'

structure ResponseGuar (g : Pages) (gen : Nat) (s s' : Channel) : Prop extends Grows s s' where
  inv : Inv g gen s'
  lock : s'.txLock = s.txLock
  writer : SameWriter g s s'
  host : SameHost g s s'
  daemon : ∀ t, Daemon t s s'

structure BrokerGuar (g : Pages) (gen : Nat) (s s' : Channel) : Prop extends ResponseGuar g gen s s' where
  response : SameResponse s s'

structure Settled (s : Channel) : Prop where
  answered : s.answers.length = s.handled.length
  due : s.due ≤ s.handled.length

def contract (g : Pages) (gen : Nat) : Party → Contract Channel
  | .writer i => ⟨WriterRely g i, WriterGuar g gen i, fun s => s.txLock ≠ some i⟩
  | .response => ⟨ResponseRely, ResponseGuar g gen, fun s => s.exited = false → s.seen ≤ s.consumed.length⟩
  | .main => ⟨MainRely g, DaemonGuar g gen .main, fun s => s.channelLock ≠ some .main ∧ (s.current = true → Settled s)⟩
  | .listener => ⟨ListenerRely, ListenerGuar g gen, fun s => s.channelLock ≠ some .listener⟩
  | .broker => ⟨fun _ _ => True, BrokerGuar g gen, fun _ => True⟩

theorem SameSlots.refl (d : Dir) (s : Channel) : SameSlots g d s s := fun _ _ _ => rfl

theorem SameSlots.trans (h : SameSlots g d s s') (h' : SameSlots g d s' s'') : SameSlots g d s s'' :=
  fun p k hk => (h' p k hk).trans (h p k hk)

theorem SameWriter.refl (s : Channel) : SameWriter g s s := ⟨rfl, rfl, .refl .tx s⟩

theorem SameWriter.trans (h : SameWriter g s s') (h' : SameWriter g s' s'') : SameWriter g s s'' :=
  ⟨h'.txHead.trans h.txHead, h'.written.trans h.written, h.slots.trans h'.slots⟩

theorem SameHost.refl (s : Channel) : SameHost g s s := ⟨rfl, rfl, rfl, rfl, rfl, .refl .rx s⟩

theorem SameHost.trans (h : SameHost g s s') (h' : SameHost g s' s'') : SameHost g s s'' :=
  ⟨h'.txTail.trans h.txTail, h'.handled.trans h.handled, h'.rxHead.trans h.rxHead, h'.answers.trans h.answers,
    h'.due.trans h.due, h.slots.trans h'.slots⟩

theorem SameResponse.refl (s : Channel) : SameResponse s s := ⟨rfl, rfl, rfl, rfl⟩

theorem SameResponse.trans (h : SameResponse s s') (h' : SameResponse s' s'') : SameResponse s s'' :=
  ⟨h'.rxTail.trans h.rxTail, h'.consumed.trans h.consumed, h'.exited.trans h.exited, h'.seen.trans h.seen⟩

theorem Grows.refl (s : Channel) : Grows s s :=
  ⟨List.prefix_rfl, List.prefix_rfl, List.prefix_rfl, List.prefix_rfl, fun h => h⟩

theorem Grows.trans (h : Grows s s') (h' : Grows s' s'') : Grows s s'' :=
  ⟨h.written.trans h'.written, h.handled.trans h'.handled, h.answers.trans h'.answers, h.consumed.trans h'.consumed,
    fun hc => h.current (h'.current hc)⟩

theorem Daemon.refl (t : HostThread) (s : Channel) : Daemon t s s := ⟨Iff.rfl, fun _ => rfl⟩

theorem Daemon.trans (h : Daemon t s s') (h' : Daemon t s' s'') : Daemon t s s'' :=
  ⟨h'.lock.trans h.lock, fun hl => (h'.current (h.lock.mpr hl)).trans (h.current hl)⟩

theorem Daemon.same (hlock : s'.channelLock = s.channelLock) (hcurrent : s'.current = s.current) : Daemon t s s' :=
  ⟨by rw [hlock], fun _ => hcurrent⟩

theorem WriterRely.trans (h : WriterRely g i s s') (h' : WriterRely g i s' s'') : WriterRely g i s s'' :=
  ⟨h.toGrows.trans h'.toGrows, h'.lock.trans h.lock, fun hl => (h.owned hl).trans (h'.owned (h.lock.mpr hl))⟩

theorem WriterGuar.refl (h : Inv g gen s) : WriterGuar g gen i s s :=
  ⟨.refl s, h, fun _ _ => Iff.rfl, fun _ _ _ => .refl s, fun t => .refl t s, .refl s, .refl s⟩

theorem DaemonGuar.refl (h : Inv g gen s) : DaemonGuar g gen t s s :=
  ⟨.refl s, h, rfl, .refl s, .refl s, fun u _ => .refl u s⟩

theorem ResponseGuar.refl (h : Inv g gen s) : ResponseGuar g gen s s :=
  ⟨.refl s, h, rfl, .refl s, .refl s, fun t => .refl t s⟩

theorem Settled.same (h : Settled s) (hs : SameHost g s s') : Settled s' := by
  refine ⟨?_, ?_⟩
  · rw [hs.answers, hs.handled]
    exact h.answered
  · rw [hs.due, hs.handled]
    exact h.due

theorem contract_lawful (g : Pages) (gen : Nat) (i : Party) :
    (contract g gen i).Lawful (Inv g gen) := by
  cases i with
  | writer i =>
    exact {
      refl := fun s => ⟨.refl s, Iff.rfl, fun _ => .refl s⟩
      trans := WriterRely.trans
      still := WriterGuar.refl
      keeps := fun _ h => h.inv
      idle := fun h hr _ hl => h (hr.lock.mp hl) }
  | response =>
    exact {
      refl := fun s => ⟨.refl s, .refl s⟩
      trans := fun h h' => ⟨h.toGrows.trans h'.toGrows, h.response.trans h'.response⟩
      still := ResponseGuar.refl
      keeps := fun _ h => h.inv
      idle := fun {s s'} h hr _ hx => by
        rw [hr.response.exited] at hx
        rw [hr.response.seen, hr.response.consumed]
        exact h hx }
  | main =>
    exact {
      refl := fun s => ⟨.refl s, .refl s, .refl _ s⟩
      trans := fun h h' => ⟨h.toGrows.trans h'.toGrows, h.host.trans h'.host, h.daemon.trans h'.daemon⟩
      still := DaemonGuar.refl
      keeps := fun _ h => h.inv
      idle := fun h hr _ => ⟨fun hl => h.1 (hr.daemon.lock.mp hl), fun hc => (h.2 (hr.current hc)).same hr.host⟩ }
  | listener =>
    exact {
      refl := fun s => ⟨.refl s, .refl _ s⟩
      trans := fun h h' => ⟨h.toGrows.trans h'.toGrows, h.daemon.trans h'.daemon⟩
      still := fun {s} h => ⟨DaemonGuar.refl h, .refl s⟩
      keeps := fun _ h => h.inv
      idle := fun h hr _ hl => h (hr.daemon.lock.mp hl) }
  | broker =>
    exact {
      refl := fun _ => trivial
      trans := fun _ _ => trivial
      still := fun {s} h => ⟨ResponseGuar.refl h, .refl s⟩
      keeps := fun _ h => h.inv
      idle := fun _ _ _ => trivial }

theorem DaemonGuar.writerRely (h : DaemonGuar g gen t s s') (i : Nat) : WriterRely g i s s' :=
  ⟨h.toGrows, by rw [h.lock], fun _ => h.writer⟩

theorem ResponseGuar.writerRely (h : ResponseGuar g gen s s') (i : Nat) : WriterRely g i s s' :=
  ⟨h.toGrows, by rw [h.lock], fun _ => h.writer⟩

theorem contract_fits {p q : Party} (hpq : p ≠ q) (h : (contract g gen p).guar s s') :
    (contract g gen q).rely s s' := by
  cases q with
  | broker => trivial
  | writer j =>
    cases p with
    | writer i =>
      have hij : j ≠ i := fun he => hpq (by rw [he])
      exact ⟨WriterGuar.toGrows h, WriterGuar.lock h j hij, WriterGuar.owned h j hij⟩
    | response => exact ResponseGuar.writerRely h j
    | main => exact DaemonGuar.writerRely h j
    | listener => exact DaemonGuar.writerRely (ListenerGuar.toDaemonGuar h) j
    | broker => exact ResponseGuar.writerRely (BrokerGuar.toResponseGuar h) j
  | response =>
    cases p with
    | writer i => exact ⟨WriterGuar.toGrows h, WriterGuar.response h⟩
    | response => exact absurd rfl hpq
    | main => exact ⟨DaemonGuar.toGrows h, DaemonGuar.response h⟩
    | listener => exact ⟨(ListenerGuar.toDaemonGuar h).toGrows, (ListenerGuar.toDaemonGuar h).response⟩
    | broker => exact ⟨(BrokerGuar.toResponseGuar h).toGrows, BrokerGuar.response h⟩
  | main =>
    cases p with
    | writer i => exact ⟨WriterGuar.toGrows h, WriterGuar.host h, WriterGuar.daemon h _⟩
    | response => exact ⟨ResponseGuar.toGrows h, ResponseGuar.host h, ResponseGuar.daemon h _⟩
    | main => exact absurd rfl hpq
    | listener =>
      exact ⟨(ListenerGuar.toDaemonGuar h).toGrows, ListenerGuar.host h,
        (ListenerGuar.toDaemonGuar h).daemon _ (by decide)⟩
    | broker =>
      exact ⟨(BrokerGuar.toResponseGuar h).toGrows, (BrokerGuar.toResponseGuar h).host,
        (BrokerGuar.toResponseGuar h).daemon _⟩
  | listener =>
    cases p with
    | writer i => exact ⟨WriterGuar.toGrows h, WriterGuar.daemon h _⟩
    | response => exact ⟨ResponseGuar.toGrows h, ResponseGuar.daemon h _⟩
    | main => exact ⟨DaemonGuar.toGrows h, DaemonGuar.daemon h _ (by decide)⟩
    | listener => exact absurd rfl hpq
    | broker => exact ⟨(BrokerGuar.toResponseGuar h).toGrows, (BrokerGuar.toResponseGuar h).daemon _⟩

end MoCoLinux.Copresent
